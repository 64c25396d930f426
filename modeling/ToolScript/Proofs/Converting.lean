import ToolScript.Proofs.Equality
import ToolScript.Value.Text

/-!
# Values through JSON

A number that is whole and small enough becomes an integer, and the double nearest to that integer
is the number again. Other finite numbers stay as they are, and those that are not finite become
null. Lists and objects keep their shape and their keys, so nothing else is lost. Writing a value
directly goes through the same cases as writing its document, whatever is written.
-/

namespace ToolScript

namespace Number

open Float.Model Float.Model.UnpackedFloat

variable {n : Float} {m : ℕ} {e : ℤ} {hm : 0 < m}

theorem toDyadic_of_not_finite (h : n.isFinite = false) : toDyadic? n = none := by
  change n.toModel.unpack.isFinite = false at h
  cases hunpack : n.toModel.unpack with
  | notANumber =>
      obtain rfl : n = nan := eq_of_unpack_eq hunpack
      rfl
  | infinity sign =>
      cases sign with
      | positive =>
          obtain rfl : n = Decimal.infinity := eq_of_unpack_eq hunpack
          rfl
      | negative =>
          obtain rfl : n = -Decimal.infinity := eq_of_unpack_eq hunpack
          rfl
  | zero sign =>
      rw [hunpack] at h
      cases h
  | finite sign m e hm =>
      rw [hunpack] at h
      cases h

theorem toInt_cases {i : ℤ} (h : toInt? n = some i) :
    ∃ d k, toDyadic? n = some d ∧ d.toNat? = some k ∧ i = if d.negative then -(k : ℤ) else k := by
  obtain ⟨d, hd, h⟩ := Option.bind_eq_some_iff.1 h
  obtain ⟨k, hk, h⟩ := Option.bind_eq_some_iff.1 h
  exact ⟨d, k, hd, hk, (Option.some.inj h).symm⟩

theorem toNat_of_zero (negative : Bool) (e : ℤ) : Dyadic.toNat? ⟨negative, 0, e⟩ = some 0 := by
  cases e <;> simp [Dyadic.toNat?]

theorem toInt_of_zero {sign : Sign} (h : n.toModel.unpack = .zero sign) : toInt? n = some 0 := by
  cases sign with
  | positive =>
      obtain rfl : n = 0 := eq_of_unpack_eq h
      have hparts : toDyadic? 0 = some ⟨false, 0, -1074⟩ := rfl
      simp [toInt?, hparts, toNat_of_zero]
  | negative =>
      obtain rfl : n = -0 := eq_of_unpack_eq h
      have hparts : toDyadic? (-0) = some ⟨true, 0, -1074⟩ := rfl
      simp [toInt?, hparts, toNat_of_zero]

/-- A magnitude that is a natural number is that number exactly. -/
theorem value_of_toNat {d : Dyadic} {k : ℕ} (h : d.toNat? = some k) :
    (d.mantissa : ℚ) * 2 ^ d.exponent = k := by
  obtain ⟨negative, m, e⟩ := d
  cases e with
  | ofNat j =>
      obtain rfl := Option.some.inj h
      simp [Nat.shiftLeft_eq]
  | negSucc j =>
      simp only [Dyadic.toNat?] at h
      split at h
      · next hwhole =>
          obtain rfl := Option.some.inj h
          rw [Nat.shiftLeft_eq] at hwhole
          rw [zpow_negSucc, ← div_eq_mul_inv, div_eq_iff (by positivity)]
          exact_mod_cast hwhole.symm
      · cases h

/-- A positive number is the one nearest to its value. -/
theorem nearest_self (h : n.toModel.unpack = .finite .positive m e hm) :
    Nearest n (m * 2 ^ e) := by
  obtain ⟨hcanonical, -⟩ := canonical_of_unpack h
  refine ⟨m, e, .exact, hcanonical.approximates, ?_⟩
  rw [hcanonical.round_eq, ← model_pack_unpack n.toModel, h]

/-- A natural number is converted to the number that it was. -/
theorem ofNat_of_toNat (h : n.toModel.unpack = .finite .positive m e hm) {negative : Bool} {k : ℕ}
    (hk : Dyadic.toNat? ⟨negative, m, e⟩ = some k) : 0 < k ∧ Float.ofNat k = n := by
  have hvalue : (m : ℚ) * 2 ^ e = k := value_of_toNat hk
  have hpos : (0 : ℚ) < k := by
    rw [← hvalue]
    positivity
  have hkpos : 0 < k := by exact_mod_cast hpos
  have hnear : Nearest (Float.ofNat k) k := by
    have hproduct := Nearest.ofScientific_product hkpos (Nat.zero_le 400)
    rwa [pow_zero, mul_one] at hproduct
  exact ⟨hkpos, hnear.unique (hvalue ▸ nearest_self h) hpos⟩

theorem isFinite_of_toInt {i : ℤ} (h : toInt? n = some i) : n.isFinite = true := by
  by_contra hfinite
  obtain ⟨d, k, hd, -⟩ := toInt_cases h
  rw [toDyadic_of_not_finite (Bool.eq_false_iff.2 hfinite)] at hd
  cases hd

/-- The double of a whole number is that number, but zero has lost its sign. -/
theorem ofInt_of_toInt {i : ℤ} (h : toInt? n = some i) :
    Float.ofInt i = if n == 0 then 0 else n := by
  rcases sign_cases (isFinite_of_toInt h) with ⟨sign, hzero⟩ | ⟨m, e, hm, hpos⟩ | ⟨m, e, hm, hneg⟩
  · obtain rfl : 0 = i := Option.some.inj ((toInt_of_zero hzero).symm.trans h)
    rw [if_pos (beq_zero_of_unpack hzero).1]
    rfl
  · obtain ⟨d, k, hd, hk, hi⟩ := toInt_cases h
    obtain rfl := Option.some.inj ((toDyadic_of_unpack hpos).symm.trans hd)
    obtain rfl : i = k := hi
    rw [(beq_self_of_unpack hpos).2]
    exact (ofNat_of_toNat hpos hk).2
  · obtain ⟨d, k, hd, hk, hi⟩ := toInt_cases h
    obtain rfl := Option.some.inj ((toDyadic_of_unpack hneg).symm.trans hd)
    obtain rfl : i = -(k : ℤ) := hi
    obtain ⟨hk, hopposite⟩ := ofNat_of_toNat (unpack_neg hneg) hk
    obtain ⟨j, rfl⟩ := Nat.exists_eq_add_one_of_ne_zero hk.ne'
    rw [(beq_self_of_unpack hneg).2]
    calc Float.ofInt (-((j + 1 : ℕ) : ℤ)) = -Float.ofNat (j + 1) := rfl
      _ = -(-n) := congrArg _ hopposite
      _ = n := neg_neg_of_unpack hneg

end Number

namespace Value

/-- A number that is not finite becomes null. -/
def finiteOrNull : Value → Value
  | .number n => if n.isFinite then .number n else .null
  | value => value

/-- The value with null for each number in it that is not finite. -/
def nullified (value : Value) : Value :=
  value.mapAtoms finiteOrNull

theorem mapItems_eq_map (f : Value → Value) (items : List Value) :
    mapItems f items = items.map (mapAtoms f) := by
  induction items with
  | nil => rfl
  | cons item rest ih => exact congrArg (item.mapAtoms f :: ·) ih

theorem mapEntries_eq_map (f : Value → Value) (entries : List (String × Value)) :
    mapEntries f entries = entries.map fun entry => (entry.1, entry.2.mapAtoms f) := by
  induction entries with
  | nil => rfl
  | cons entry rest ih => exact congrArg ((entry.1, entry.2.mapAtoms f) :: ·) ih

theorem nullified_list (items : List Value) :
    (list items).nullified = .list (items.map nullified) :=
  congrArg list (mapItems_eq_map finiteOrNull items)

theorem nullified_object (entries : List (String × Value)) :
    (object entries).nullified =
      .object (entries.map fun entry => (entry.1, entry.2.nullified)) :=
  congrArg object (mapEntries_eq_map finiteOrNull entries)

theorem skeleton_nullified (value : Value) : value.nullified.skeleton = value.skeleton := by
  refine skeleton_mapAtoms (fun atom => ?_) value
  cases atom with
  | number n =>
      simp only [finiteOrNull]
      split <;> rfl
  | _ => rfl

theorem nullified_of_finite {value : Value}
    (h : ∀ n, .number n ∈ value.parts → n.isFinite = true) : value.nullified = value := by
  induction value using partsRec with
  | null | bool | string => rfl
  | number n => exact if_pos (h n (List.mem_singleton_self _))
  | list items ih =>
      have hitems : items.map nullified = items.map id := List.map_congr_left fun item hitem =>
        ih item hitem fun n hn => h n (mem_parts_list.2 (.inr ⟨item, hitem, hn⟩))
      rw [nullified_list, hitems, List.map_id]
  | object entries ih =>
      have hentries : entries.map (fun entry => (entry.1, entry.2.nullified)) = entries.map id :=
        List.map_congr_left fun entry hentry => congrArg (Prod.mk entry.1)
          (ih entry hentry fun n hn => h n (mem_parts_object.2 (.inr ⟨entry, hentry, hn⟩)))
      rw [nullified_object, hentries, List.map_id]

theorem proper_nullified {value : Value} (h : value.Keyed) :
    ∀ part ∈ value.nullified.parts, part.Proper := by
  induction value using partsRec with
  | null | bool | string =>
      intro part hpart
      obtain rfl := List.mem_singleton.1 hpart
      trivial
  | number n =>
      change ∀ part ∈ (if n.isFinite then Value.number n else .null).parts, part.Proper
      intro part hpart
      split at hpart
      · next hfinite =>
          obtain rfl := List.mem_singleton.1 hpart
          exact hfinite
      · obtain rfl := List.mem_singleton.1 hpart
        trivial
  | list items ih =>
      rw [nullified_list]
      intro part hpart
      obtain rfl | ⟨_, hmem, hpart⟩ := mem_parts_list.1 hpart
      · trivial
      · obtain ⟨item, hitem, rfl⟩ := List.mem_map.1 hmem
        exact ih item hitem (h.item hitem) part hpart
  | object entries ih =>
      rw [nullified_object]
      intro part hpart
      obtain rfl | ⟨_, hmem, hpart⟩ := mem_parts_object.1 hpart
      · have hunique := h.unique
        rwa [Dict.Unique, ← keys_mapEntries finiteOrNull, mapEntries_eq_map] at hunique
      · obtain ⟨entry, hentry, rfl⟩ := List.mem_map.1 hmem
        exact ih entry hentry (h.entry hentry) part hpart

theorem toInt_of_jsonInt {n : Float} {i : ℤ} (h : jsonInt? n = some i) :
    Number.toInt? n = some i := by
  simp only [jsonInt?] at h
  split at h
  · next hint =>
      split at h
      · rwa [hint]
      · cases h
  · cases h

/-- A finite number that is no integer in JSON is not zero. -/
theorem ne_zero_of_jsonInt {n : Float} (hfinite : n.isFinite = true) (h : jsonInt? n = none) :
    (n == 0) = false := by
  rcases Number.sign_cases hfinite with ⟨sign, hzero⟩ | ⟨m, e, hm, hpos⟩ | ⟨m, e, hm, hneg⟩
  · simp [jsonInt?, Number.toInt_of_zero hzero] at h
  · exact (Number.beq_self_of_unpack hpos).2
  · exact (Number.beq_self_of_unpack hneg).2

/-- A number comes back from JSON without the sign of a zero, and as null if it is not finite. -/
theorem ofJson_jsonNumber (n : Float) :
    ofJson (jsonNumber n) = dropSign (finiteOrNull (.number n)) := by
  cases hint : jsonInt? n with
  | some i =>
      have hi := toInt_of_jsonInt hint
      simp only [jsonNumber, hint, ofJson, finiteOrNull, Number.isFinite_of_toInt hi, if_true,
        dropSign, Number.ofInt_of_toInt hi]
  | none =>
      by_cases hfinite : n.isFinite = true
      · simp only [jsonNumber, hint, ofJson, finiteOrNull, hfinite, if_true, dropSign,
          ne_zero_of_jsonInt hfinite hint, Bool.false_eq_true, if_false]
      · simp only [jsonNumber, hint, ofJson, finiteOrNull, hfinite, if_false, dropSign,
          Bool.false_eq_true]

theorem unsignZeros_finiteOrNull (n : Float) :
    (finiteOrNull (.number n)).unsignZeros = dropSign (finiteOrNull (.number n)) := by
  simp only [finiteOrNull]
  split <;> rfl

mutual

/-- The exact value that comes back from JSON. -/
theorem ofJson_toJson (value : Value) : ofJson value.toJson = value.nullified.unsignZeros := by
  cases value with
  | null | bool | string => rfl
  | number n => exact (ofJson_jsonNumber n).trans (unsignZeros_finiteOrNull n).symm
  | list items => exact congrArg list (ofJsonItems_toJsonItems items)
  | object entries => exact congrArg object (ofJsonEntries_toJsonEntries entries)

theorem ofJsonItems_toJsonItems (items : List Value) :
    ofJsonItems (toJsonItems items) = mapItems dropSign (mapItems finiteOrNull items) := by
  cases items with
  | nil => rfl
  | cons item rest =>
      exact congrArg₂ List.cons (ofJson_toJson item) (ofJsonItems_toJsonItems rest)

theorem ofJsonEntries_toJsonEntries (entries : List (String × Value)) :
    ofJsonEntries (toJsonEntries entries) =
      mapEntries dropSign (mapEntries finiteOrNull entries) := by
  cases entries with
  | nil => rfl
  | cons entry rest =>
      exact congrArg₂ List.cons (congrArg (Prod.mk entry.1) (ofJson_toJson entry.2))
        (ofJsonEntries_toJsonEntries rest)

end

section Write

variable {α : Type} (writer : Json.Writer α)

mutual

/-- Writing the document comes to the same as writing the value directly. -/
theorem write_toJson (value : Value) : value.toJson.write writer = value.writeJson writer := by
  cases value with
  | null | bool | number | string => rfl
  | list items => exact congrArg writer.array (writeItems_toJsonItems items)
  | object entries => exact congrArg writer.object (writeEntries_toJsonEntries entries)

theorem writeItems_toJsonItems (items : List Value) :
    Json.writeItems writer (toJsonItems items) = writeJsonItems writer items := by
  cases items with
  | nil => rfl
  | cons item rest =>
      exact congrArg₂ List.cons (write_toJson item) (writeItems_toJsonItems rest)

theorem writeEntries_toJsonEntries (entries : List (String × Value)) :
    Json.writeEntries writer (toJsonEntries entries) = writeJsonEntries writer entries := by
  cases entries with
  | nil => rfl
  | cons entry rest =>
      exact congrArg₂ List.cons (congrArg (Prod.mk entry.1) (write_toJson entry.2))
        (writeEntries_toJsonEntries rest)

end

end Write

end Value

/-- A value comes back from JSON with null for the numbers that are not finite and without signs
before zeros. So it has the same lists and objects with the same keys in the same order, it is
equal to the value with those nulls, and it is equal to the value itself if all numbers are finite.
However the document is written, the value that is written directly comes to the same, and so the
two compact texts are the same. -/
theorem json_round_trip (value : Value) :
    Value.ofJson value.toJson = value.nullified.unsignZeros ∧
      (Value.ofJson value.toJson).skeleton = value.skeleton ∧
      (value.Keyed → (Value.ofJson value.toJson == value.nullified) = true) ∧
      (value.Keyed → (∀ n, .number n ∈ value.parts → n.isFinite = true) →
        (Value.ofJson value.toJson == value) = true) ∧
      (∀ {α : Type} (writer : Json.Writer α),
        value.toJson.write writer = value.writeJson writer) ∧
      value.toJson.compact = value.jsonText := by
  have hexact := value.ofJson_toJson
  have hequal (h : value.Keyed) : (Value.ofJson value.toJson == value.nullified) = true := by
    rw [hexact]
    exact Value.unsignZeros_eq _ (Value.proper_nullified h)
  refine ⟨hexact, ?_, hequal, fun h hfinite => ?_, fun writer => value.write_toJson writer,
    value.write_toJson .compact⟩
  · rw [hexact, Value.skeleton_unsignZeros, Value.skeleton_nullified]
  · simpa only [Value.nullified_of_finite hfinite] using hequal h

/-- An object of which one entry is finite, with a zero with a sign, a fraction and a number beyond
the integers of JSON, and the other is not. -/
theorem json_round_trip_nested :
    let finite : Value :=
      .object [("z", .number (-0.0)), ("a", .list [.number 0.5, .number 1e16, .string "s"])]
    let value : Value :=
      .object [("f", finite), ("b", .list [.number Number.nan, .number (-Decimal.infinity)])]
    let held : Value := .object [("f", finite), ("b", .list [.null, .null])]
    value.Keyed ∧ (Value.ofJson value.toJson == held) = true ∧
      (Value.ofJson value.toJson).skeleton = held.skeleton ∧
      (∀ n, .number n ∈ finite.parts → n.isFinite = true) ∧
      (Value.ofJson finite.toJson == finite) = true ∧
      value.toJson.compact = value.jsonText := by
  intro finite value held
  have hkeyed : value.Keyed := fun entries hentries => by
    have hcases : entries = [("f", finite),
          ("b", .list [.number Number.nan, .number (-Decimal.infinity)])] ∨
        entries = [("z", .number (-0.0)),
          ("a", .list [.number 0.5, .number 1e16, .string "s"])] := by
      simpa [Value.parts, Value.partsEntries, Value.partsItems, value, finite] using hentries
    rcases hcases with rfl | rfl
    · exact (by decide : List.Nodup ["f", "b"])
    · exact (by decide : List.Nodup ["z", "a"])
  have hnumbers : ∀ n, .number n ∈ finite.parts → n.isFinite = true := fun n hn => by
    have hcases : n = -0.0 ∨ n = 0.5 ∨ n = 1e16 := by
      simpa [Value.parts, Value.partsEntries, Value.partsItems, finite] using hn
    rcases hcases with rfl | rfl | rfl <;> decide
  have hheld : value.nullified = held := rfl
  obtain ⟨-, hskeleton, hequal, -, -, htext⟩ := json_round_trip value
  obtain ⟨-, -, -, hfinite, -⟩ := json_round_trip finite
  exact ⟨hkeyed, hheld ▸ hequal hkeyed, hskeleton, hnumbers,
    hfinite (hkeyed.entry List.mem_cons_self) hnumbers, htext⟩

end ToolScript
