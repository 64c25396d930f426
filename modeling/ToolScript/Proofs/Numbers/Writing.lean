import ToolScript.Proofs.Numbers.Reading
import ToolScript.Proofs.Printing.WellFormed

/-!
# Written numbers are read back

The shortest text of a positive double is a decimal that is read as the same double. So every
literal of a script has a source text, except for the one that stands above all doubles.
-/

namespace ToolScript

namespace Decimal

theorem natOfDigits_append (cs ds : List Char) :
    natOfDigits (cs ++ ds) = Nat.ofDigitChars 10 ds (natOfDigits cs) :=
  Nat.ofDigitChars_append 0

theorem natOfDigits_zeros_append (n : ℕ) (ds : List Char) :
    natOfDigits (List.replicate n '0' ++ ds) = natOfDigits ds := by
  rw [natOfDigits_append, natOfDigits, Nat.ofDigitChars_replicate_zero, Nat.mul_zero]
  rfl

theorem natOfDigits_append_zeros (cs : List Char) (n : ℕ) :
    natOfDigits (cs ++ List.replicate n '0') = 10 ^ n * natOfDigits cs := by
  rw [natOfDigits_append, Nat.ofDigitChars_replicate_zero]

/-- Only zeros are dropped. -/
theorem dropZeros_append (cs : List Char) :
    ∃ n, cs = dropZeros cs ++ List.replicate n '0' := by
  have hzeros : cs.reverse.takeWhile (· = '0') =
      List.replicate (cs.reverse.takeWhile (· = '0')).length '0' :=
    List.eq_replicate_of_mem fun c hc => by simpa using List.mem_takeWhile_imp hc
  have hsplit := List.takeWhile_append_dropWhile (p := (· = '0')) (l := cs.reverse)
  refine ⟨(cs.reverse.takeWhile (· = '0')).length, ?_⟩
  calc cs = (cs.reverse.takeWhile (· = '0') ++ cs.reverse.dropWhile (· = '0')).reverse := by
        rw [hsplit, List.reverse_reverse]
    _ = dropZeros cs ++ (cs.reverse.takeWhile (· = '0')).reverse := by
        rw [List.reverse_append, dropZeros]
    _ = _ := by rw [hzeros, List.reverse_replicate, List.length_replicate]

/-- The text is written with digits and read as a decimal with no positive exponent that has the
given value. -/
def Spells (cs : List Char) (q : ℚ) : Prop :=
  Plain cs ∧ ∃ d, ofChars? cs = some d ∧ d.exponent ≤ 0 ∧ d.value = q

variable {cs ds : List Char}

theorem spells_whole (hne : cs ≠ []) (h : ∀ c ∈ cs, c.isDigit = true) :
    Spells cs (natOfDigits cs) := by
  obtain ⟨htake, hdrop⟩ := Text.span_append h [] (by simp)
  rw [List.append_nil] at htake hdrop
  refine ⟨.whole hne h, ⟨natOfDigits cs, 0⟩, ?_, le_rfl, ?_⟩
  · simp [ofChars?, htake, hdrop, fraction, hne, exponent?]
  · simp [value]

theorem spells_broken (hne : cs ≠ []) (h : ∀ c ∈ cs, c.isDigit = true) (hds : ds ≠ [])
    (h' : ∀ c ∈ ds, c.isDigit = true) :
    Spells (cs ++ '.' :: ds) (natOfDigits (cs ++ ds) * 10 ^ (-(ds.length : ℤ))) := by
  obtain ⟨htake, hdrop⟩ := Text.span_append h ('.' :: ds) (by simp)
  obtain ⟨htake', hdrop'⟩ := Text.span_append h' [] (by simp)
  rw [List.append_nil] at htake' hdrop'
  refine ⟨.broken hne h hds h', ⟨natOfDigits (cs ++ ds), -ds.length⟩, ?_, by simp, rfl⟩
  simp [ofChars?, htake, hdrop, fraction, htake', hdrop', hne, exponent?]

/-- Digits with the point in its place spell what the digits spell there. -/
theorem spells_positional (hne : ds ≠ []) (h : ∀ c ∈ ds, c.isDigit = true) (point : ℤ) :
    Spells (positional false ds point) (natOfDigits ds * 10 ^ (point - ds.length)) := by
  have hzeros (n : ℕ) : ∀ c ∈ List.replicate n '0', c.isDigit = true := by
    intro c hc
    rw [List.eq_of_mem_replicate hc]
    rfl
  unfold positional
  split
  · next hpoint =>
      have hspells : Spells (['0'] ++ '.' :: (List.replicate point.natAbs '0' ++ ds)) _ :=
        spells_broken (by simp) (by simp)
          (List.append_ne_nil_of_right_ne_nil (List.replicate point.natAbs '0') hne)
          (List.forall_mem_append.mpr ⟨hzeros _, h⟩)
      have hnat : natOfDigits (['0'] ++ (List.replicate point.natAbs '0' ++ ds)) =
          natOfDigits ds := by
        rw [← List.append_assoc, show ['0'] = List.replicate 1 '0' from rfl,
          ← List.replicate_add, natOfDigits_zeros_append]
      have hexponent : -((List.replicate point.natAbs '0' ++ ds).length : ℤ) =
          point - ds.length := by
        rw [List.length_append, List.length_replicate]
        omega
      rwa [hnat, hexponent] at hspells
  · next hpoint =>
      split
      · next hlength =>
          have hspells : Spells (ds ++ List.replicate (point - ds.length).toNat '0') _ :=
            spells_whole (List.append_ne_nil_of_left_ne_nil hne _)
              (List.forall_mem_append.mpr ⟨h, hzeros _⟩)
          have hvalue : ((10 ^ (point - ds.length).toNat * natOfDigits ds : ℕ) : ℚ) =
              natOfDigits ds * 10 ^ (point - ds.length) := by
            rw [← Int.toNat_of_nonneg (Int.sub_nonneg_of_le hlength), zpow_natCast,
              Int.toNat_natCast]
            push_cast
            ring
          rw [natOfDigits_append_zeros, hvalue] at hspells
          simpa using hspells
      · next hlength =>
          obtain ⟨k, rfl⟩ : ∃ k : ℕ, point = k := ⟨point.toNat, by omega⟩
          have hk : 0 < k ∧ k < ds.length := by omega
          have hspells : Spells (ds.take k ++ '.' :: ds.drop k) _ :=
            spells_broken (List.ne_nil_of_length_pos (by rw [List.length_take]; omega))
              (fun c hc => h c (List.mem_of_mem_take hc))
              (List.ne_nil_of_length_pos (by rw [List.length_drop]; omega))
              (fun c hc => h c (List.mem_of_mem_drop hc))
          have hexponent : -((ds.drop k).length : ℤ) = k - ds.length := by
            rw [List.length_drop]
            omega
          rw [List.take_append_drop, hexponent] at hspells
          exact hspells

/-- A decimal that is written out spells its value. -/
theorem spells_digits {d : Decimal} (h : 0 < d.coefficient) :
    Spells (positional false (dropZeros d.digits) d.point) d.value := by
  obtain ⟨k, hk⟩ := dropZeros_append d.digits
  have hdigits : natOfDigits d.digits = d.coefficient := Nat.ofDigitChars_ten_toDigits
  have hnat : d.coefficient = 10 ^ k * natOfDigits (dropZeros d.digits) := by
    rw [← hdigits, ← natOfDigits_append_zeros, ← hk]
  have hne : dropZeros d.digits ≠ [] := by
    intro hnil
    rw [hnat, hnil] at h
    exact absurd h (by simp [natOfDigits])
  have hall : ∀ c ∈ dropZeros d.digits, c.isDigit = true := by
    intro c hc
    have hmem : c ∈ d.digits := by
      rw [hk]
      exact List.mem_append_left _ hc
    exact Nat.isDigit_of_mem_toDigits (by norm_num) (by norm_num) hmem
  have hvalue : (natOfDigits (dropZeros d.digits) : ℚ) *
      10 ^ (d.point - (dropZeros d.digits).length) = d.value := by
    have hlength : (d.digits.length : ℤ) = (dropZeros d.digits).length + k := by
      conv_lhs => rw [hk]
      simp
    have hexponent : d.point - (dropZeros d.digits).length = k + d.exponent := by
      rw [point, hlength]
      ring
    rw [hexponent, value, zpow_add₀ (by norm_num), zpow_natCast, hnat]
    push_cast
    ring
  exact hvalue ▸ spells_positional hne hall d.point

theorem neighbour_reads {tie : Tie} {exact d : Decimal} {value : Float} {cut : ℕ}
    (h : neighbour? tie exact value cut = some d) : (d.toFloat == value) = true := by
  simp only [neighbour?] at h
  split at h
  · next hbelow habove =>
      split at h
      · cases h
        exact habove
      · cases h
        exact hbelow
  · next hbelow _ =>
      cases h
      exact hbelow
  · next _ habove =>
      cases h
      exact habove
  · cases h

/-- The shortest decimal is read as the exact one is. -/
theorem toFloat_shortest (tie : Tie) {exact : Decimal} {m : ℕ} {e : ℤ} {hm : 0 < m}
    (h : exact.toFloat.toModel.unpack = .finite .positive m e hm) :
    (shortest tie exact).toFloat = exact.toFloat := by
  cases hfind : (List.range exact.digits.length).findSome? fun n =>
      neighbour? tie exact exact.toFloat (exact.digits.length - (n + 1)) with
  | none => simp only [shortest, hfind, Option.getD_none]
  | some d =>
      obtain ⟨n, -, hd⟩ := List.exists_of_findSome?_eq_some hfind
      simp only [shortest, hfind, Option.getD_some]
      exact Number.eq_of_beq h (neighbour_reads hd)

end Decimal

namespace Number

open Decimal Float.Model Float.Model.UnpackedFloat

variable {n : Float} {m : ℕ} {e : ℤ} {hm : 0 < m}

/-- The exact decimal of a double has its value, and an exponent that reading can cope with. -/
theorem toDecimal_exact (hm : 0 < m) (e : ℤ) :
    0 < (Dyadic.toDecimal ⟨false, m, e⟩).coefficient ∧
      (Dyadic.toDecimal ⟨false, m, e⟩).Moderate ∧
      (Dyadic.toDecimal ⟨false, m, e⟩).value = m * 2 ^ e := by
  cases e with
  | ofNat k =>
      simp only [Dyadic.toDecimal, Nat.shiftLeft_eq]
      refine ⟨by positivity, ⟨by norm_num, by simp only; omega⟩, ?_⟩
      simp [value]
  | negSucc k =>
      have hcoefficient : 0 < m * 5 ^ (k + 1) := by positivity
      -- powers of five grow with the exponent, so the coefficient is large enough for it
      have hlog : k + 1 ≤ (m * 5 ^ (k + 1)).log2 := by
        rw [Nat.le_log2 hcoefficient.ne']
        calc 2 ^ (k + 1) ≤ 1 * 5 ^ (k + 1) := by
              rw [one_mul]
              gcongr
              norm_num
          _ ≤ m * 5 ^ (k + 1) := by
              gcongr
              exact hm
      simp only [Dyadic.toDecimal, Nat.pow_eq]
      refine ⟨hcoefficient, ⟨by simp only; omega, by simp only; omega⟩, ?_⟩
      rw [value, zpow_negSucc, zpow_negSucc, show (10 : ℚ) = 5 * 2 by norm_num, mul_pow]
      push_cast
      field_simp

/-- The exact decimal of a double is read as that double. -/
theorem toFloat_toDecimal (h : n.toModel.unpack = .finite .positive m e hm) :
    (Dyadic.toDecimal ⟨false, m, e⟩).toFloat = n := by
  obtain ⟨hcanonical, -⟩ := canonical_of_unpack h
  have hself : Nearest n (m * 2 ^ e) := by
    refine ⟨m, e, .exact, hcanonical.approximates, ?_⟩
    rw [hcanonical.round_eq, ← model_pack_unpack n.toModel, h]
  obtain ⟨hpos, hmoderate, hvalue⟩ := toDecimal_exact hm e
  exact (hvalue ▸ nearest_toFloat hpos hmoderate).unique hself (hvalue ▸ value_pos hpos)

/-- The text of a number that is not zero is that of its shortest decimal behind the sign. -/
theorem text_of_finite {sign : Sign} (h : n.toModel.unpack = .finite sign m e hm) :
    text n = String.ofList ((if sign.toBitVec.toNat = 1 then ['-'] else []) ++
      scriptStyle.write (Dyadic.toDecimal ⟨false, m, e⟩)) := by
  have hnan : n.isNaN = false := by
    change n.toModel.unpack.isNaN = false
    rw [h]
    rfl
  have hinf : n.isInf = false := by
    change n.toModel.unpack.isInf = false
    rw [h]
    rfl
  have hzero : (n == 0) = false := by
    change UnpackedFloat.beq n.toModel.unpack (0 : Float).toModel.unpack = false
    rw [h, unpack_zero]
    cases sign <;> rfl
  simp only [text, hnan, hinf, hzero, Bool.false_eq_true, if_false, written, toDyadic_of_unpack h,
    decide_eq_true_eq]
  rfl

/-- The text of a positive number is that of its shortest decimal. -/
theorem text_of_unpack (h : n.toModel.unpack = .finite .positive m e hm) :
    text n = String.ofList (scriptStyle.write (Dyadic.toDecimal ⟨false, m, e⟩)) :=
  text_of_finite h

/-- A positive number can be written. -/
theorem readable_of_unpack (h : n.toModel.unpack = .finite .positive m e hm) : Readable n := by
  have hexact := toFloat_toDecimal h
  generalize hdecimal : Dyadic.toDecimal ⟨false, m, e⟩ = exact at hexact
  have hshort : (shortest .up exact).toFloat = n := by
    rw [← hexact] at h ⊢
    exact toFloat_shortest .up h
  generalize hd : shortest .up exact = d at hshort
  have hunpack : d.toFloat.toModel.unpack = .finite .positive m e hm := hshort ▸ h
  have hpos : 0 < d.coefficient := by
    apply Nat.pos_of_ne_zero
    intro hzero
    rw [show d = ⟨0, d.exponent⟩ from hzero ▸ rfl, unpack_toFloat_zero] at hunpack
    cases hunpack
  obtain ⟨hplain, read, hread, hexponent, hvalue⟩ := spells_digits hpos
  have htext : text n = String.ofList (positional false (dropZeros d.digits) d.point) := by
    rw [text_of_unpack h, hdecimal]
    simp only [Style.write, scriptStyle, hd, if_true]
  rw [Readable, htext, String.toList_ofList, ofText_plain hplain, hread, Option.map_some,
    toFloat_congr hvalue hunpack hpos hexponent, hshort]
  exact ⟨hplain, rfl⟩

theorem readable_zero : Readable 0 := by
  have hplain : Plain ['0'] := .whole (by simp) (by simp)
  have hread : Decimal.toFloat ⟨0, 0⟩ = 0 :=
    eq_of_unpack_eq ((unpack_toFloat_zero 0).trans unpack_zero.symm)
  refine ⟨hplain, ?_⟩
  change ofText? (String.ofList ['0']) = some 0
  rw [ofText_plain hplain, ← hread]
  rfl

/-- Every decimal is read as a number that can be written, or as the infinite one. -/
theorem readable_toFloat (d : Decimal) : Readable d.toFloat ∨ d.toFloat = Decimal.infinity := by
  rcases unsigned_toFloat d with hunpack | hunpack | ⟨m, e, hm, hunpack⟩
  · rw [eq_of_unpack_eq (hunpack.trans unpack_zero.symm)]
    exact .inl readable_zero
  · exact .inr (eq_of_unpack_eq (hunpack.trans unpack_infinity.symm))
  · exact .inl (readable_of_unpack hunpack)

/-- The number that a text of digits is read as can be written, unless it is infinite. -/
theorem readable_of_plain {cs : List Char} (h : Plain cs)
    (hn : ofText? (String.ofList cs) = some n) : Readable n ∨ n = Decimal.infinity := by
  rw [ofText_plain h, Option.map_eq_some_iff] at hn
  obtain ⟨d, -, rfl⟩ := hn
  exact readable_toFloat d

theorem unpack_neg {sign : Sign} (h : n.toModel.unpack = .finite sign m e hm) :
    (-n).toModel.unpack = .finite (-sign) m e hm := by
  obtain ⟨hcanonical, hmax⟩ := canonical_of_unpack h
  have hneg : (-n).toModel = Float.Model.pack n.toModel.unpack.neg := rfl
  rw [hneg, h]
  exact unpack_pack_canonical hcanonical hmax (-sign)

/-- Changing the sign twice changes nothing. -/
theorem neg_neg_of_unpack {sign : Sign} (h : n.toModel.unpack = .finite sign m e hm) :
    -(-n) = n := by
  apply eq_of_unpack_eq
  rw [unpack_neg (unpack_neg h), h]
  cases sign <;> rfl

/-- A negative number is written as a minus sign and its opposite. -/
theorem text_negative (h : n.toModel.unpack = .finite .negative m e hm) :
    text n = "-" ++ text (-n) := by
  rw [text_of_finite h, text_of_unpack (unpack_neg h), ← String.toList_inj]
  simp [Sign.toBitVec]

/-- A finite number is zero, positive or negative. -/
theorem sign_cases (h : n.isFinite = true) : (∃ sign, n.toModel.unpack = .zero sign) ∨
    (∃ m e hm, n.toModel.unpack = .finite .positive m e hm) ∨
    ∃ m e hm, n.toModel.unpack = .finite .negative m e hm := by
  change n.toModel.unpack.isFinite = true at h
  cases hunpack : n.toModel.unpack with
  | notANumber | infinity =>
      rw [hunpack] at h
      cases h
  | zero sign => exact .inl ⟨sign, rfl⟩
  | finite sign m e hm =>
      cases sign with
      | positive => exact .inr (.inl ⟨m, e, hm, rfl⟩)
      | negative => exact .inr (.inr ⟨m, e, hm, rfl⟩)

theorem beq_zero_of_unpack {sign : Sign} (h : n.toModel.unpack = .zero sign) :
    (n == 0) = true ∧ ((0 : Float) == n) = true := by
  change UnpackedFloat.beq _ _ = true ∧ UnpackedFloat.beq _ _ = true
  rw [h, unpack_zero]
  exact ⟨rfl, rfl⟩

theorem text_of_zero {sign : Sign} (h : n.toModel.unpack = .zero sign) : text n = "0" := by
  have hnan : n.isNaN = false := by
    change n.toModel.unpack.isNaN = false
    rw [h]
    rfl
  have hinf : n.isInf = false := by
    change n.toModel.unpack.isInf = false
    rw [h]
    rfl
  simp only [text, hnan, hinf, (beq_zero_of_unpack h).1, Bool.false_eq_true, if_false, if_true]

theorem beq_self_of_unpack {sign : Sign} (h : n.toModel.unpack = .finite sign m e hm) :
    (n == n) = true ∧ (n == 0) = false := by
  change UnpackedFloat.beq _ _ = true ∧ UnpackedFloat.beq _ _ = false
  rw [h, unpack_zero]
  cases sign <;> simp [UnpackedFloat.beq, UnpackedFloat.compare]

end Number

end ToolScript
