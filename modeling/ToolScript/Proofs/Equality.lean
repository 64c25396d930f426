import Mathlib.Data.List.Perm.Subperm
import ToolScript.Proofs.Printing.Literal

/-!
# Equality of values

Equal lists have equal items at the same places, and equal objects have equal values under the
same keys. Since no object has a key twice, comparing in one direction and counting the entries is
enough, so equality is symmetric. It is transitive, and only NaN keeps a value from being equal to
itself.
-/

namespace ToolScript

namespace Dict

variable {α : Type u} {dict other : Dict α} {key : String} {value : α}

theorem mem_of_get? (h : get? dict key = some value) : (key, value) ∈ dict := by
  induction dict with
  | nil => cases h
  | cons entry rest ih =>
      simp only [get?] at h
      split at h
      · next hkey =>
          obtain rfl := Option.some.inj h
          exact hkey ▸ List.mem_cons_self
      · exact List.mem_cons_of_mem _ (ih h)

theorem mem_keys_iff : key ∈ keys dict ↔ ∃ value, (key, value) ∈ dict := by
  simp [keys]

/-- Without a key twice, a dictionary whose keys all belong to another one with as many entries has
the same keys as that one. -/
theorem Unique.keys_perm (h : Unique dict) (hsub : keys dict ⊆ keys other)
    (hlength : dict.length = other.length) : (keys dict).Perm (keys other) :=
  (List.subperm_of_subset h hsub).perm_of_length_le (by simp [keys, hlength])

end Dict

namespace Value

/-- What holds of the values without parts, of a list whenever it holds of its items, and of an
object whenever it holds of the values under its keys, holds of all values. -/
@[elab_as_elim]
theorem partsRec {motive : Value → Prop} (null : motive .null) (bool : ∀ b, motive (.bool b))
    (number : ∀ n, motive (.number n)) (string : ∀ s, motive (.string s))
    (list : ∀ items, (∀ item ∈ items, motive item) → motive (.list items))
    (object : ∀ entries, (∀ entry ∈ entries, motive entry.2) → motive (.object entries)) :
    ∀ value, motive value
  | .null => null
  | .bool b => bool b
  | .number n => number n
  | .string s => string s
  | .list items => list items fun item _ => partsRec null bool number string list object item
  | .object entries => object entries fun entry _ =>
      partsRec null bool number string list object entry.2
termination_by value => sizeOf value
decreasing_by
  · have hlt := List.sizeOf_lt_of_mem ‹item ∈ items›
    rw [Value.list.sizeOf_spec]
    omega
  · have hlt := List.sizeOf_lt_of_mem ‹entry ∈ entries›
    have hvalue : sizeOf entry.2 < sizeOf entry := by
      rw [Prod.mk.sizeOf_spec]
      omega
    rw [Value.object.sizeOf_spec]
    omega

theorem partsItems_eq_flatMap (items : List Value) : partsItems items = items.flatMap parts := by
  induction items with
  | nil => rfl
  | cons item rest ih => exact congrArg (item.parts ++ ·) ih

theorem partsEntries_eq_flatMap (entries : List (String × Value)) :
    partsEntries entries = entries.flatMap fun entry => entry.2.parts := by
  induction entries with
  | nil => rfl
  | cons entry rest ih => exact congrArg (entry.2.parts ++ ·) ih

theorem mem_parts_list {part : Value} {items : List Value} :
    part ∈ (list items).parts ↔ part = .list items ∨ ∃ item ∈ items, part ∈ item.parts := by
  simp only [parts, partsItems_eq_flatMap, List.mem_cons, List.mem_flatMap]

theorem mem_parts_object {part : Value} {entries : List (String × Value)} :
    part ∈ (object entries).parts ↔
      part = .object entries ∨ ∃ entry ∈ entries, part ∈ entry.2.parts := by
  simp only [parts, partsEntries_eq_flatMap, List.mem_cons, List.mem_flatMap]

/-- No object in the value has a key twice. -/
def Keyed (value : Value) : Prop :=
  ∀ entries, .object entries ∈ value.parts → Dict.Unique entries

theorem Keyed.item {items : List Value} (h : (list items).Keyed) {item : Value}
    (hitem : item ∈ items) : item.Keyed :=
  fun entries hentries => h entries (mem_parts_list.2 (.inr ⟨item, hitem, hentries⟩))

theorem Keyed.entry {entries : List (String × Value)} (h : (object entries).Keyed)
    {entry : String × Value} (hentry : entry ∈ entries) : entry.2.Keyed :=
  fun inner hinner => h inner (mem_parts_object.2 (.inr ⟨entry, hentry, hinner⟩))

theorem Keyed.unique {entries : List (String × Value)} (h : (object entries).Keyed) :
    Dict.Unique entries :=
  h entries (mem_parts_object.2 (.inl rfl))

/-- Some number in the value is NaN. -/
def HasNaN (value : Value) : Prop :=
  ∃ n : Float, .number n ∈ value.parts ∧ n.isNaN = true

theorem hasNaN_list_iff {items : List Value} :
    (list items).HasNaN ↔ ∃ item ∈ items, item.HasNaN := by
  simp only [HasNaN, mem_parts_list, reduceCtorEq, false_or]
  grind

theorem hasNaN_object_iff {entries : List (String × Value)} :
    (object entries).HasNaN ↔ ∃ entry ∈ entries, entry.2.HasNaN := by
  simp only [HasNaN, mem_parts_object, reduceCtorEq, false_or]
  grind

/-- A list is equal to one of the same length with equal items at the same places. -/
theorem eq_list_iff {items others : List Value} :
    (list items).eq (.list others) = true ↔
      items.length = others.length ∧
        ∀ (i : Nat) (a b : Value), items[i]? = some a → others[i]? = some b → a.eq b = true := by
  change eqItems items others = true ↔ _
  induction items generalizing others with
  | nil => cases others <;> simp [eqItems]
  | cons item rest ih =>
      cases others with
      | nil => simp [eqItems]
      | cons other others =>
          simp only [eqItems, Bool.and_eq_true, ih, List.length_cons, Nat.add_right_cancel_iff]
          constructor
          · rintro ⟨hfirst, hlength, hrest⟩
            refine ⟨hlength, fun i a b ha hb => ?_⟩
            cases i with
            | zero =>
                obtain rfl : item = a := by simpa using ha
                obtain rfl : other = b := by simpa using hb
                exact hfirst
            | succ i => exact hrest i a b (by simpa using ha) (by simpa using hb)
          · rintro ⟨hlength, hall⟩
            refine ⟨hall 0 item other rfl rfl, hlength, fun i a b ha hb => ?_⟩
            exact hall (i + 1) a b (by simpa using ha) (by simpa using hb)

theorem eqEntries_iff {entries : List (String × Value)} {others : Dict Value} :
    eqEntries entries others = true ↔
      ∀ entry ∈ entries, ∃ b, Dict.get? others entry.1 = some b ∧ entry.2.eq b = true := by
  induction entries with
  | nil => simp [eqEntries]
  | cons entry rest ih =>
      simp only [eqEntries, Bool.and_eq_true, ih, List.forall_mem_cons]
      refine and_congr_left fun _ => ?_
      cases Dict.get? others entry.1 <;> simp

/-- An object is equal to one with as many entries in which each of its keys has an equal value. -/
theorem eq_object_iff {entries others : List (String × Value)} :
    (object entries).eq (.object others) = true ↔
      entries.length = others.length ∧
        ∀ entry ∈ entries, ∃ b, Dict.get? others entry.1 = some b ∧ entry.2.eq b = true := by
  simp only [eq, Bool.and_eq_true, beq_iff_eq, eqEntries_iff]

/-- Equal objects have the same keys, since the second has those of the first and no others. -/
theorem perm_keys_of_eq {entries others : List (String × Value)} (hunique : Dict.Unique entries)
    (h : (object entries).eq (.object others) = true) :
    (Dict.keys entries).Perm (Dict.keys others) := by
  obtain ⟨hlength, hentries⟩ := eq_object_iff.1 h
  refine hunique.keys_perm (fun key hkey => ?_) hlength
  obtain ⟨a, ha⟩ := Dict.mem_keys_iff.1 hkey
  obtain ⟨b, hb, -⟩ := hentries _ ha
  exact Dict.mem_keys_iff.2 ⟨b, Dict.mem_of_get? hb⟩

theorem eq_symm {a b : Value} (ha : a.Keyed) (hb : b.Keyed) (h : a.eq b = true) :
    b.eq a = true := by
  induction a using partsRec generalizing b with
  | null =>
      cases b with
      | null => rfl
      | _ => cases h
  | bool x =>
      cases b with
      | bool y => exact (Bool.beq_comm).trans h
      | _ => cases h
  | number n =>
      cases b with
      | number m => exact BEq.symm h
      | _ => cases h
  | string s =>
      cases b with
      | string t => exact (BEq.comm).trans h
      | _ => cases h
  | list items ih =>
      cases b with
      | list others =>
          obtain ⟨hlength, hitems⟩ := eq_list_iff.1 h
          refine eq_list_iff.2 ⟨hlength.symm, fun i b a hb' ha' => ?_⟩
          have hmem := List.mem_of_getElem? ha'
          exact ih a hmem (ha.item hmem) (hb.item (List.mem_of_getElem? hb')) (hitems i a b ha' hb')
      | _ => cases h
  | object entries ih =>
      cases b with
      | object others =>
          have hperm := perm_keys_of_eq ha.unique h
          obtain ⟨hlength, hentries⟩ := eq_object_iff.1 h
          refine eq_object_iff.2 ⟨hlength.symm, fun entry hentry => ?_⟩
          obtain ⟨value, hvalue⟩ :=
            Dict.mem_keys_iff.1 (hperm.mem_iff.2 (Dict.mem_keys_iff.2 ⟨_, hentry⟩))
          obtain ⟨partner, hpartner, heq⟩ := hentries _ hvalue
          -- the partner of the entry with the same key is the entry itself
          obtain rfl : entry.2 = partner :=
            Option.some.inj ((hb.unique.get?_eq hentry).symm.trans hpartner)
          exact ⟨value, ha.unique.get?_eq hvalue,
            ih _ hvalue (ha.entry hvalue) (hb.entry hentry) heq⟩
      | _ => cases h

theorem eq_trans {a b c : Value} (h : a.eq b = true) (h' : b.eq c = true) : a.eq c = true := by
  induction a using partsRec generalizing b c with
  | null =>
      cases b with
      | null => exact h'
      | _ => cases h
  | bool x =>
      cases b with
      | bool y =>
          obtain rfl := eq_of_beq h
          exact h'
      | _ => cases h
  | number n =>
      cases b with
      | number m =>
          cases c with
          | number k => exact BEq.trans h h'
          | _ => cases h'
      | _ => cases h
  | string s =>
      cases b with
      | string t =>
          obtain rfl := eq_of_beq h
          exact h'
      | _ => cases h
  | list items ih =>
      cases b with
      | list middle =>
          cases c with
          | list others =>
              obtain ⟨hlength, hitems⟩ := eq_list_iff.1 h
              obtain ⟨hlength', hitems'⟩ := eq_list_iff.1 h'
              refine eq_list_iff.2 ⟨hlength.trans hlength', fun i a c ha hc => ?_⟩
              have hi : i < middle.length := hlength ▸ (List.getElem?_eq_some_iff.1 ha).1
              have hb := List.getElem?_eq_getElem hi
              exact ih a (List.mem_of_getElem? ha) (hitems i a _ ha hb) (hitems' i _ c hb hc)
          | _ => cases h'
      | _ => cases h
  | object entries ih =>
      cases b with
      | object middle =>
          cases c with
          | object others =>
              obtain ⟨hlength, hentries⟩ := eq_object_iff.1 h
              obtain ⟨hlength', hentries'⟩ := eq_object_iff.1 h'
              refine eq_object_iff.2 ⟨hlength.trans hlength', fun entry hentry => ?_⟩
              obtain ⟨b, hb, hab⟩ := hentries entry hentry
              obtain ⟨c, hc, hbc⟩ := hentries' _ (Dict.mem_of_get? hb)
              exact ⟨c, hc, ih entry hentry hab hbc⟩
          | _ => cases h'
      | _ => cases h

/-- A value is equal to itself unless it contains NaN. -/
theorem eq_self_iff {a : Value} (ha : a.Keyed) : a.eq a = true ↔ ¬a.HasNaN := by
  induction a using partsRec with
  | null => simp [eq, HasNaN, parts]
  | bool b => simp [eq, HasNaN, parts]
  | number n => simp [eq, HasNaN, parts]
  | string s => simp [eq, HasNaN, parts]
  | list items ih =>
      have hitems : (list items).eq (.list items) = true ↔ ∀ item ∈ items, item.eq item = true := by
        rw [eq_list_iff]
        refine ⟨fun h item hitem => ?_, fun h => ⟨rfl, fun i a b hi hi' => ?_⟩⟩
        · obtain ⟨i, hi⟩ := List.mem_iff_getElem?.1 hitem
          exact h.2 i item item hi hi
        · obtain rfl : a = b := Option.some.inj (hi.symm.trans hi')
          exact h a (List.mem_of_getElem? hi)
      rw [hitems, hasNaN_list_iff]
      push Not
      exact forall₂_congr fun item hitem => ih item hitem (ha.item hitem)
  | object entries ih =>
      have hentries : (object entries).eq (.object entries) = true ↔
          ∀ entry ∈ entries, entry.2.eq entry.2 = true := by
        rw [eq_object_iff]
        refine ⟨fun h entry hentry => ?_, fun h => ⟨rfl, fun entry hentry => ?_⟩⟩
        · obtain ⟨b, hb, heq⟩ := h.2 entry hentry
          obtain rfl : entry.2 = b := Option.some.inj ((ha.unique.get?_eq hentry).symm.trans hb)
          exact heq
        · exact ⟨entry.2, ha.unique.get?_eq hentry, h entry hentry⟩
      rw [hentries, hasNaN_object_iff]
      push Not
      exact forall₂_congr fun entry hentry => ih entry hentry (ha.entry hentry)

/-- Objects are equal if they have the same keys and equal values under each of them. -/
theorem eq_object_iff_get? {entries others : List (String × Value)}
    (hentries : Dict.Unique entries) (hothers : Dict.Unique others) :
    (object entries).eq (.object others) = true ↔
      (∀ key, key ∈ Dict.keys entries ↔ key ∈ Dict.keys others) ∧
        ∀ (key : String) (a b : Value), Dict.get? entries key = some a →
          Dict.get? others key = some b → a.eq b = true := by
  constructor
  · intro h
    refine ⟨fun key => (perm_keys_of_eq hentries h).mem_iff, fun key a b ha hb => ?_⟩
    obtain ⟨partner, hpartner, heq⟩ := (eq_object_iff.1 h).2 _ (Dict.mem_of_get? ha)
    obtain rfl : b = partner := Option.some.inj (hb.symm.trans hpartner)
    exact heq
  · rintro ⟨hkeys, hvalues⟩
    have hperm : (Dict.keys entries).Perm (Dict.keys others) :=
      (List.perm_ext_iff_of_nodup hentries hothers).2 hkeys
    refine eq_object_iff.2 ⟨by simpa [Dict.keys] using hperm.length_eq, fun entry hentry => ?_⟩
    obtain ⟨b, hb⟩ := Dict.mem_keys_iff.1 ((hkeys _).1 (Dict.mem_keys_iff.2 ⟨_, hentry⟩))
    have hget := hothers.get?_eq hb
    exact ⟨b, hget, hvalues _ _ _ (hentries.get?_eq hentry) hget⟩

theorem eq_list_set {items : List Value} (h : (list items).eq (.list items) = true) {i : Nat}
    {a b : Value} (ha : items[i]? = some a) (hab : a.eq b = true) :
    (list items).eq (.list (items.set i b)) = true := by
  refine eq_list_iff.2 ⟨List.length_set.symm, fun j x y hx hy => ?_⟩
  by_cases hij : i = j
  · subst hij
    obtain rfl : a = x := Option.some.inj (ha.symm.trans hx)
    have hi : i < items.length := (List.getElem?_eq_some_iff.1 ha).1
    obtain rfl : b = y := by simpa [List.getElem?_set_self hi] using hy
    exact hab
  · rw [List.getElem?_set_ne hij] at hy
    exact (eq_list_iff.1 h).2 j x y hx hy

theorem eq_object_insert {entries : List (String × Value)}
    (h : (object entries).eq (.object entries) = true) {key : String} {a b : Value}
    (ha : Dict.get? entries key = some a) (hunique : Dict.Unique entries) (hab : a.eq b = true) :
    (object entries).eq (.object (Dict.insert entries key b)) = true := by
  have hkey : key ∈ Dict.keys entries := Dict.mem_keys_iff.2 ⟨a, Dict.mem_of_get? ha⟩
  refine (eq_object_iff_get? hunique (hunique.insert key b)).2
    ⟨fun other => ?_, fun other x y hx hy => ?_⟩
  · rw [Dict.keys_insert, if_pos hkey]
  · rw [Dict.get?_insert] at hy
    by_cases hother : key = other
    · subst hother
      obtain rfl : a = x := Option.some.inj (ha.symm.trans hx)
      obtain rfl : b = y := by simpa using hy
      exact hab
    · rw [if_neg hother] at hy
      exact ((eq_object_iff_get? hunique hunique).1 h).2 other x y hx hy

end Value

/-- Equality is symmetric for values whose objects have no key twice, transitive for all values,
and reflexive for values without NaN. Objects are equal if they have the same keys and equal values
under each of them, in whatever order. A value without NaN stays equal if a component of it is
replaced by an equal one. -/
theorem equality_deep :
    (∀ a b : Value, a.Keyed → b.Keyed → (a == b) = (b == a)) ∧
    (∀ a b c : Value, (a == b) = true → (b == c) = true → (a == c) = true) ∧
    (∀ a : Value, a.Keyed → ((a == a) = true ↔ ¬a.HasNaN)) ∧
    (∀ entries others : Dict Value, Dict.Unique entries → Dict.Unique others →
      ((Value.object entries == .object others) = true ↔
        (∀ key, key ∈ Dict.keys entries ↔ key ∈ Dict.keys others) ∧
          ∀ key a b, Dict.get? entries key = some a → Dict.get? others key = some b →
            (a == b) = true)) ∧
    (∀ (items : List Value) (i : Nat) (a b : Value), (Value.list items).Keyed →
      ¬(Value.list items).HasNaN → items[i]? = some a → (a == b) = true →
        (Value.list items == .list (items.set i b)) = true) ∧
    ∀ (entries : Dict Value) (key : String) (a b : Value), (Value.object entries).Keyed →
      ¬(Value.object entries).HasNaN → Dict.get? entries key = some a → (a == b) = true →
        (Value.object entries == .object (Dict.insert entries key b)) = true := by
  refine ⟨fun a b ha hb => ?_, fun a b c => Value.eq_trans, fun a ha => Value.eq_self_iff ha,
    fun entries others => Value.eq_object_iff_get?, fun items i a b hkeyed hnan ha hab => ?_,
    fun entries key a b hkeyed hnan ha hab => ?_⟩
  · exact Bool.eq_iff_iff.2 ⟨Value.eq_symm ha hb, Value.eq_symm hb ha⟩
  · exact Value.eq_list_set ((Value.eq_self_iff hkeyed).2 hnan) ha hab
  · exact Value.eq_object_insert ((Value.eq_self_iff hkeyed).2 hnan) ha hkeyed.unique hab

/-- Two objects with the same entries in different orders, of which one has a zero with a sign. -/
theorem equality_deep_reordered :
    let items : Value := .list [.string "s", .null]
    let entries : Dict Value := [("x", .number 0), ("y", items)]
    let others : Dict Value := [("y", items), ("x", .number (-0.0))]
    (Value.object others == .object entries) = true ∧
      (Value.object entries == .object entries) = true ∧
      (∀ key, key ∈ Dict.keys entries ↔ key ∈ Dict.keys others) ∧
      (Value.object others == .object (Dict.insert entries "x" (.number (-0.0)))) = true := by
  intro items entries others
  obtain ⟨hsymm, htrans, hself, hobject, -, hinsert⟩ := equality_deep
  have hunique : Dict.Unique entries := (by decide : List.Nodup ["x", "y"])
  have hunique' : Dict.Unique others := (by decide : List.Nodup ["y", "x"])
  have hkeyed : (Value.object entries).Keyed := fun inner hinner => by
    have heq : inner = entries := by
      simpa [Value.parts, Value.partsEntries, Value.partsItems, entries, items] using hinner
    exact heq ▸ hunique
  have hkeyed' : (Value.object others).Keyed := fun inner hinner => by
    have heq : inner = others := by
      simpa [Value.parts, Value.partsEntries, Value.partsItems, others, items] using hinner
    exact heq ▸ hunique'
  have hnan : ¬(Value.object entries).HasNaN := by
    have hzero : (0 : Float).isNaN = false := by decide
    rintro ⟨n, hn, htrue⟩
    obtain rfl : n = 0 := by
      simpa [Value.parts, Value.partsEntries, Value.partsItems, entries, items] using hn
    exact absurd (hzero.symm.trans htrue) Bool.false_ne_true
  have hequal : (Value.object entries == .object others) = true := by decide
  have hback : (Value.object others == .object entries) = true :=
    (hsymm _ _ hkeyed hkeyed').symm.trans hequal
  have hreplaced := hinsert entries "x" _ (.number (-0.0)) hkeyed hnan rfl (by decide)
  exact ⟨hback, (hself _ hkeyed).2 hnan, ((hobject _ _ hunique hunique').1 hequal).1,
    htrans _ _ _ hback hreplaced⟩

end ToolScript
