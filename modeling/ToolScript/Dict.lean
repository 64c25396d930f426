/-!
# Dictionaries in insertion order

A dictionary is a list of named entries. A new name goes to the end; a name that
is already there keeps its place and takes the new value. Every dictionary built
by `insert` has each name once.
-/

namespace ToolScript

/-- Named entries in the order in which the names first came in. -/
abbrev Dict (α : Type u) := List (String × α)

namespace Dict

variable {α : Type u}

/-- The entry with the given name. -/
@[simp] def get? : Dict α → String → Option α
  | [], _ => none
  | (other, value) :: rest, name => if other = name then some value else get? rest name

/-- The names of the entries, in order. -/
def keys (entries : Dict α) : List String :=
  entries.map Prod.fst

/-- Gives the name a value: in its old place if it has one, otherwise at the end. -/
@[simp] def insert : Dict α → String → α → Dict α
  | [], name, value => [(name, value)]
  | (other, old) :: rest, name, value =>
      if other = name then (name, value) :: rest else (other, old) :: insert rest name value

/-- Takes the name out; the other entries keep their order. -/
def erase (entries : Dict α) (name : String) : Dict α :=
  entries.filter fun entry => entry.1 ≠ name

/-- Inserts the entries one after the other, so that a repeated name keeps its
first place and its last value. -/
def ofList (entries : List (String × α)) : Dict α :=
  entries.foldl (fun dict entry => insert dict entry.1 entry.2) []

/-- Each name occurs once. -/
def Unique (entries : Dict α) : Prop :=
  (keys entries).Nodup

theorem get?_insert (entries : Dict α) (name other : String) (value : α) :
    get? (insert entries name value) other =
      if name = other then some value else get? entries other := by
  induction entries with
  | nil => rfl
  | cons entry rest ih =>
      obtain ⟨key, old⟩ := entry
      by_cases hk : key = name
      · simp only [insert, get?, hk, if_true]
        split <;> rfl
      · simp only [insert, get?, hk, if_false, ih]
        split
        · next ho => rw [if_neg (fun h => hk (ho.trans h.symm))]
        · rfl

theorem find?_insert (entries : Dict α) (name other : String) (value : α) :
    (insert entries name value).find? (fun entry => entry.1 = other) =
      if name = other then some (name, value)
      else entries.find? fun entry => entry.1 = other := by
  induction entries with
  | nil => by_cases h : name = other <;> simp [h]
  | cons entry rest ih =>
      obtain ⟨key, old⟩ := entry
      by_cases hk : key = name
      · by_cases h : name = other <;> simp [hk, h]
      · by_cases ho : key = other
        · have hne : name ≠ other := fun h => hk (ho.trans h.symm)
          simp [ho, hne, hne.symm]
        · simp [hk, ho, ih]

/-- Inserting leaves the names alone, or adds the new one at the end. -/
theorem keys_insert (entries : Dict α) (name : String) (value : α) :
    keys (insert entries name value) =
      if name ∈ keys entries then keys entries else keys entries ++ [name] := by
  induction entries with
  | nil => rfl
  | cons entry rest ih =>
      obtain ⟨key, old⟩ := entry
      simp only [keys] at ih
      by_cases hk : key = name
      · simp [keys, hk]
      · have hn : ¬ name = key := fun h => hk h.symm
        simp only [insert, keys, hk, hn, if_false, List.map_cons, ih, List.mem_cons, false_or]
        by_cases h : name ∈ rest.map Prod.fst <;> simp [h]

theorem Unique.insert {entries : Dict α} (h : Unique entries) (name : String) (value : α) :
    Unique (insert entries name value) := by
  unfold Unique at *
  rw [keys_insert]
  split
  · exact h
  · next hn =>
      refine List.nodup_append.2 ⟨h, by simp, fun a ha b hb => ?_⟩
      rw [List.mem_singleton.1 hb]
      exact fun hab => hn (hab ▸ ha)

theorem unique_ofList (entries : List (String × α)) : Unique (ofList entries) := by
  suffices h : ∀ dict : Dict α, Unique dict →
      Unique (entries.foldl (fun dict entry => Dict.insert dict entry.1 entry.2) dict) from
    h [] List.nodup_nil
  induction entries with
  | nil => exact fun _ h => h
  | cons entry rest ih => exact fun dict h => ih _ (h.insert entry.1 entry.2)

theorem ofList_concat (entries : List (String × α)) (entry : String × α) :
    ofList (entries ++ [entry]) = insert (ofList entries) entry.1 entry.2 := by
  simp only [ofList, List.foldl_append, List.foldl_cons, List.foldl_nil]

theorem mem_insert {entries : Dict α} {name : String} {value : α} {entry : String × α}
    (h : entry ∈ insert entries name value) : entry ∈ entries ∨ entry = (name, value) := by
  induction entries with
  | nil => exact .inr (List.mem_singleton.1 h)
  | cons first rest ih =>
      simp only [insert] at h
      split at h
      · rcases List.mem_cons.1 h with rfl | h
        · exact .inr rfl
        · exact .inl (List.mem_cons_of_mem _ h)
      · rcases List.mem_cons.1 h with rfl | h
        · exact .inl List.mem_cons_self
        · exact (ih h).imp_left (List.mem_cons_of_mem _)

/-- A dictionary has no entries but those that were put in. -/
theorem mem_of_mem_ofList {entries : List (String × α)} {entry : String × α}
    (h : entry ∈ ofList entries) : entry ∈ entries := by
  suffices hfold : ∀ dict : Dict α,
      entry ∈ entries.foldl (fun dict entry => insert dict entry.1 entry.2) dict →
        entry ∈ dict ∨ entry ∈ entries from
    (hfold [] h).resolve_left List.not_mem_nil
  clear h
  induction entries with
  | nil => exact fun dict h => .inl h
  | cons first rest ih =>
      intro dict h
      rcases ih _ h with h | h
      · rcases mem_insert h with h | rfl
        · exact .inl h
        · exact .inr List.mem_cons_self
      · exact .inr (List.mem_cons_of_mem _ h)

theorem erase_cons (entry : String × α) (rest : Dict α) (name : String) :
    erase (entry :: rest) name =
      if entry.1 = name then erase rest name else entry :: erase rest name := by
  by_cases h : entry.1 = name <;> simp [erase, h]

theorem erase_of_not_mem {entries : Dict α} {name : String} (h : name ∉ keys entries) :
    erase entries name = entries := by
  refine List.filter_eq_self.2 fun entry hentry => decide_eq_true fun heq => h ?_
  exact heq ▸ List.mem_map_of_mem hentry

theorem erase_insert_self (entries : Dict α) (name : String) (value : α) :
    erase (insert entries name value) name = erase entries name := by
  induction entries with
  | nil => simp [erase_cons]
  | cons entry rest ih => by_cases h : entry.1 = name <;> simp [erase_cons, h, ih]

/-- Taking out another name and giving a value to this one can be done in either order. -/
theorem erase_insert_of_ne {name other : String} (h : name ≠ other) (entries : Dict α)
    (value : α) :
    erase (insert entries name value) other = insert (erase entries other) name value := by
  induction entries with
  | nil => simp [erase, h]
  | cons entry rest ih =>
      by_cases hname : entry.1 = name
      · simp [erase_cons, hname, h]
      · by_cases hother : entry.1 = other
        · simp [erase_cons, hother, h.symm, ih]
        · simp [erase_cons, hname, hother, ih]

theorem insert_of_not_mem {entries : Dict α} {name : String} (h : name ∉ keys entries)
    (value : α) : insert entries name value = entries ++ [(name, value)] := by
  induction entries with
  | nil => rfl
  | cons entry rest ih =>
      simp only [keys, List.map_cons, List.mem_cons, not_or] at h
      simp only [insert, Ne.symm h.1, if_false, List.cons_append]
      rw [ih h.2]

theorem foldl_insert {dict entries : Dict α} (h : Unique (dict ++ entries)) :
    entries.foldl (fun dict entry => insert dict entry.1 entry.2) dict = dict ++ entries := by
  induction entries generalizing dict with
  | nil => exact (List.append_nil dict).symm
  | cons entry rest ih =>
      have hfresh : entry.1 ∉ keys dict := by
        simp only [Unique, keys, List.map_append, List.map_cons, List.nodup_append] at h
        exact fun hmem => h.2.2 _ hmem _ List.mem_cons_self rfl
      have hrest : Unique ((dict ++ [entry]) ++ rest) := by
        rwa [List.append_assoc, List.singleton_append]
      rw [List.foldl_cons, insert_of_not_mem hfresh, ih hrest, List.append_assoc,
        List.singleton_append]

/-- Each entry is the one under its name. -/
theorem Unique.get?_eq {entries : Dict α} (h : Unique entries) {entry : String × α}
    (hentry : entry ∈ entries) : get? entries entry.1 = some entry.2 := by
  induction entries with
  | nil => cases hentry
  | cons first rest ih =>
      obtain ⟨hfirst, hrest⟩ := List.nodup_cons.1 h
      rcases List.mem_cons.1 hentry with rfl | hmem
      · exact if_pos rfl
      · have hne : first.1 ≠ entry.1 := fun heq =>
          hfirst (heq ▸ List.mem_map_of_mem hmem)
        exact (if_neg hne).trans (ih hrest hmem)

theorem Unique.find?_eq {entries : Dict α} (h : Unique entries) {entry : String × α}
    (hentry : entry ∈ entries) :
    entries.find? (fun other => other.1 = entry.1) = some entry := by
  induction entries with
  | nil => cases hentry
  | cons first rest ih =>
      obtain ⟨hfirst, hrest⟩ := List.nodup_cons.1 h
      rcases List.mem_cons.1 hentry with rfl | hmem
      · simp
      · have hne : first.1 ≠ entry.1 := fun heq =>
          hfirst (heq ▸ List.mem_map_of_mem hmem)
        simpa [hne] using ih hrest hmem

/-- Entries without a repeated name are a dictionary as they stand. -/
theorem Unique.ofList_eq {entries : Dict α} (h : Unique entries) : ofList entries = entries :=
  show entries.foldl _ [] = [] ++ entries from foldl_insert h

end Dict

end ToolScript
