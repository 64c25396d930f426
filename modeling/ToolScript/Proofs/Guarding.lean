import ToolScript.Proofs.Attempts

/-!
# Schemas guard tools

A schema says which arguments fit: each is declared, and each parameter is served. Checking
arguments finds the first misfit, and an undeclared argument comes before a parameter that is
not served. Under every sequence of registrations a tool runs on arguments that fit only. A
call with other arguments ends the run at the place of the call, and the tool has not run.
-/

namespace ToolScript

variable {σ : Type}

/-- The argument is there if the parameter asks for it, and has the type of the parameter if it
is there. -/
structure Parameter.Served (parameter : Parameter) (args : Arguments) : Prop where
  present : parameter.required = true → ∃ value, Dict.get? args parameter.name = some value
  accepted : ∀ value, Dict.get? args parameter.name = some value →
    parameter.type.accepts value = true

/-- Some parameter has the name. -/
def Schema.Declares (schema : Schema) (name : String) : Prop :=
  ∃ parameter ∈ schema.parameters, parameter.name = name

/-- Every argument is declared, and every parameter is served. -/
structure Schema.Fits (schema : Schema) (args : Arguments) : Prop where
  declared : ∀ name ∈ Dict.keys args, schema.Declares name
  served : ∀ parameter ∈ schema.parameters, parameter.Served args

theorem Parameter.misfit?_eq_none_iff (parameter : Parameter) (args : Arguments) :
    parameter.misfit? args = none ↔ parameter.Served args := by
  unfold Parameter.misfit?
  cases hvalue : Dict.get? args parameter.name with
  | none =>
      constructor
      · intro h
        refine ⟨fun hrequired => ?_, fun value heq => by simp [hvalue] at heq⟩
        simp [hrequired] at h
      · intro h
        refine if_neg fun hrequired => ?_
        obtain ⟨value, heq⟩ := h.present hrequired
        simp [hvalue] at heq
  | some value =>
      constructor
      · intro h
        refine ⟨fun _ => ⟨value, hvalue⟩, fun other heq => ?_⟩
        obtain rfl : value = other := Option.some.inj (hvalue.symm.trans heq)
        simpa using h
      · intro h
        exact if_pos (h.accepted value hvalue)

namespace Schema

variable (schema : Schema) (args : Arguments)

theorem declares_eq_true_iff (name : String) :
    schema.declares name = true ↔ schema.Declares name := by
  simp [declares, Declares]

theorem find?_undeclared_eq_none_iff :
    ((Dict.keys args).find? fun name => !schema.declares name) = none ↔
      ∀ name ∈ Dict.keys args, schema.Declares name := by
  simp only [List.find?_eq_none, Bool.not_eq_true', Bool.not_eq_false, declares_eq_true_iff]

/-- Checking finds nothing exactly if the arguments fit. -/
theorem misfit?_eq_none_iff : schema.misfit? args = none ↔ schema.Fits args := by
  unfold misfit?
  constructor
  · intro h
    split at h
    · cases h
    · next hdeclared =>
        refine ⟨(find?_undeclared_eq_none_iff schema args).1 hdeclared, fun parameter hmem => ?_⟩
        exact (parameter.misfit?_eq_none_iff args).1 (List.findSome?_eq_none_iff.1 h parameter hmem)
  · intro h
    rw [(find?_undeclared_eq_none_iff schema args).2 h.declared]
    refine List.findSome?_eq_none_iff.2 fun parameter hmem => ?_
    exact (parameter.misfit?_eq_none_iff args).2 (h.served parameter hmem)

end Schema

/-- The arguments fit the schema of the tool, if it has one. -/
def Tool.Fits (tool : Tool σ) (args : Arguments) : Prop :=
  ∀ schema, tool.schema = some schema → schema.Fits args

theorem Tool.misfit?_eq_none_iff (tool : Tool σ) (args : Arguments) :
    tool.misfit? args = none ↔ tool.Fits args := by
  simp only [Tool.misfit?, Tool.Fits, Option.bind_eq_none_iff, Schema.misfit?_eq_none_iff]

/-- The tools after the registrations one after the other. -/
def ToolSet.ofList (registrations : List (String × Tool σ)) : ToolSet σ :=
  registrations.foldl (fun set new => set.register new.1 new.2) empty

section Runs

variable {host : Host σ} {α : Type} {attempts made : List Attempt} {result : Except Halt α}

/-- Every call that is made has arguments that fit the schema of the tool. -/
theorem Made.fits (h : Made host attempts made result) {name : String} {args : Arguments}
    (hcall : (name, args) ∈ made.map Attempt.call) :
    ∃ tool, host.tool? name = some tool ∧ tool.Fits args := by
  have hchecked : ∀ attempt ∈ made, host.Checks attempt none := by
    cases h with
    | all h => exact h
    | allButLast h => exact h
  obtain ⟨attempt, hattempt, heq⟩ := List.mem_map.1 hcall
  cases heq
  obtain ⟨tool, htool, hnone⟩ := hchecked attempt hattempt
  exact ⟨tool, htool, (tool.misfit?_eq_none_iff _).1 hnone⟩

end Runs

end ToolScript
