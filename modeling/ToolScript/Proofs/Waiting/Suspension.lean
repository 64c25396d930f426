import ToolScript.Proofs.Waiting.Trace

/-!
# Suspension and cancellation

A run that is polled often enough ends as if its tools had answered at once, and a run that is
not polled often enough has done the first part of that, up to a call that is still pending.
-/

namespace ToolScript

variable {σ : Type}

/-- The context in which metered tools have saved nothing yet. -/
def Context.metered (context : Context σ) : Context (σ × ℕ∞) :=
  ⟨context.scope, (context.memory, 0), context.readings⟩

/-- The number of times that the run of a script is suspended in all. -/
def Script.turns (host : Host σ) (context : Context σ) (script : Script) : ℕ∞ :=
  (script.execute host.metered 1 context.metered).context.memory.2

/-- The trace of a run with at most the given number of polls. -/
def Script.trace (host : Host σ) (polls : Nat) (context : Context σ) (script : Script) :
    List Mark :=
  match polls with
  | 0 => []
  | patience + 1 => Stmt.traceBlock host script.statements (context.machine patience)

namespace Exec

variable {α : Type}

theorem outcome_eq_cancelled (result : Except Halt α) :
    outcome result = .cancelled ↔ result = .error .cancelled := by
  rcases result with (failure | _) | a <;> simp [outcome]

theorem inStep_start (context : Context σ) {patience patience' : Nat} (h : patience ≤ patience') :
    Machine.InStep (World.InStep []) (context.machine patience) (context.machine patience') :=
  ⟨rfl, rfl, rfl, rfl, h, List.prefix_refl _⟩

/-- A run with hastier tools and at least as many polls has done all that the run did. -/
theorem events_prefix {act act' : Exec σ α}
    (h : Exec.Outlasts (World.InStep []) (World.Ahead []) act act') {polls polls' : Nat}
    (hle : polls ≤ polls') (context : Context σ) :
    (within polls context act).events <+: (within polls' context act').events := by
  cases polls with
  | zero => exact List.nil_prefix
  | succ patience =>
      obtain ⟨patience', rfl⟩ : ∃ patience', polls' = patience' + 1 := ⟨polls' - 1, by omega⟩
      rcases h.goesOn _ _ (inStep_start context (Nat.le_of_succ_le_succ hle)) with
        ⟨-, -, -, hstep⟩ | ⟨-, hahead⟩
      · rw [within_succ, within_succ, hstep.events]
      · exact hahead.events

/-- A run that is not cut off ends as it does with hastier tools. -/
theorem within_eq_of_outlasts {act act' : Exec σ α}
    (h : Exec.Outlasts (World.InStep []) (World.Ahead []) act act') {polls : Nat}
    {context : Context σ} (hne : (within polls context act).outcome ≠ .cancelled) :
    within polls context act = within polls context act' := by
  cases polls with
  | zero => exact absurd rfl hne
  | succ patience =>
      rcases h.goesOn _ _ (inStep_start context le_rfl) with ⟨heq, -, hscope, hstep⟩ | ⟨hcut, -⟩
      · rw [within_succ, within_succ, heq, hscope, hstep.memory, hstep.readings, hstep.events]
      · exact absurd ((outcome_eq_cancelled _).mpr hcut) hne

/-- A run is not cut off if and only if it is polled once more than a metered run saves turns. -/
theorem within_ne_cancelled_iff {act : Exec σ α} {metered : Exec (σ × ℕ∞) α}
    (h : ∀ patience, Exec.Outlasts (World.Spends patience) (World.Overspends patience) act metered)
    (polls : Nat) (context : Context σ) :
    (within polls context act).outcome ≠ .cancelled ↔
      (within 1 context.metered metered).context.memory.2 + 1 ≤ polls := by
  cases polls with
  | zero => exact ⟨fun hne => absurd rfl hne, fun hle => absurd hle (by simp)⟩
  | succ patience =>
      have hstart : Machine.InStep (World.Spends patience) (context.machine patience)
          (context.metered.machine 0) := ⟨rfl, rfl, rfl, zero_add _⟩
      rw [within_succ, ne_eq, outcome_eq_cancelled, Nat.cast_succ,
        ENat.add_le_add_iff_right ENat.one_ne_top]
      rcases (h patience).goesOn _ _ hstart with ⟨-, hne, -, hspends⟩ | ⟨hcut, hover⟩
      · refine iff_of_true hne ?_
        calc (metered (context.metered.machine 0)).2.world.memory.2
            ≤ (metered (context.metered.machine 0)).2.world.memory.2 +
                (act (context.machine patience)).2.world.patience := le_self_add
          _ = patience := hspends.saved
      · exact iff_of_false (fun hne => hne hcut) (not_le_of_gt hover)

end Exec

/-- Let tools suspend a run as often as they want, or for ever. A run ends if and only if it is
polled once more than it is suspended, and then it ends as if no tool had suspended it. What a
run has printed and called is a prefix of what it has with more polls. A run that is cut off has
bound, in the innermost frame and in order, what its trace says, and its trace is a prefix of the
trace without suspensions that ends with the pending call. -/
theorem suspension_transparent (host : Host σ) (context : Context σ) (script : Script) :
    (∀ polls, ((script.execute host polls context).outcome ≠ .cancelled ↔
        script.turns host context + 1 ≤ polls) ∧
      (script.turns host context + 1 ≤ polls →
        script.execute host polls context = script.execute host.prompt polls context)) ∧
    (∀ polls polls', polls ≤ polls' →
      let cut := (script.execute host polls context).events
      let events := (script.execute host polls' context).events
      cut <+: events ∧ Event.printedTexts cut <+: Event.printedTexts events ∧
        Event.toolCalls cut <+: Event.toolCalls events) ∧
    (∀ polls,
      let cut := script.execute host polls context
      let trace := script.trace host polls context
      cut.events = Mark.events trace ∧
      cut.context.scope = context.scope.setAll (Mark.bindings trace) ∧
      trace <+: script.trace host.prompt polls context ∧
      (cut.outcome = .cancelled → polls ≠ 0 →
        ∃ before tool args, trace = before ++ [.did (.called tool args)])) ∧
    script.execute host 0 context = ⟨.cancelled, context, []⟩ := by
  have hself := ((Host.Hastier.refl host).outlasted []).execBlock script.statements
  have hprompt := (host.hastier_prompt.outlasted []).execBlock script.statements
  have hfinish (polls : Nat) : (script.execute host polls context).outcome ≠ .cancelled ↔
      script.turns host context + 1 ≤ polls :=
    Exec.within_ne_cancelled_iff
      (fun patience => (host.outlasted_metered patience).execBlock script.statements) polls context
  refine ⟨fun polls => ⟨hfinish polls, fun hle => ?_⟩, fun polls polls' hle => ?_,
    fun polls => ?_, rfl⟩
  · exact Exec.within_eq_of_outlasts hprompt ((hfinish polls).mpr hle)
  · have hbegins := Exec.events_prefix hself hle context
    exact ⟨hbegins, hbegins.filterMap _, hbegins.filterMap _⟩
  · cases polls with
    | zero => exact ⟨rfl, rfl, List.nil_prefix, fun _ hne => absurd rfl hne⟩
    | succ patience =>
        have htraced := Stmt.traced_execBlock host script.statements
        have hextended := (host.hastier_prompt.outlasted []).extended_execBlock
          (fun _ _ h => h.events) (fun _ _ h => h.events) script.statements
        refine ⟨htraced.events _, htraced.scope _,
          (hextended _ _ (Exec.inStep_start context le_rfl)).1, fun hcut _ => ?_⟩
        exact htraced.pending _ ((Exec.outcome_eq_cancelled _).mp hcut)

/-- A tool that suspends the run twice needs three polls; with two, the bindings in front of it
have taken place and the one behind it has not. -/
theorem suspension_transparent_twice :
    let host : Host Unit :=
      ⟨fun _ => some ⟨none, fun args _ => (⟨some 2, .ok (.object args)⟩, ())⟩, fun _ => 0⟩
    let context : Context Unit := ⟨.empty, (), 0⟩
    let script : Script := ⟨[.bind .start "a" (.literal .start .null),
      .bind .start "b" (.list .start [.tool .start "slow" []])]⟩
    (script.execute host 2 context).outcome = .cancelled ∧
      (script.execute host 2 context).context.scope = Scope.empty.setAll [("a", .null)] ∧
      script.execute host 3 context = script.execute host.prompt 3 context ∧
      (script.execute host 3 context).outcome ≠ .cancelled := by
  intro host context script
  have h := suspension_transparent host context script
  have hturns : script.turns host context = 2 := rfl
  have hthree : script.turns host context + 1 ≤ (3 : Nat) := by
    rw [hturns]
    exact le_rfl
  exact ⟨rfl, (h.2.2.1 2).2.1, (h.1 3).2 hthree, (h.1 3).1.mpr hthree⟩

end ToolScript
