import Mathlib.Data.List.Infix
import ToolScript.Proofs.Isolation
import ToolScript.Proofs.Waiting.Patience

/-!
# Traces

The trace of a run is all that it did, in order: the texts it printed, the tools it called, and
the bindings that took place outside loops. It accounts for the events and for the scope of the
run. The trace of a run that was cut off ends with the pending call, and it is a prefix of the
trace of every run that outlasts it.
-/

namespace ToolScript

variable {σ τ α : Type}

/-- Something that a run did: an event, or a binding outside loops. -/
inductive Mark where
  | did (event : Event)
  | bound (name : String) (value : Value)

namespace Mark

/-- The events of a trace. -/
def events (trace : List Mark) : List Event :=
  trace.filterMap fun
    | .did event => some event
    | .bound _ _ => none

/-- The bindings of a trace. -/
def bindings (trace : List Mark) : List (String × Value) :=
  trace.filterMap fun
    | .did _ => none
    | .bound name value => some (name, value)

theorem events_append (trace rest : List Mark) :
    events (trace ++ rest) = events trace ++ events rest :=
  List.filterMap_append

theorem bindings_append (trace rest : List Mark) :
    bindings (trace ++ rest) = bindings trace ++ bindings rest :=
  List.filterMap_append

theorem events_map_did (list : List Event) : events (list.map .did) = list := by
  induction list with
  | nil => rfl
  | cons event rest ih => exact congrArg (event :: ·) ih

theorem bindings_map_did (list : List Event) : bindings (list.map .did) = [] := by
  induction list with
  | nil => rfl
  | cons event rest ih => exact ih

end Mark

/-- Binds names in the innermost frame, one after the other. -/
def Scope.setAll (scope : Scope) (bindings : List (String × Value)) : Scope :=
  bindings.foldl (fun scope binding => scope.set binding.1 binding.2) scope

theorem Scope.setAll_append (scope : Scope) (bindings rest : List (String × Value)) :
    scope.setAll (bindings ++ rest) = (scope.setAll bindings).setAll rest :=
  List.foldl_append

namespace Exec

/-- The events that a computation adds to the record. -/
def deeds (act : Exec σ α) (machine : Machine σ) : List Mark :=
  ((act machine).2.world.events.drop machine.world.events.length).map .did

/-- What is done behind a computation, if that goes on. -/
def andThen (act : Exec σ α) (next : α → Machine σ → List Mark) (machine : Machine σ) :
    List Mark :=
  match act machine with
  | (.ok a, after) => next a after
  | (.error _, _) => []

end Exec

namespace Stmt

mutual

/-- The trace of a statement. The bindings in the body of a loop are not a part of it. -/
def trace (host : Host σ) : Stmt → Machine σ → List Mark
  | .bind _ name value, machine =>
      Exec.deeds (value.evaluate host) machine ++
        Exec.andThen (value.evaluate host) (fun result _ => [.bound name result]) machine
  | .branch _ condition yes none, machine =>
      Exec.deeds (condition.evaluate host) machine ++
        Exec.andThen (condition.evaluate host) (fun value after =>
          match value with
          | .bool true => traceBlock host yes after
          | _ => []) machine
  | .branch _ condition yes (some no), machine =>
      Exec.deeds (condition.evaluate host) machine ++
        Exec.andThen (condition.evaluate host) (fun value after =>
          match value with
          | .bool true => traceBlock host yes after
          | .bool false => traceBlock host no after
          | _ => []) machine
  | .call pos tool args, machine => Exec.deeds ((Stmt.call pos tool args).exec host) machine
  | .each pos name items body, machine =>
      Exec.deeds ((Stmt.each pos name items body).exec host) machine
  | .expr pos e, machine => Exec.deeds ((Stmt.expr pos e).exec host) machine
termination_by structural stmt => stmt

/-- The trace of statements one after the other. -/
def traceBlock (host : Host σ) : List Stmt → Machine σ → List Mark
  | [], _ => []
  | stmt :: rest, machine =>
      trace host stmt machine ++
        Exec.andThen (stmt.exec host) (fun _ after => traceBlock host rest after) machine
termination_by structural stmts => stmts

end

theorem trace_branch (host : Host σ) (pos : Position) (condition : Expr) (yes : List Stmt)
    (no : Option (List Stmt)) (machine : Machine σ) :
    (Stmt.branch pos condition yes no).trace host machine =
      Exec.deeds (condition.evaluate host) machine ++
        Exec.andThen (condition.evaluate host) (fun value after =>
          match chosen yes no value with
          | some block => traceBlock host block after
          | none => []) machine := by
  cases no with
  | none =>
      refine congrArg (_ ++ Exec.andThen _ · machine) (funext fun value => ?_)
      rcases value with _ | (_ | _) | _ | _ | _ | _ <;> rfl
  | some no =>
      refine congrArg (_ ++ Exec.andThen _ · machine) (funext fun value => ?_)
      rcases value with _ | (_ | _) | _ | _ | _ | _ <;> rfl

end Stmt

/-- The trace is a full record of the computation: of its events and of what it bound, up to the
call that was pending if it was cut off. -/
structure Exec.Traced (act : Exec σ α) (trace : Machine σ → List Mark) : Prop where
  events : ∀ m, (act m).2.world.events = m.world.events ++ Mark.events (trace m)
  scope : ∀ m, (act m).2.scope = m.scope.setAll (Mark.bindings (trace m))
  pending : ∀ m, (act m).1 = .error .cancelled →
    ∃ before tool args, trace m = before ++ [.did (.called tool args)]

namespace Exec.Traced

/-- A computation that binds nothing is recorded by its events. -/
theorem deeds {act : Exec σ α} (hscope : Respects Eq act)
    (hself : ∀ first, Exec.Outlasts (World.InStep first) (World.Ahead first) act act) :
    Traced act (Exec.deeds act) := by
  have hnew (m : Machine σ) : (act m).2.world.events = m.world.events ++
      Mark.events (Exec.deeds act m) ∧ ((act m).1 = .error .cancelled →
        ∃ before tool args, Exec.deeds act m = before ++ [.did (.called tool args)]) := by
    -- the run against itself: in step or cut off, the record has only grown since the start
    have hstart : Machine.InStep (World.InStep m.world.events) m m :=
      ⟨rfl, rfl, rfl, rfl, le_rfl, List.prefix_refl _⟩
    rw [Exec.deeds, Mark.events_map_did]
    rcases (hself m.world.events).goesOn m m hstart with ⟨-, hne, -, hstep⟩ | ⟨-, hahead⟩
    · refine ⟨?_, fun hcut => absurd hcut hne⟩
      exact (List.prefix_iff_eq_append.mp hstep.grown).symm
    · obtain ⟨before, tool, args, heq⟩ := hahead.pending
      rw [heq, List.append_assoc, List.drop_left]
      exact ⟨rfl, fun _ => ⟨before.map .did, tool, args, List.map_append⟩⟩
  exact {
    events := fun m => (hnew m).1
    scope := fun m => by
      rw [Exec.deeds, Mark.bindings_map_did]
      exact (hscope m).symm
    pending := fun m => (hnew m).2 }

/-- A sequence is recorded by the record of its first part and that of what goes on behind. -/
theorem bind {β : Type} {act : Exec σ α} {f : α → Exec σ β} {trace : Machine σ → List Mark}
    {next : α → Machine σ → List Mark} (hact : Traced act trace)
    (hf : ∀ a, Traced (f a) (next a)) :
    Traced (act >>= f) (fun m => trace m ++ andThen act next m) where
  events m := by
    have hfirst := hact.events m
    rw [Halting.bind_apply, Mark.events_append, andThen]
    generalize act m = out at hfirst ⊢
    rcases out with ⟨halt | a, after⟩
    · exact hfirst.trans (congrArg _ (List.append_nil _).symm)
    · calc ((f a) after).2.world.events
          = after.world.events ++ Mark.events (next a after) := (hf a).events after
        _ = m.world.events ++ Mark.events (trace m) ++ Mark.events (next a after) :=
            congrArg (· ++ _) hfirst
        _ = _ := List.append_assoc _ _ _
  scope m := by
    have hfirst := hact.scope m
    rw [Halting.bind_apply, Mark.bindings_append, Scope.setAll_append, andThen]
    generalize act m = out at hfirst ⊢
    rcases out with ⟨halt | a, after⟩
    · exact hfirst
    · exact ((hf a).scope after).trans (congrArg (Scope.setAll · _) hfirst)
  pending m := by
    have hfirst := hact.pending m
    rw [Halting.bind_apply, andThen]
    generalize act m = out at hfirst ⊢
    rcases out with ⟨halt | a, after⟩
    · intro hcut
      rw [List.append_nil]
      exact hfirst (congrArg _ (Except.error.inj hcut))
    · intro hcut
      obtain ⟨before, tool, args, heq⟩ := (hf a).pending after hcut
      exact ⟨trace m ++ before, tool, args, by simp only [heq, List.append_assoc]⟩

theorem nothing {act : Exec σ α}
    (h : ∀ m, ∃ result, act m = (result, m) ∧ result ≠ .error .cancelled) :
    Traced act (fun _ => []) where
  events m := by
    obtain ⟨result, heq, -⟩ := h m
    rw [heq]
    exact (List.append_nil _).symm
  scope m := by
    obtain ⟨result, heq, -⟩ := h m
    rw [heq]
    rfl
  pending m hcut := by
    obtain ⟨result, heq, hne⟩ := h m
    rw [heq] at hcut
    exact absurd hcut hne

theorem pure (a : α) : Traced (Pure.pure a : Exec σ α) (fun _ => []) :=
  nothing fun _ => ⟨_, rfl, by rintro ⟨⟩⟩

theorem fails (failure : Failure) :
    Traced (throw (.failed failure) : Exec σ α) (fun _ => []) :=
  nothing fun _ => ⟨_, rfl, by rintro ⟨⟩⟩

theorem binds (name : String) (value : Value) :
    Traced (modifyScope fun scope => scope.set name value : Exec σ Unit)
      (fun _ => [.bound name value]) where
  events _ := (List.append_nil _).symm
  scope _ := rfl
  pending _ hcut := nomatch hcut

end Exec.Traced

open Exec

theorem Expr.traced_evaluate (host : Host σ) (e : Expr) :
    Traced (e.evaluate host) (deeds (e.evaluate host)) :=
  .deeds (e.respects_evaluate host) fun first =>
    ((Host.Hastier.refl host).outlasted first).evaluate e

namespace Stmt

variable (host : Host σ)

theorem outlasts_self (stmt : Stmt) (first : List Event) :
    Exec.Outlasts (World.InStep first) (World.Ahead first) (stmt.exec host) (stmt.exec host) :=
  ((Host.Hastier.refl host).outlasted first).exec stmt

mutual

theorem traced_exec (stmt : Stmt) : Traced (stmt.exec host) (stmt.trace host) := by
  cases stmt with
  | bind pos name value => exact (value.traced_evaluate host).bind fun result => .binds name result
  | call pos tool args =>
      exact .deeds (((Expr.tool pos tool args).respects_evaluate host).bind
        (fun _ _ _ => Eq.trans) fun _ => respects_pure (fun _ => rfl) ())
        (outlasts_self host (.call pos tool args))
  | branch pos condition yes no =>
      rw [exec_branch, funext (trace_branch host pos condition yes no)]
      refine (condition.traced_evaluate host).bind fun value => ?_
      cases hchosen : chosen yes no value with
      | none => exact .fails _
      | some block =>
          have hsize := sizeOf_chosen hchosen
          exact traced_execBlock block
  | each pos name items body =>
      exact .deeds (respects_each (respects_execBlock host body) pos name items)
        (outlasts_self host (.each pos name items body))
  | expr pos e =>
      exact .deeds ((e.respects_evaluate host).bind (fun _ _ _ => Eq.trans) fun _ =>
        respects_pure (fun _ => rfl) ()) (outlasts_self host (.expr pos e))
termination_by sizeOf stmt

theorem traced_execBlock (stmts : List Stmt) :
    Traced (execBlock host stmts) (traceBlock host stmts) := by
  cases stmts with
  | nil => exact .pure ()
  | cons stmt rest => exact (traced_exec stmt).bind fun _ => traced_execBlock rest
termination_by sizeOf stmts

end

end Stmt

/-- From machines in step, the first trace is a prefix of the second, and the same if the first
computation was not cut off. -/
def Exec.Extended (inStep : World σ → World τ → Prop) (act : Exec σ α)
    (trace : Machine σ → List Mark) (trace' : Machine τ → List Mark) : Prop :=
  ∀ m n, Machine.InStep inStep m n →
    trace m <+: trace' n ∧ ((act m).1 ≠ .error .cancelled → trace m = trace' n)

namespace Exec.Extended

variable {inStep ahead : World σ → World τ → Prop}

theorem deeds (hstep : ∀ s t, inStep s t → s.events = t.events)
    (hahead : ∀ s t, ahead s t → s.events <+: t.events) {x : Exec σ α} {y : Exec τ α}
    (h : Exec.Outlasts inStep ahead x y) :
    Extended inStep x (Exec.deeds x) (Exec.deeds y) := by
  intro m n hmn
  have hlength : m.world.events.length = n.world.events.length :=
    congrArg List.length (hstep _ _ hmn.2)
  rcases h.goesOn m n hmn with ⟨-, -, hafter⟩ | ⟨hcut, hafter⟩
  · have heq : Exec.deeds x m = Exec.deeds y n := by
      rw [Exec.deeds, Exec.deeds, hlength, hstep _ _ hafter.2]
    exact ⟨heq ▸ List.prefix_refl _, fun _ => heq⟩
  · refine ⟨?_, fun hne => absurd hcut hne⟩
    rw [Exec.deeds, Exec.deeds, hlength]
    exact (List.IsPrefix.drop (hahead _ _ hafter) _).map _

theorem bind {β : Type} {x : Exec σ α} {y : Exec τ α} {f : α → Exec σ β}
    {trace : Machine σ → List Mark} {trace' : Machine τ → List Mark}
    {next : α → Machine σ → List Mark} {next' : α → Machine τ → List Mark}
    (hxy : Exec.Outlasts inStep ahead x y) (hx : Extended inStep x trace trace')
    (hf : ∀ a, Extended inStep (f a) (next a) (next' a)) :
    Extended inStep (x >>= f) (fun m => trace m ++ andThen x next m)
      (fun n => trace' n ++ andThen y next' n) := by
  intro m n hmn
  have hrun := hxy.goesOn m n hmn
  obtain ⟨hbegins, hsame⟩ := hx m n hmn
  simp only [Halting.bind_apply, andThen]
  generalize x m = out at hrun hsame ⊢
  generalize y n = out' at hrun ⊢
  obtain ⟨result, m'⟩ := out
  obtain ⟨result', n'⟩ := out'
  rcases hrun with ⟨rfl, hne, hafter⟩ | ⟨rfl, -⟩
  · rw [hsame hne]
    cases result with
    | ok a =>
        obtain ⟨hnext, hnextSame⟩ := hf a m' n' hafter
        exact ⟨List.prefix_append_right_inj _ |>.mpr hnext, fun h => congrArg _ (hnextSame h)⟩
    | error halt => exact ⟨List.prefix_refl _, fun _ => rfl⟩
  · refine ⟨?_, fun h => absurd rfl h⟩
    rw [List.append_nil]
    exact hbegins.trans (List.prefix_append _ _)

theorem same {act : Exec σ α} (marks : List Mark) :
    Extended inStep act (fun _ => marks) (fun _ : Machine τ => marks) :=
  fun _ _ _ => ⟨List.prefix_refl _, fun _ => rfl⟩

end Exec.Extended

namespace Host.Outlasted

variable {inStep ahead : World σ → World τ → Prop} {host : Host σ} {other : Host τ}

mutual

/-- The trace of a statement is extended by that of a run that outlasts it. -/
theorem extended_exec (h : Host.Outlasted inStep ahead host other)
    (hstep : ∀ s t, inStep s t → s.events = t.events)
    (hahead : ∀ s t, ahead s t → s.events <+: t.events) (stmt : Stmt) :
    Exec.Extended inStep (stmt.exec host) (stmt.trace host) (stmt.trace other) := by
  have hread (e : Expr) := Exec.Extended.deeds hstep hahead (h.evaluate e)
  cases stmt with
  | bind pos name value => exact (hread value).bind (h.evaluate value) fun result => .same _
  | call pos tool args => exact .deeds hstep hahead (h.exec (.call pos tool args))
  | branch pos condition yes no =>
      rw [Stmt.exec_branch, funext (Stmt.trace_branch host pos condition yes no),
        funext (Stmt.trace_branch other pos condition yes no)]
      refine (hread condition).bind (h.evaluate condition) fun value => ?_
      cases hchosen : Stmt.chosen yes no value with
      | none => exact .same _
      | some block =>
          have hsize := Stmt.sizeOf_chosen hchosen
          exact extended_execBlock h hstep hahead block
  | each pos name items body => exact .deeds hstep hahead (h.exec (.each pos name items body))
  | expr pos e => exact .deeds hstep hahead (h.exec (.expr pos e))
termination_by sizeOf stmt

theorem extended_execBlock (h : Host.Outlasted inStep ahead host other)
    (hstep : ∀ s t, inStep s t → s.events = t.events)
    (hahead : ∀ s t, ahead s t → s.events <+: t.events) (stmts : List Stmt) :
    Exec.Extended inStep (Stmt.execBlock host stmts) (Stmt.traceBlock host stmts)
      (Stmt.traceBlock other stmts) := by
  cases stmts with
  | nil => exact .same _
  | cons stmt rest =>
      exact (extended_exec h hstep hahead stmt).bind (h.exec stmt) fun _ =>
        extended_execBlock h hstep hahead rest
termination_by sizeOf stmts

end

end Host.Outlasted

end ToolScript
