import ToolScript.Proofs.Halting
import ToolScript.Proofs.Printing.WellFormed

/-!
# Runs up to places

The positions in a tree decide where a failure is said to be, and nothing else. Two
computations concur if they do the same from every state and end alike, up to the places of
failures. That composes along `>>=`, so a script concurs with its unplaced form, and scripts
with the same unplaced form do the same for every host.
-/

namespace ToolScript

variable {σ S α β : Type}

/-- The failure with its position taken out. -/
def Failure.unplaced (failure : Failure) : Failure :=
  ⟨failure.cause, none⟩

/-- The halt with the position of its failure taken out. -/
def Halt.unplaced : Halt → Halt
  | .failed failure => .failed failure.unplaced
  | .cancelled => .cancelled

/-- The outcome with the position of its failure taken out. -/
def Outcome.unplaced : Outcome α → Outcome α
  | .done result => .done result
  | .failed failure => .failed failure.unplaced
  | .cancelled => .cancelled

/-- The ending with the position of its failure taken out. -/
def Ending.unplaced (ending : Ending σ α) : Ending σ α :=
  { ending with outcome := ending.outcome.unplaced }

/-- The computations do the same and end alike, up to the places of failures. -/
def Concur (x y : Halting S α) : Prop :=
  ∀ s, (x s).1.mapError Halt.unplaced = (y s).1.mapError Halt.unplaced ∧ (x s).2 = (y s).2

namespace Concur

theorem refl (x : Halting S α) : Concur x x :=
  fun _ => ⟨rfl, rfl⟩

theorem fails (cause : Cause) (pos place : Option Position) :
    Concur (throw (.failed ⟨cause, pos⟩) : Halting S α) (throw (.failed ⟨cause, place⟩)) :=
  fun _ => ⟨rfl, rfl⟩

theorem bind {x y : Halting S α} {f g : α → Halting S β} (hx : Concur x y)
    (hf : ∀ a, Concur (f a) (g a)) : Concur (x >>= f) (y >>= g) := by
  intro s
  obtain ⟨hresult, hstate⟩ := hx s
  rw [Halting.bind_apply, Halting.bind_apply]
  generalize x s = out at hresult hstate ⊢
  generalize y s = out' at hresult hstate ⊢
  obtain ⟨result, t⟩ := out
  obtain ⟨result', t'⟩ := out'
  subst hstate
  cases result with
  | ok a =>
      cases result' with
      | ok b =>
          obtain rfl : a = b := Except.ok.inj hresult
          exact hf a t
      | error halt => cases hresult
  | error halt =>
      cases result' with
      | ok b => cases hresult
      | error halt' => exact ⟨congrArg Except.error (Except.error.inj hresult), rfl⟩

end Concur

section Expressions

theorem Concur.ofExcept (pos place : Position) (result : Except Cause α) :
    Concur (Run.ofExcept pos result : Run σ α) (Run.ofExcept place result) := by
  cases result with
  | ok a => exact .refl _
  | error cause => exact .fails cause _ _

/-- A failure that is given one place or another one stays the same failure. -/
theorem Concur.withPosition (pos place : Position) (run : Run σ α) :
    Concur (Run.withPosition pos run) (Run.withPosition place run) := by
  intro world
  rw [Run.withPosition_apply, Run.withPosition_apply]
  rcases run world with ⟨(failure | _) | a, after⟩ <;> exact ⟨rfl, rfl⟩

theorem Concur.callNamed (host : Host σ) (pos place : Position) (name : String)
    (args : List Value) :
    Concur (Run.callNamed host pos name args) (Run.callNamed host place name args) := by
  unfold Run.callNamed
  split
  · exact .withPosition pos place _
  · exact .fails _ _ _

theorem Concur.invoke (pos place : Position) (name : String) (tool : Tool σ) (args : Arguments) :
    Concur (Run.invoke pos name tool args) (Run.invoke place name tool args) := by
  unfold Run.invoke
  split
  · exact .fails _ _ _
  · refine .bind (.refl _) fun _ => .bind (.refl _) fun reply => .bind (.refl _) fun _ => ?_
    rcases reply.result with (message | message) | value
    · exact .fails _ _ _
    · exact .fails _ _ _
    · exact .refl _

namespace Expr

variable (host : Host σ) (scope : Scope)

mutual

theorem concur_unplaced (e : Expr) : Concur (e.eval host scope) (e.unplaced.eval host scope) := by
  cases e with
  | literal => exact .refl _
  | ref pos name =>
      simp only [unplaced, eval]
      split
      · exact .refl _
      · exact .fails _ _ _
  | binary pos op a b =>
      exact .bind (concur_unplaced a) fun _ => .bind (concur_unplaced b) fun _ => .ofExcept _ _ _
  | unary pos op a => exact .bind (concur_unplaced a) fun _ => .ofExcept _ _ _
  | apply pos name args => exact .bind (concur_unplacedItems args) fun _ => .callNamed host _ _ _ _
  | tool pos name args =>
      simp only [unplaced, eval]
      split
      · exact .fails _ _ _
      · exact .bind (concur_unplacedEntries args) fun _ => .invoke _ _ _ _ _
  | list pos items => exact .bind (concur_unplacedItems items) fun _ => .refl _
  | object pos entries => exact .bind (concur_unplacedEntries entries) fun _ => .refl _
  | index pos a b =>
      refine .bind (concur_unplaced a) fun subject => ?_
      cases subject with
      | list items => exact .bind (concur_unplaced b) fun _ => .ofExcept _ _ _
      | null | bool | number | string | object => exact .fails _ _ _
  | member pos a property =>
      refine .bind (concur_unplaced a) fun subject => ?_
      cases subject with
      | object entries => exact .ofExcept _ _ _
      | null | bool | number | string | list => exact .fails _ _ _

theorem concur_unplacedItems (items : List Expr) :
    Concur (evalItems host scope items) (evalItems host scope (unplacedItems items)) := by
  cases items with
  | nil => exact .refl _
  | cons e rest =>
      exact .bind (concur_unplaced e) fun _ => .bind (concur_unplacedItems rest) fun _ => .refl _

theorem concur_unplacedEntries (entries : List (String × Expr)) :
    Concur (evalEntries host scope entries) (evalEntries host scope (unplacedEntries entries)) := by
  cases entries with
  | nil => exact .refl _
  | cons entry rest =>
      exact .bind (concur_unplaced entry.2) fun _ =>
        .bind (concur_unplacedEntries rest) fun _ => .refl _

end

end Expr

end Expressions

namespace Concur

theorem reading {run other : Scope → Run σ α} (h : ∀ scope, Concur (run scope) (other scope)) :
    Concur (Exec.reading run) (Exec.reading other) := by
  intro machine
  obtain ⟨hresult, hworld⟩ := h machine.scope machine.world
  exact ⟨hresult, congrArg (fun world => { machine with world := world }) hworld⟩

theorem inFrame {body other : Exec σ Unit} (h : Concur body other) (name : String)
    (value : Value) : Concur (Exec.inFrame name value body) (Exec.inFrame name value other) := by
  intro machine
  obtain ⟨hresult, hafter⟩ := h { machine with scope := machine.scope.push.set name value }
  exact ⟨hresult, congrArg (fun after => { after with scope := after.scope.pop }) hafter⟩

theorem forEach {body other : Exec σ Unit} (h : Concur body other) (name : String)
    (values : List Value) :
    Concur (Exec.forEach name body values) (Exec.forEach name other values) := by
  induction values with
  | nil => exact .refl _
  | cons value rest ih => exact .bind (h.inFrame name value) fun _ => ih

end Concur

theorem Expr.concur_evaluate (host : Host σ) (e : Expr) :
    Concur (e.evaluate host) (e.unplaced.evaluate host) :=
  .reading fun scope => e.concur_unplaced host scope

namespace Stmt

theorem unplaced_branch (pos : Position) (e : Expr) (yes : List Stmt) (no : Option (List Stmt)) :
    (Stmt.branch pos e yes no).unplaced =
      .branch .start e.unplaced (unplacedBlock yes) (no.map unplacedBlock) := by
  cases no <;> rfl

/-- The places do not matter to which block is chosen. -/
theorem chosen_unplaced (yes : List Stmt) (no : Option (List Stmt)) (value : Value) :
    chosen (unplacedBlock yes) (no.map unplacedBlock) value =
      (chosen yes no value).map unplacedBlock := by
  rcases value with _ | (_ | _) | _ | _ | _ | _ <;> cases no <;> rfl

variable (host : Host σ)

mutual

theorem concur_unplaced (stmt : Stmt) : Concur (stmt.exec host) (stmt.unplaced.exec host) := by
  cases stmt with
  | bind pos name e => exact .bind (e.concur_evaluate host) fun _ => .refl _
  | call pos tool args =>
      exact .bind ((Expr.tool pos tool args).concur_evaluate host) fun _ => .refl _
  | branch pos e yes no =>
      rw [unplaced_branch, exec_branch, exec_branch]
      refine .bind (e.concur_evaluate host) fun value => ?_
      rw [chosen_unplaced]
      cases hchosen : chosen yes no value with
      | none => exact .fails _ _ _
      | some block =>
          have hsize := sizeOf_chosen hchosen
          exact concur_unplacedBlock block
  | each pos name e body =>
      refine .bind (e.concur_evaluate host) fun value => ?_
      cases value with
      | list values => exact (concur_unplacedBlock body).forEach name values
      | null | bool | number | string | object => exact .fails _ _ _
  | expr pos e => exact .bind (e.concur_evaluate host) fun _ => .refl _
termination_by sizeOf stmt

theorem concur_unplacedBlock (stmts : List Stmt) :
    Concur (execBlock host stmts) (execBlock host (unplacedBlock stmts)) := by
  cases stmts with
  | nil => exact .refl _
  | cons stmt rest => exact .bind (concur_unplaced stmt) fun _ => concur_unplacedBlock rest
termination_by sizeOf stmts

end

end Stmt

theorem Exec.unplaced_outcome (result : Except Halt α) :
    (Exec.outcome result).unplaced = Exec.outcome (result.mapError Halt.unplaced) := by
  rcases result with (failure | _) | a <;> rfl

theorem Concur.within {act other : Exec σ α} (h : Concur act other) (polls : Nat)
    (context : Context σ) :
    (Exec.within polls context act).unplaced = (Exec.within polls context other).unplaced := by
  cases polls with
  | zero => rfl
  | succ patience =>
      obtain ⟨hresult, hmachine⟩ := h (context.machine patience)
      simp only [Exec.within_succ, Ending.unplaced, Exec.unplaced_outcome, hresult, hmachine]

/-- Executing a script is executing its unplaced form, up to the places of failures. -/
theorem Script.execute_unplaced (host : Host σ) (polls : Nat) (context : Context σ)
    (script : Script) :
    (script.unplaced.execute host polls context).unplaced =
      (script.execute host polls context).unplaced :=
  ((Stmt.concur_unplacedBlock host script.statements).within polls context).symm

/-- Scripts with the same unplaced form do the same, up to the places of failures. -/
theorem Script.execute_congr {script other : Script} (h : script.unplaced = other.unplaced)
    (host : Host σ) (polls : Nat) (context : Context σ) :
    (script.execute host polls context).unplaced =
      (other.execute host polls context).unplaced := by
  rw [← script.execute_unplaced, h, other.execute_unplaced]

end ToolScript
