import ToolScript.Proofs.Halting

/-!
# Runs that wait longer

Two computations are compared that do the same things, of which the second one waits longer
for its tools. They go on in step until the first one is cut off, and then the second one goes
on alone and ahead. What it means to be in step and to be ahead is a parameter: `Outlasts`
composes along `>>=` whatever it means, so a whole run outlasts another one as soon as single
actions do.
-/

namespace ToolScript

variable {σ τ S T α β : Type}

/-- The computation `y` outlasts `x`: from states that are in step both end alike and in step,
or `x` is cut off and `y` ends ahead of it; and `y` stays ahead wherever it starts ahead. -/
structure Outlasts (inStep ahead : S → T → Prop) (x : Halting S α) (y : Halting T α) : Prop where
  goesOn : ∀ s t, inStep s t →
    ((x s).1 = (y t).1 ∧ (x s).1 ≠ .error .cancelled ∧ inStep (x s).2 (y t).2) ∨
      ((x s).1 = .error .cancelled ∧ ahead (x s).2 (y t).2)
  stays : ∀ s t, ahead s t → ahead s (y t).2

namespace Outlasts

variable {inStep ahead : S → T → Prop}

theorem pure (a : α) :
    Outlasts inStep ahead (Pure.pure a : Halting S α) (Pure.pure a : Halting T α) where
  goesOn _ _ h := .inl ⟨rfl, by rintro ⟨⟩, h⟩
  stays _ _ h := h

theorem fails (failure : Failure) :
    Outlasts inStep ahead (throw (.failed failure) : Halting S α)
      (throw (.failed failure) : Halting T α) where
  goesOn _ _ h := .inl ⟨rfl, by rintro ⟨⟩, h⟩
  stays _ _ h := h

/-- What comes behind a computation that was cut off does not take place, and what comes behind
the other one leaves it ahead. -/
theorem bind {x : Halting S α} {y : Halting T α} {f : α → Halting S β} {g : α → Halting T β}
    (hx : Outlasts inStep ahead x y) (hf : ∀ a, Outlasts inStep ahead (f a) (g a)) :
    Outlasts inStep ahead (x >>= f) (y >>= g) where
  goesOn s t h := by
    have hfirst := hx.goesOn s t h
    rw [Halting.bind_apply, Halting.bind_apply]
    generalize x s = out at hfirst ⊢
    generalize y t = out' at hfirst ⊢
    obtain ⟨result, s'⟩ := out
    obtain ⟨result', t'⟩ := out'
    rcases hfirst with ⟨rfl, hne, hstep⟩ | ⟨rfl, hahead⟩
    -- either both go on in step, or only the second one goes on and stays ahead
    · cases result with
      | ok a => exact (hf a).goesOn s' t' hstep
      | error halt => exact .inl ⟨rfl, fun heq => hne (congrArg _ (Except.error.inj heq)), hstep⟩
    · refine .inr ⟨rfl, ?_⟩
      cases result' with
      | ok a => exact (hf a).stays s' t' hahead
      | error halt => exact hahead
  stays s t h := by
    have hfirst := hx.stays s t h
    rw [Halting.bind_apply]
    generalize y t = out at hfirst ⊢
    rcases out with ⟨_ | a, t'⟩
    · exact hfirst
    · exact (hf a).stays s t' hfirst

end Outlasts

/-- The actions of the second host outlast those of the first. -/
structure Host.Outlasted (inStep ahead : World σ → World τ → Prop) (host : Host σ)
    (other : Host τ) : Prop where
  record : ∀ event, Outlasts inStep ahead (Run.record event) (Run.record event)
  readClock : Outlasts inStep ahead (Run.readClock host) (Run.readClock other)
  invoke : ∀ name, Option.Rel (fun tool tool' => ∀ pos args,
    Outlasts inStep ahead (Run.invoke pos name tool args) (Run.invoke pos name tool' args))
    (host.tool? name) (other.tool? name)

section Expressions

variable {inStep ahead : World σ → World τ → Prop} {host : Host σ} {other : Host τ}

theorem Outlasts.ofExcept (pos : Position) (result : Except Cause α) :
    Outlasts inStep ahead (Run.ofExcept pos result) (Run.ofExcept pos result) := by
  cases result with
  | ok a => exact .pure a
  | error cause => exact .fails _

theorem Outlasts.withPosition {x : Run σ α} {y : Run τ α} (h : Outlasts inStep ahead x y)
    (pos : Position) :
    Outlasts inStep ahead (Run.withPosition pos x) (Run.withPosition pos y) where
  goesOn s t hst := by
    have hrun := h.goesOn s t hst
    rw [Run.withPosition_apply, Run.withPosition_apply]
    generalize x s = out at hrun ⊢
    generalize y t = out' at hrun ⊢
    obtain ⟨result, s'⟩ := out
    obtain ⟨result', t'⟩ := out'
    rcases hrun with ⟨rfl, hne, hstep⟩ | ⟨rfl, hahead⟩
    · rcases result with (failure | _) | a
      · exact .inl ⟨rfl, by rintro ⟨⟩, hstep⟩
      · exact absurd rfl hne
      · exact .inl ⟨rfl, by rintro ⟨⟩, hstep⟩
    · refine .inr ⟨rfl, ?_⟩
      rcases result' with (failure | _) | a <;> exact hahead
  stays s t hst := by
    have hrun := h.stays s t hst
    rw [Run.withPosition_apply]
    generalize y t = out at hrun ⊢
    rcases out with ⟨(failure | _) | a, t'⟩ <;> exact hrun

namespace Host.Outlasted

theorem builtin (h : Host.Outlasted inStep ahead host other) (builtin : Builtin)
    (args : List Value) :
    Outlasts inStep ahead (builtin.call host args) (builtin.call other args) := by
  have hof (result : Except Cause Value) :
      Outlasts inStep ahead (Builtin.ofExcept result) (Builtin.ofExcept result) := by
    cases result with
    | ok value => exact .pure value
    | error cause => exact .fails _
  unfold Builtin.call
  split
  · exact h.readClock.bind fun reading => hof _
  · exact hof _
  · exact (h.record _).bind fun _ => .pure _
  · exact hof _

theorem callNamed (h : Host.Outlasted inStep ahead host other) (pos : Position) (name : String)
    (args : List Value) :
    Outlasts inStep ahead (Run.callNamed host pos name args)
      (Run.callNamed other pos name args) := by
  unfold Run.callNamed
  split
  · exact (h.builtin _ args).withPosition pos
  · exact .fails _

/-- A tool that is there is called with the same arguments, and one that is not is missed. -/
theorem tool (h : Host.Outlasted inStep ahead host other) (scope : Scope) (pos : Position)
    (name : String) {args : List (String × Expr)}
    (hargs : Outlasts inStep ahead (Expr.evalEntries host scope args)
      (Expr.evalEntries other scope args)) :
    Outlasts inStep ahead (Expr.eval host scope (.tool pos name args))
      (Expr.eval other scope (.tool pos name args)) := by
  have hinvoke := h.invoke name
  simp only [Expr.eval]
  cases htool : host.tool? name with
  | none =>
      rw [htool] at hinvoke
      cases hother : other.tool? name with
      | none => exact .fails _
      | some tool' =>
          rw [hother] at hinvoke
          cases hinvoke
  | some tool =>
      rw [htool] at hinvoke
      cases hother : other.tool? name with
      | none =>
          rw [hother] at hinvoke
          cases hinvoke
      | some tool' =>
          rw [hother] at hinvoke
          cases hinvoke with
          | some hcalled => exact hargs.bind fun values => hcalled pos values

mutual

theorem eval (h : Host.Outlasted inStep ahead host other) (scope : Scope) (e : Expr) :
    Outlasts inStep ahead (Expr.eval host scope e) (Expr.eval other scope e) := by
  cases e with
  | literal pos value => exact .pure value
  | ref pos name =>
      simp only [Expr.eval]
      split
      · exact .pure _
      · exact .fails _
  | binary pos op left right =>
      exact (eval h scope left).bind fun a => (eval h scope right).bind fun b => .ofExcept pos _
  | unary pos op operand => exact (eval h scope operand).bind fun a => .ofExcept pos _
  | apply pos name args =>
      exact (evalItems h scope args).bind fun values => h.callNamed pos name values
  | tool pos name args => exact h.tool scope pos name (evalEntries h scope args)
  | list pos items => exact (evalItems h scope items).bind fun values => .pure _
  | object pos entries => exact (evalEntries h scope entries).bind fun values => .pure _
  | index pos subject place =>
      refine (eval h scope subject).bind fun value => ?_
      split
      · exact (eval h scope place).bind fun number => .ofExcept pos _
      · exact .fails _
  | member pos subject property =>
      refine (eval h scope subject).bind fun value => ?_
      split
      · exact .ofExcept pos _
      · exact .fails _
termination_by structural e

theorem evalItems (h : Host.Outlasted inStep ahead host other) (scope : Scope)
    (items : List Expr) :
    Outlasts inStep ahead (Expr.evalItems host scope items)
      (Expr.evalItems other scope items) := by
  cases items with
  | nil => exact .pure _
  | cons e rest =>
      exact (eval h scope e).bind fun value => (evalItems h scope rest).bind fun values => .pure _
termination_by structural items

theorem evalEntries (h : Host.Outlasted inStep ahead host other) (scope : Scope)
    (entries : List (String × Expr)) :
    Outlasts inStep ahead (Expr.evalEntries host scope entries)
      (Expr.evalEntries other scope entries) := by
  cases entries with
  | nil => exact .pure _
  | cons entry rest =>
      obtain ⟨name, e⟩ := entry
      exact (eval h scope e).bind fun value =>
        (evalEntries h scope rest).bind fun values => .pure _
termination_by structural entries

end

end Host.Outlasted

end Expressions

namespace Machine

/-- Machines are in step if their worlds are and their scopes are the same. -/
def InStep (inStep : World σ → World τ → Prop) (m : Machine σ) (n : Machine τ) : Prop :=
  m.scope = n.scope ∧ inStep m.world n.world

/-- A machine is ahead of another one if its world is. -/
def Ahead (ahead : World σ → World τ → Prop) (m : Machine σ) (n : Machine τ) : Prop :=
  ahead m.world n.world

end Machine

section Statements

variable {inStep ahead : World σ → World τ → Prop}

/-- The same for computations that can change the scope. -/
abbrev Exec.Outlasts (inStep ahead : World σ → World τ → Prop) (x : Exec σ α) (y : Exec τ α) :
    Prop :=
  ToolScript.Outlasts (Machine.InStep inStep) (Machine.Ahead ahead) x y

namespace Exec.Outlasts

theorem reading {run : Scope → Run σ α} {other : Scope → Run τ α}
    (h : ∀ scope, ToolScript.Outlasts inStep ahead (run scope) (other scope)) :
    Exec.Outlasts inStep ahead (Exec.reading run) (Exec.reading other) where
  goesOn m n hmn := by
    obtain ⟨scope, world⟩ := m
    obtain ⟨rfl, hworld⟩ := hmn
    rcases (h n.scope).goesOn world n.world hworld with ⟨heq, hne, hstep⟩ | ⟨hcut, hahead⟩
    · exact .inl ⟨heq, hne, rfl, hstep⟩
    · exact .inr ⟨hcut, hahead⟩
  stays m n hmn := (h n.scope).stays m.world n.world hmn

theorem modifyScope (f : Scope → Scope) :
    Exec.Outlasts inStep ahead (Exec.modifyScope f) (Exec.modifyScope f) where
  goesOn _ _ hmn := .inl ⟨rfl, by rintro ⟨⟩, congrArg f hmn.1, hmn.2⟩
  stays _ _ hmn := hmn

theorem inFrame {body : Exec σ Unit} {body' : Exec τ Unit}
    (h : Exec.Outlasts inStep ahead body body') (name : String) (value : Value) :
    Exec.Outlasts inStep ahead (Exec.inFrame name value body)
      (Exec.inFrame name value body') where
  goesOn m n hmn := by
    have hpushed : Machine.InStep inStep { m with scope := m.scope.push.set name value }
        { n with scope := n.scope.push.set name value } :=
      ⟨congrArg (fun scope => scope.push.set name value) hmn.1, hmn.2⟩
    rcases h.goesOn _ _ hpushed with ⟨heq, hne, hstep⟩ | ⟨hcut, hahead⟩
    · exact .inl ⟨heq, hne, congrArg Scope.pop hstep.1, hstep.2⟩
    · exact .inr ⟨hcut, hahead⟩
  stays m n hmn := h.stays m { n with scope := n.scope.push.set name value } hmn

theorem forEach {body : Exec σ Unit} {body' : Exec τ Unit}
    (h : Exec.Outlasts inStep ahead body body') (name : String) (values : List Value) :
    Exec.Outlasts inStep ahead (Exec.forEach name body values)
      (Exec.forEach name body' values) := by
  induction values with
  | nil => exact .pure ()
  | cons value rest ih => exact (h.inFrame name value).bind fun _ => ih

end Exec.Outlasts

variable {host : Host σ} {other : Host τ}

theorem Host.Outlasted.evaluate (h : Host.Outlasted inStep ahead host other) (e : Expr) :
    Exec.Outlasts inStep ahead (e.evaluate host) (e.evaluate other) :=
  .reading fun scope => h.eval scope e

namespace Host.Outlasted

mutual

theorem exec (h : Host.Outlasted inStep ahead host other) (stmt : Stmt) :
    Exec.Outlasts inStep ahead (stmt.exec host) (stmt.exec other) := by
  cases stmt with
  | bind pos name value => exact (h.evaluate value).bind fun result => Exec.Outlasts.modifyScope _
  | call pos tool args => exact (h.evaluate _).bind fun _ => .pure ()
  | branch pos condition yes no =>
      rw [Stmt.exec_branch, Stmt.exec_branch]
      refine (h.evaluate condition).bind fun value => ?_
      cases hchosen : Stmt.chosen yes no value with
      | none => exact .fails _
      | some block =>
          have hsize := Stmt.sizeOf_chosen hchosen
          exact execBlock h block
  | each pos name items body =>
      refine (h.evaluate items).bind fun value => ?_
      split
      · exact (execBlock h body).forEach name _
      · exact .fails _
  | expr pos e => exact (h.evaluate e).bind fun _ => .pure ()
termination_by sizeOf stmt

theorem execBlock (h : Host.Outlasted inStep ahead host other) (stmts : List Stmt) :
    Exec.Outlasts inStep ahead (Stmt.execBlock host stmts) (Stmt.execBlock other stmts) := by
  cases stmts with
  | nil => exact .pure ()
  | cons stmt rest => exact (exec h stmt).bind fun _ => execBlock h rest
termination_by sizeOf stmts

end

end Host.Outlasted

end Statements

end ToolScript
