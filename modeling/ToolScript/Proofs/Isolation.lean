import ToolScript.Run.Exec

/-!
# What a run does to the scope

However it ends, a run leaves the outer frames alone. In the innermost frame it can only
change the names that the script binds outside its loops; old names keep their places and
new ones come behind them. A loop leaves no trace in the scope, since the frame of a turn is
taken off whether the turn ends, fails or is cut off.
-/

namespace ToolScript

namespace Stmt

mutual

/-- The names that a statement binds outside loops. -/
def bound : Stmt → List String
  | .bind _ name _ => [name]
  | .branch _ _ yes none => boundIn yes
  | .branch _ _ yes (some no) => boundIn yes ++ boundIn no
  | .call _ _ _ | .each _ _ _ _ | .expr _ _ => []
termination_by structural stmt => stmt

/-- The names that some of the statements bind outside loops. -/
def boundIn : List Stmt → List String
  | [] => []
  | stmt :: rest => bound stmt ++ boundIn rest
termination_by structural stmts => stmts

end

section Branch

variable {pos : Position} {condition : Expr} {yes : List Stmt} {no : Option (List Stmt)}

theorem bound_branch :
    (Stmt.branch pos condition yes no).bound = boundIn yes ++ boundIn (no.getD []) := by
  cases no with
  | none => exact (List.append_nil _).symm
  | some no => rfl

theorem boundIn_chosen_subset {value : Value} {block : List Stmt}
    (h : chosen yes no value = some block) :
    boundIn block ⊆ (Stmt.branch pos condition yes no).bound := by
  rw [bound_branch]
  refine of_chosen (P := fun block => boundIn block ⊆ _) h ?_ ?_
  · exact List.subset_append_left _ _
  · exact List.subset_append_right _ _

end Branch

end Stmt

/-- The scope `after` differs from `before` at most in the given names, all of them in the
innermost frame. -/
structure Scope.Differs (names : List String) (before after : Scope) : Prop where
  outer : after.outer = before.outer
  keys : Dict.keys before.inner <+: Dict.keys after.inner
  kept : ∀ name, name ∉ names → Dict.get? after.inner name = Dict.get? before.inner name

namespace Scope.Differs

variable {names others : List String} {s t u : Scope}

theorem refl (names : List String) (s : Scope) : Differs names s s :=
  ⟨rfl, List.prefix_refl _, fun _ _ => rfl⟩

theorem trans (h : Differs names s t) (h' : Differs names t u) : Differs names s u where
  outer := h'.outer.trans h.outer
  keys := h.keys.trans h'.keys
  kept name hname := (h'.kept name hname).trans (h.kept name hname)

theorem mono (h : Differs names s t) (hsub : names ⊆ others) : Differs others s t where
  outer := h.outer
  keys := h.keys
  kept name hname := h.kept name fun hmem => hname (hsub hmem)

theorem depth_eq (h : Differs names s t) : t.depth = s.depth := by
  simp only [depth, frames, List.length_cons, h.outer]

/-- Binding a name changes nothing else. -/
theorem set (s : Scope) (name : String) (value : Value) :
    Differs [name] s (s.set name value) where
  outer := rfl
  keys := by
    simp only [Scope.set, Dict.keys_insert]
    split
    · exact List.prefix_refl _
    · exact List.prefix_append _ _
  kept other hother := by
    have hne : name ≠ other := fun heq => hother (by simp [heq])
    simp only [Scope.set, Dict.get?_insert, hne, if_false]

end Scope.Differs

/-- Taking the innermost frame off brings back the scope that the other frames were. -/
theorem Scope.pop_of_outer {s t : Scope} (h : t.outer = s.frames) : t.pop = s := by
  simp only [pop, pop?, h, frames]

namespace Exec

variable {σ α β : Type}

/-- However the computation ends, the scopes before and after it are related. -/
def Respects (R : Scope → Scope → Prop) (act : Exec σ α) : Prop :=
  ∀ machine, R machine.scope (act machine).2.scope

variable {R : Scope → Scope → Prop} {act : Exec σ α}

theorem respects_pure (hrefl : ∀ s, R s s) (a : α) : Respects R (pure a : Exec σ α) :=
  fun machine => hrefl machine.scope

theorem respects_throw (hrefl : ∀ s, R s s) (halt : Halt) :
    Respects R (throw halt : Exec σ α) :=
  fun machine => hrefl machine.scope

/-- A sequence that halts in its first part has done only that part. -/
theorem Respects.bind {f : α → Exec σ β} (htrans : ∀ s t u, R s t → R t u → R s u)
    (hact : Respects R act) (hf : ∀ a, Respects R (f a)) : Respects R (act >>= f) := by
  intro machine
  have hfirst := hact machine
  change R _ (ExceptT.bindCont f (act machine).1 (act machine).2).2.scope
  cases hresult : (act machine).1 with
  | ok a => exact htrans _ _ _ hfirst (hf a _)
  | error halt => exact hfirst

theorem Respects.mono {S : Scope → Scope → Prop} (h : Respects R act)
    (hRS : ∀ s t, R s t → S s t) : Respects S act :=
  fun machine => hRS _ _ (h machine)

theorem respects_reading (run : Scope → Run σ α) : Respects Eq (reading run) :=
  fun _ => rfl

theorem respects_modifyScope {f : Scope → Scope} (h : ∀ s, R s (f s)) :
    Respects R (modifyScope f : Exec σ Unit) :=
  fun machine => h machine.scope

/-- A turn of a loop leaves no trace if its body leaves the outer frames alone. -/
theorem respects_inFrame {name : String} {value : Value} {body : Exec σ Unit}
    (hbody : Respects (fun s t => t.outer = s.outer) body) :
    Respects Eq (inFrame name value body) := by
  intro machine
  have houter := hbody { machine with scope := machine.scope.push.set name value }
  exact (Scope.pop_of_outer houter).symm

theorem respects_forEach {name : String} {body : Exec σ Unit}
    (hbody : Respects (fun s t => t.outer = s.outer) body) (values : List Value) :
    Respects Eq (forEach name body values) := by
  induction values with
  | nil => exact respects_pure (fun _ => rfl) ()
  | cons value rest ih =>
      exact (respects_inFrame hbody).bind (fun _ _ _ => Eq.trans) fun _ => ih

end Exec

open Exec

variable {σ : Type}

theorem Expr.respects_evaluate (host : Host σ) (e : Expr) : Respects Eq (e.evaluate host) :=
  respects_reading _

/-- What goes on behind an expression does to the scope what it does on its own. -/
theorem Expr.respects_evaluate_bind {α : Type} {names : List String} (host : Host σ) (e : Expr)
    {f : Value → Exec σ α} (hf : ∀ value, Respects (Scope.Differs names) (f value)) :
    Respects (Scope.Differs names) (e.evaluate host >>= f) :=
  ((e.respects_evaluate host).mono fun s _ heq => heq ▸ .refl names s).bind
    (fun _ _ _ => .trans) hf

namespace Stmt

/-- A loop leaves the scope as it was if the statements of its body keep the outer frames. -/
theorem respects_each {host : Host σ} {body : List Stmt}
    (hbody : Respects (Scope.Differs (boundIn body)) (execBlock host body)) (pos : Position)
    (name : String) (items : Expr) : Respects Eq ((Stmt.each pos name items body).exec host) := by
  refine (items.respects_evaluate host).bind (fun _ _ _ => Eq.trans) fun value => ?_
  split
  · exact respects_forEach (hbody.mono fun _ _ h => h.outer) _
  · exact respects_throw (fun _ => rfl) _

mutual

theorem respects_exec (host : Host σ) (stmt : Stmt) :
    Respects (Scope.Differs stmt.bound) (stmt.exec host) := by
  cases stmt with
  | bind pos name value =>
      exact value.respects_evaluate_bind host fun result =>
        respects_modifyScope fun s => .set s name result
  | call pos tool args =>
      exact (Expr.tool pos tool args).respects_evaluate_bind host fun _ =>
        respects_pure (.refl _) ()
  | branch pos condition yes no =>
      rw [exec_branch]
      refine condition.respects_evaluate_bind host fun value => ?_
      cases hchosen : chosen yes no value with
      | none => exact respects_throw (.refl _) _
      | some block =>
          have hsize := sizeOf_chosen hchosen
          exact (respects_execBlock host block).mono fun _ _ h =>
            h.mono (boundIn_chosen_subset hchosen)
  | each pos name items body =>
      exact (respects_each (respects_execBlock host body) pos name items).mono
        fun s _ heq => heq ▸ .refl _ s
  | expr pos e =>
      exact e.respects_evaluate_bind host fun _ => respects_pure (.refl _) ()
termination_by sizeOf stmt

theorem respects_execBlock (host : Host σ) (stmts : List Stmt) :
    Respects (Scope.Differs (boundIn stmts)) (execBlock host stmts) := by
  cases stmts with
  | nil => exact respects_pure (.refl _) ()
  | cons stmt rest =>
      have hfirst := (respects_exec host stmt).mono fun _ _ h =>
        h.mono (List.subset_append_left stmt.bound (boundIn rest))
      have hrest := (respects_execBlock host rest).mono fun _ _ h =>
        h.mono (List.subset_append_right stmt.bound (boundIn rest))
      exact hfirst.bind (fun _ _ _ => .trans) fun _ => hrest
termination_by sizeOf stmts

end

end Stmt

/-- A bounded run does to the scope what its computation does. -/
theorem Exec.Respects.within {α : Type} {R : Scope → Scope → Prop} {act : Exec σ α}
    (h : Respects R act) (hrefl : ∀ s, R s s) (polls : Nat) (context : Context σ) :
    R context.scope (Exec.within polls context act).context.scope := by
  cases polls with
  | zero => exact hrefl _
  | succ patience => exact h ⟨context.scope, ⟨context.memory, context.readings, patience, []⟩⟩

/-- However a run of a script ends, it leaves the number of frames and the outer frames as
they were, changes the innermost frame only in names that are bound outside loops, and keeps
the names it had in front. A loop and an expression leave the scope as it was. -/
theorem scope_isolated (host : Host σ) :
    (∀ polls context script,
      let after := (Script.execute host polls context script).context.scope
      after.depth = context.scope.depth ∧ after.outer = context.scope.outer ∧
        (∀ name, name ∉ Stmt.boundIn script.statements →
          Dict.get? after.inner name = Dict.get? context.scope.inner name) ∧
        Dict.keys context.scope.inner <+: Dict.keys after.inner) ∧
    (∀ pos name items body machine,
      ((Stmt.each pos name items body).exec host machine).2.scope = machine.scope) ∧
    (∀ e machine, (Expr.evaluate host e machine).2.scope = machine.scope) ∧
    ∀ polls context e, (Expr.run host polls context e).context.scope = context.scope := by
  refine ⟨fun polls context script => ?_, fun pos name items body machine => ?_,
    fun e machine => ?_, fun polls context e => ?_⟩
  · have h := (Stmt.respects_execBlock host script.statements).within (.refl _) polls context
    exact ⟨h.depth_eq, h.outer, h.kept, h.keys⟩
  · exact (Stmt.respects_each (Stmt.respects_execBlock host body) pos name items machine).symm
  · exact (e.respects_evaluate host machine).symm
  · exact ((e.respects_evaluate host).within (fun _ => rfl) polls context).symm

/-- A run that is cut off in a loop has bound `a` and left neither `x` nor `b`. -/
theorem scope_isolated_hanging :
    let host : Host Unit := ⟨fun _ => some ⟨none, fun _ _ => (⟨none, .ok .null⟩, ())⟩, fun _ => 0⟩
    let context : Context Unit := ⟨.ofFrame [("l", .list [.null])], (), 0⟩
    let script : Script := ⟨[.bind .start "a" (.literal .start .null),
      .each .start "x" (.ref .start "l")
        [.bind .start "b" (.ref .start "x"), .call .start "hang" []]]⟩
    let after := script.execute host 5 context
    after.outcome = .cancelled ∧ Dict.keys after.context.scope.inner = ["l", "a"] ∧
      after.context.scope.depth = 1 ∧ Dict.get? after.context.scope.inner "x" = none ∧
      Dict.get? after.context.scope.inner "b" = none := by
  intro host context script after
  obtain ⟨hdepth, -, hkept, -⟩ := (scope_isolated host).1 5 context script
  exact ⟨rfl, rfl, hdepth, hkept "x" (by decide), hkept "b" (by decide)⟩

end ToolScript
