import ToolScript.Proofs.Sequencing

/-!
# Turns of a loop

A loop only reads the scope. Each of its turns runs the body in the scope in front of the loop,
with a frame of its own around which holds the loop variable and nothing else, so turns know of
each other only what they did to the world. Looping through one list after another is looping
through both lists put together.
-/

namespace ToolScript

variable {σ α β : Type}

/-- One turn of a loop. The body runs in a frame of its own, in which only the loop variable is
bound, and whatever it binds is dropped. -/
def Stmt.turn (host : Host σ) (name : String) (body : List Stmt) (scope : Scope) (item : Value) :
    Run σ Unit := fun world =>
  let (result, after) := execBlock host body ⟨⟨[(name, item)], scope.frames⟩, world⟩
  (result, after.world)

namespace Exec

/-- Reading the scope once for a sequence is reading it for each part. -/
theorem reading_bind (x : Scope → Run σ α) (f : α → Scope → Run σ β) :
    reading (fun scope => x scope >>= fun a => f a scope) =
      (reading x >>= fun a => reading (f a)) := by
  funext machine
  rw [Halting.bind_apply]
  simp only [reading, Halting.bind_apply]
  rcases x machine.scope machine.world with ⟨halt | a, world⟩ <;> rfl

theorem inFrame_eq_turn (host : Host σ) (name : String) (body : List Stmt) (item : Value) :
    inFrame name item (Stmt.execBlock host body) =
      reading fun scope => Stmt.turn host name body scope item := by
  funext machine
  let start : Machine σ := ⟨⟨[(name, item)], machine.scope.frames⟩, machine.world⟩
  have houter : (Stmt.execBlock host body start).2.scope.outer = machine.scope.frames :=
    (Stmt.respects_execBlock host body start).outer
  calc inFrame name item (Stmt.execBlock host body) machine
      = ((Stmt.execBlock host body start).1,
          ⟨(Stmt.execBlock host body start).2.scope.pop,
            (Stmt.execBlock host body start).2.world⟩) := rfl
    _ = reading (fun scope => Stmt.turn host name body scope item) machine := by
        rw [Scope.pop_of_outer houter]
        rfl

/-- A loop through values is one turn after the other, all in the same scope. -/
theorem forEach_eq_turns (host : Host σ) (name : String) (body : List Stmt)
    (values : List Value) :
    forEach name (Stmt.execBlock host body) values =
      reading fun scope => values.forM (Stmt.turn host name body scope) := by
  induction values with
  | nil => rfl
  | cons item rest ih =>
      calc forEach name (Stmt.execBlock host body) (item :: rest)
          = (do
              inFrame name item (Stmt.execBlock host body)
              forEach name (Stmt.execBlock host body) rest) := rfl
        _ = (do
              reading fun scope => Stmt.turn host name body scope item
              reading fun scope => rest.forM (Stmt.turn host name body scope)) := by
            rw [inFrame_eq_turn, ih]
        _ = reading fun scope => (item :: rest).forM (Stmt.turn host name body scope) :=
            (reading_bind _ _).symm

theorem forEach_append (name : String) (body : Exec σ Unit) (front back : List Value) :
    forEach name body (front ++ back) = (do forEach name body front; forEach name body back) := by
  induction front with
  | nil => rfl
  | cons item rest ih => simp only [List.cons_append, forEach, ih, bind_assoc]

end Exec

namespace Script

variable {host : Host σ} {context : Context σ} {items : Expr} {values : List Value}

/-- A loop whose items are known in front of it goes through them. -/
theorem execBlock_each (h : items.eval host context.scope = pure (.list values)) (pos : Position)
    (name : String) (body : List Stmt) (patience : Nat) :
    Stmt.execBlock host [.each pos name items body] (context.machine patience) =
      Exec.forEach name (Stmt.execBlock host body) values (context.machine patience) := by
  have hitems : items.evaluate host (context.machine patience) =
      (.ok (.list values), context.machine patience) := by
    have heval : items.eval host (context.machine patience).scope = pure (.list values) := h
    simp only [Expr.evaluate, Exec.reading, heval]
    rfl
  rw [Stmt.execBlock_single]
  simp only [Stmt.exec]
  rw [Halting.bind_ok hitems]

theorem execute_each (h : items.eval host context.scope = pure (.list values)) (pos : Position)
    (name : String) (body : List Stmt) (polls : Nat) :
    execute host polls context ⟨[.each pos name items body]⟩ =
      Exec.within polls context (Exec.forEach name (Stmt.execBlock host body) values) := by
  cases polls with
  | zero => rfl
  | succ patience =>
      rw [execute, Exec.within_succ, Exec.within_succ]
      simp only [execBlock_each h]

theorem pollsLeft_each (h : items.eval host context.scope = pure (.list values)) (pos : Position)
    (name : String) (body : List Stmt) (polls : Nat) :
    pollsLeft host polls context ⟨[.each pos name items body]⟩ =
      Exec.pollsLeft polls context (Exec.forEach name (Stmt.execBlock host body) values) := by
  cases polls with
  | zero => rfl
  | succ patience => simp only [pollsLeft, Exec.pollsLeft, execBlock_each h]

end Script

/-- A loop evaluates its items and then, without a change to the scope, takes its turns one after
the other, each in the scope in front of the loop. A run of a loop through two lists put together
is that of a loop through the first one and, if that ends, behind it that of a loop through the
second one, for any iterables that give the lists in the scope in front of the loop. -/
theorem loop_turns_independent (host : Host σ) (name : String) (body : List Stmt) :
    (∀ pos items, (Stmt.each pos name items body).exec host =
      items.evaluate host >>= fun value =>
        match value with
        | .list values => Exec.reading fun scope => values.forM (Stmt.turn host name body scope)
        | other => throw (.failed ((Cause.iterable other.type).located items.position))) ∧
    ∀ polls (context : Context σ) pos pos₁ pos₂ items items₁ items₂ front back,
      items.eval host context.scope = pure (.list (front ++ back)) →
      items₁.eval host context.scope = pure (.list front) →
      items₂.eval host context.scope = pure (.list back) →
      let first := Script.execute host polls context ⟨[.each pos₁ name items₁ body]⟩
      let left := Script.pollsLeft host polls context ⟨[.each pos₁ name items₁ body]⟩
      Script.execute host polls context ⟨[.each pos name items body]⟩ =
        first.andThen fun _ after =>
          Script.execute host left after ⟨[.each pos₂ name items₂ body]⟩ := by
  constructor
  · intro pos items
    refine bind_congr fun value => ?_
    cases value with
    | list values => exact Exec.forEach_eq_turns host name body values
    | null | bool | number | string | object => rfl
  · intro polls context pos pos₁ pos₂ items items₁ items₂ front back hitems hfront hback first left
    have hloop (values : List Value) (past : List Event) :
        Ignores (Machine.withPast past) (Exec.forEach name (Stmt.execBlock host body) values) :=
      (Stmt.ignores_execBlock host body).forEach name values
    have hscope : first.context.scope = context.scope := by
      have hbody := (Stmt.respects_execBlock host body).mono fun _ _ h => h.outer
      rw [show first = _ from Script.execute_each hfront pos₁ name body polls]
      exact ((Exec.respects_forEach hbody front).within (fun _ => rfl) polls context).symm
    calc Script.execute host polls context ⟨[.each pos name items body]⟩
        = Exec.within polls context (do
            Exec.forEach name (Stmt.execBlock host body) front
            Exec.forEach name (Stmt.execBlock host body) back) := by
          rw [Script.execute_each hitems, Exec.forEach_append]
      _ = first.andThen fun _ after =>
            Exec.within left after (Exec.forEach name (Stmt.execBlock host body) back) := by
          rw [Exec.within_bind fun past _ => hloop back past]
          simp only [first, left, Script.execute_each hfront, Script.pollsLeft_each hfront]
      _ = _ := Ending.andThen_congr fun _ => (Script.execute_each (hscope ▸ hback) ..).symm

/-- A loop through a variable. The first turn binds a new name and the loop variable anew, and the
second turn sees neither: it fails because the new name is missing. -/
theorem loop_turns_independent_fresh :
    let host : Host Unit := ⟨fun _ => none, fun _ => 0⟩
    let context : Context Unit := ⟨.ofFrame [("l", .list [.bool true, .bool false])], (), 0⟩
    let body : List Stmt := [.expr .start (.apply .start "PRINT" [.ref .start "x"]),
      .branch .start (.ref .start "x")
        [.bind .start "y" (.literal .start .null), .bind .start "x" (.ref .start "y")]
        (some [.expr .start (.ref .start "y")])]
    let loop : Expr → Stmt := fun items => .each .start "x" items body
    let first := Script.execute host 1 context ⟨[loop (.literal .start (.list [.bool true]))]⟩
    let whole := Script.execute host 1 context ⟨[loop (.ref .start "l")]⟩
    whole = first.andThen (fun _ after =>
        Script.execute host 1 after ⟨[loop (.literal .start (.list [.bool false]))]⟩) ∧
      first.outcome = .done () ∧ Event.printedTexts whole.events = ["true", "false"] ∧
      whole.outcome = .failed ((Cause.undefinedVariable "y").located .start) ∧
      whole.context = context := by
  intro host context body loop first whole
  have happend := (loop_turns_independent host "x" body).2 1 context .start .start .start
    (.ref .start "l") (.literal .start (.list [.bool true]))
    (.literal .start (.list [.bool false])) [.bool true] [.bool false] rfl rfl rfl
  exact ⟨happend, rfl, rfl, rfl, rfl⟩

end ToolScript
