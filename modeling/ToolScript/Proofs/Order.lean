import Mathlib.Data.List.Forall2
import ToolScript.Proofs.Raising

/-!
# Everything once and from left to right

The nodes of an expression that call a tool or print are its acts. An evaluation performs them
in the order of the tree, each once: all of them if it ends with a value, and otherwise those up
to some point. Both sides of `AND` and `OR` count. A call of a tool that does not exist is
refused before anything inside it is performed.
-/

namespace ToolScript

variable {σ α β : Type}

namespace Expr

/-- The tool that a node calls. -/
def calledTool? : Expr → Option String
  | .tool _ name _ => some name
  | _ => none

/-- Whether a node prints. -/
def isPrint : Expr → Bool
  | .apply _ name _ => name = Builtin.print.name
  | _ => false

/-- Whether a node calls a tool or prints. -/
def isAct (e : Expr) : Bool :=
  e.calledTool?.isSome || e.isPrint

/-- The nodes that call a tool or print, from left to right, each behind those inside it. -/
def acts (e : Expr) : List Expr :=
  e.nodes.filter isAct

/-- The acts of the expressions one after the other. -/
def actsItems (items : List Expr) : List Expr :=
  (nodesItems items).filter isAct

/-- The acts of the named expressions one after the other. -/
def actsEntries (entries : List (String × Expr)) : List Expr :=
  (nodesEntries entries).filter isAct

section Lists

variable (pos : Position)

theorem acts_binary (op : BinaryOp) (a b : Expr) :
    (binary pos op a b).acts = a.acts ++ b.acts := by
  simp [acts, nodes, isAct, calledTool?, isPrint]

theorem acts_unary (op : UnaryOp) (a : Expr) : (unary pos op a).acts = a.acts := by
  simp [acts, nodes, isAct, calledTool?, isPrint]

theorem acts_apply (name : String) (args : List Expr) :
    (apply pos name args).acts =
      actsItems args ++ if name = Builtin.print.name then [.apply pos name args] else [] := by
  by_cases hname : name = Builtin.print.name
  · simp [acts, actsItems, nodes, isAct, calledTool?, isPrint, hname]
  · simp [acts, actsItems, nodes, isAct, calledTool?, isPrint, hname]

theorem acts_tool (name : String) (args : List (String × Expr)) :
    (tool pos name args).acts = actsEntries args ++ [.tool pos name args] := by
  simp [acts, actsEntries, nodes, isAct, calledTool?]

theorem acts_list (items : List Expr) : (list pos items).acts = actsItems items := by
  simp [acts, actsItems, nodes, isAct, calledTool?, isPrint]

theorem acts_object (entries : List (String × Expr)) :
    (object pos entries).acts = actsEntries entries := by
  simp [acts, actsEntries, nodes, isAct, calledTool?, isPrint]

theorem acts_index (a b : Expr) : (index pos a b).acts = a.acts ++ b.acts := by
  simp [acts, nodes, isAct, calledTool?, isPrint]

theorem acts_member (a : Expr) (property : String) :
    (member pos a property).acts = a.acts := by
  simp [acts, nodes, isAct, calledTool?, isPrint]

theorem actsItems_cons (e : Expr) (rest : List Expr) :
    actsItems (e :: rest) = e.acts ++ actsItems rest := by
  simp [actsItems, nodesItems, acts]

theorem actsEntries_cons (entry : String × Expr) (rest : List (String × Expr)) :
    actsEntries (entry :: rest) = entry.2.acts ++ actsEntries rest := by
  simp [actsEntries, nodesEntries, acts]

end Lists

end Expr

/-- The event is the act of the node, with what the arguments of the node evaluate to. -/
inductive Performs (host : Host σ) (scope : Scope) : Expr → Event → Prop
  | call {pos : Position} {name : String} {args : List (String × Expr)}
      {before after : World σ} {values : Dict Value}
      (h : Expr.evalEntries host scope args before = (.ok values, after)) :
      Performs host scope (.tool pos name args) (.called name values)
  | print {pos : Position} {args : List Expr} {before after : World σ} {value : Value}
      (h : Expr.evalItems host scope args before = (.ok [value], after)) :
      Performs host scope (.apply pos Builtin.print.name args) (.printed value.text)

/-- What is left of a plan where a computation ends: nothing behind a result. If a tool was not
found, all acts of the call of it come first. -/
structure Left (todo : List Expr) (result : Except Halt α) : Prop where
  finished : ∀ a, result = .ok a → todo = []
  unfound : ∀ tool position, result = .error (.failed ⟨.toolNotFound tool, position⟩) →
    ∃ pos args later, position = some pos ∧ todo = (Expr.tool pos tool args).acts ++ later

/-- From every world the computation performs the acts of the plan in order, up to where it
ends, and nothing else. -/
def Follows (host : Host σ) (scope : Scope) (plan : List Expr) (x : Run σ α) : Prop :=
  ∀ world, ∃ done todo events, plan = done ++ todo ∧
    (x world).2.events = world.events ++ events ∧
    List.Forall₂ (Performs host scope) done events ∧ Left todo (x world).1

namespace Follows

variable {host : Host σ} {scope : Scope} {p q plan : List Expr}

theorem pure (a : α) : Follows host scope [] (Pure.pure a : Run σ α) :=
  fun world => ⟨[], [], [], rfl, (List.append_nil world.events).symm, .nil,
    ⟨fun _ _ => rfl, fun _ _ h => by cases h⟩⟩

/-- A failure leaves the whole plan. -/
theorem stops {failure : Failure} (h : Left plan (.error (.failed failure) : Except Halt α)) :
    Follows host scope plan (Run.fail failure : Run σ α) :=
  fun world => ⟨[], plan, [], rfl, (List.append_nil world.events).symm, .nil, h⟩

theorem fails {failure : Failure} (h : ∀ tool, failure.cause ≠ .toolNotFound tool) :
    Follows host scope plan (Run.fail failure : Run σ α) := by
  refine .stops ⟨nofun, fun tool position heq => ?_⟩
  cases heq
  exact absurd rfl (h tool)

theorem ofExcept {pos : Position} {result : Except Cause α}
    (h : ∀ cause, result = .error cause → ∀ tool, cause ≠ .toolNotFound tool) :
    Follows host scope [] (Run.ofExcept pos result : Run σ α) := by
  cases result with
  | ok a => exact .pure a
  | error cause => exact .fails (h cause rfl)

theorem bind {x : Run σ α} {f : α → Run σ β} (hx : Follows host scope p x)
    (hf : ∀ before a after, x before = (.ok a, after) → Follows host scope q (f a)) :
    Follows host scope (p ++ q) (x >>= f) := by
  intro world
  obtain ⟨done, todo, events, rfl, hevents, hdone, hleft⟩ := hx world
  rw [Halting.bind_apply]
  cases hfirst : x world with
  | mk result after =>
      rw [hfirst] at hevents hleft
      cases result with
      | error halt =>
          refine ⟨done, todo ++ q, events, List.append_assoc _ _ _, hevents, hdone, ?_, ?_⟩
          · intro b heq
            cases heq
          · intro tool position heq
            cases heq
            obtain ⟨pos, args, later, hposition, rfl⟩ := hleft.unfound tool position rfl
            exact ⟨pos, args, later ++ q, hposition, List.append_assoc _ _ _⟩
      | ok a =>
          obtain rfl := hleft.finished a rfl
          obtain ⟨done', todo', events', rfl, hevents', hdone', hleft'⟩ :=
            hf world a after hfirst after
          refine ⟨done ++ done', todo', events ++ events', by simp, ?_,
            List.rel_append hdone hdone', hleft'⟩
          rw [hevents', hevents, List.append_assoc]

theorem bind_idle {x : Run σ α} {f : α → Run σ β} (hx : Follows host scope p x)
    (hf : ∀ a, Follows host scope [] (f a)) : Follows host scope p (x >>= f) := by
  have h := hx.bind fun _ a _ _ => hf a
  rwa [List.append_nil] at h

end Follows

section Calls

variable {host : Host σ} {scope : Scope} {pos : Position}

theorem Follows.invoke {name : String} {args : List (String × Expr)} {before after : World σ}
    {values : Arguments} (h : Expr.evalEntries host scope args before = (.ok values, after))
    (tool : Tool σ) :
    Follows host scope [.tool pos name args] (Run.invoke pos name tool values) := by
  cases hmisfit : tool.misfit? values with
  | some misfit =>
      unfold Run.invoke
      rw [hmisfit]
      exact .fails fun _ heq => by cases heq
  | none =>
      intro world
      have hevents : (Run.invoke pos name tool values world).2.events =
          world.events ++ [.called name values] := by
        rw [Run.invoke_apply hmisfit]
        split
        · rfl
        · split
          · rfl
          · rfl
      refine ⟨[.tool pos name args], [], [.called name values], rfl, hevents,
        .cons (.call h) .nil, fun _ _ => rfl, fun missing position heq => ?_⟩
      obtain ⟨refusal, -, hfailure⟩ := Run.invoke_eq_error (Prod.ext heq rfl)
      cases refusal with
      | rejected message => cases hfailure
      | failed message => cases hfailure

/-- Giving a failure a place changes nothing about what was performed. -/
theorem Follows.withPosition {plan : List Expr} {run : Run σ α} (h : Follows host scope plan run) :
    Follows host scope plan (Run.withPosition pos run) := by
  intro world
  obtain ⟨done, todo, events, hplan, hevents, hdone, hleft⟩ := h world
  rw [Run.withPosition_apply]
  generalize run world = out at hevents hleft
  rcases out with ⟨(⟨cause, place⟩ | _) | a, after⟩
  · refine ⟨done, todo, events, hplan, hevents, hdone, fun _ heq => ?_, fun tool position heq => ?_⟩
    · cases heq
    · cases heq
      obtain ⟨pos', args, later, rfl, htodo⟩ := hleft.unfound tool place rfl
      exact ⟨pos', args, later, rfl, htodo⟩
  · exact ⟨done, todo, events, hplan, hevents, hdone, hleft⟩
  · exact ⟨done, todo, events, hplan, hevents, hdone, hleft⟩

theorem Follows.builtinOfExcept {builtin : Builtin} {result : Except Cause Value}
    (h : ∀ cause, result = .error cause → builtin.Refuses cause) :
    Follows host scope [] (Builtin.ofExcept result : Run σ Value) := by
  cases result with
  | ok value => exact .pure value
  | error cause =>
      refine .fails fun tool heq => ?_
      rcases h cause rfl with ⟨message, rfl⟩ | ⟨-, message, rfl⟩
      · cases heq
      · cases heq

theorem Follows.readClock : Follows host scope [] (Run.readClock host) :=
  fun world => ⟨[], [], [], rfl, (List.append_nil world.events).symm, .nil, fun _ _ => rfl,
    fun _ _ heq => by cases heq⟩

theorem Follows.print {args : List Expr} {before after : World σ} {values : List Value}
    (h : Expr.evalItems host scope args before = (.ok values, after)) :
    Follows host scope [.apply pos Builtin.print.name args] (Builtin.print.call host values) := by
  unfold Builtin.call
  split
  · next heq => cases heq
  · next heq => cases heq
  · next value _ =>
      intro world
      exact ⟨[.apply pos Builtin.print.name args], [], [.printed value.text], rfl, rfl,
        .cons (.print h) .nil, fun _ _ => rfl, fun _ _ heq => by cases heq⟩
  · exact .fails fun _ heq => by cases heq

theorem Follows.builtin {builtin : Builtin} (h : builtin ≠ .print) (values : List Value) :
    Follows host scope [] (builtin.call host values) := by
  unfold Builtin.call
  split
  · exact Follows.readClock.bind_idle fun _ => .builtinOfExcept fun _ => Builtin.refuses_time
  · exact .builtinOfExcept fun _ => Builtin.refuses_formatted
  · exact absurd rfl h
  · exact .fails fun _ heq => by cases heq

/-- A call of a function performs one act if it is `PRINT`, and none otherwise. -/
theorem Follows.callNamed {name : String} {args : List Expr} {before after : World σ}
    {values : List Value}
    (h : Expr.evalItems host scope args before = (.ok values, after)) :
    Follows host scope (if name = Builtin.print.name then [.apply pos name args] else [])
      (Run.callNamed host pos name values) := by
  unfold Run.callNamed
  cases hfound : Builtin.ofName? name with
  | none => exact .fails fun _ heq => by cases heq
  | some found =>
      obtain rfl : found.name = name := by simpa using List.find?_some hfound
      by_cases hprint : found = .print
      · subst hprint
        rw [if_pos rfl]
        exact (Follows.print h).withPosition
      · have hname : found.name ≠ Builtin.print.name := by
          cases found with
          | now | format => decide
          | print => exact absurd rfl hprint
        rw [if_neg hname]
        exact (Follows.builtin hprint values).withPosition

end Calls

namespace Expr

variable (host : Host σ) (scope : Scope)

mutual

theorem follows_eval (e : Expr) : Follows host scope e.acts (e.eval host scope) := by
  cases e with
  | literal pos value => exact .pure value
  | ref pos name =>
      simp only [eval]
      split
      · exact .pure _
      · exact .fails fun _ heq => by cases heq
  | binary pos op a b =>
      rw [acts_binary]
      refine (follows_eval a).bind fun _ _ _ _ => (follows_eval b).bind_idle fun _ => ?_
      refine .ofExcept fun cause hcause tool heq => ?_
      rcases BinaryOp.apply_eq_error hcause with ⟨message, rfl⟩ | ⟨rfl, -⟩
      · cases heq
      · cases heq
  | unary pos op a =>
      rw [acts_unary]
      refine (follows_eval a).bind_idle fun _ => .ofExcept fun cause hcause tool heq => ?_
      obtain ⟨message, rfl⟩ := UnaryOp.apply_eq_error hcause
      cases heq
  | apply pos name args =>
      rw [acts_apply]
      exact (follows_evalItems args).bind fun _ _ _ hvalues => .callNamed hvalues
  | tool pos name args =>
      simp only [eval]
      split
      · refine .stops ⟨nofun, fun missing position heq => ?_⟩
        cases heq
        exact ⟨pos, args, [], rfl, (List.append_nil _).symm⟩
      · next tool htool =>
          rw [acts_tool]
          exact (follows_evalEntries args).bind fun _ _ _ hvalues => .invoke hvalues tool
  | list pos items =>
      rw [acts_list]
      exact (follows_evalItems items).bind_idle fun _ => .pure _
  | object pos entries =>
      rw [acts_object]
      exact (follows_evalEntries entries).bind_idle fun _ => .pure _
  | index pos a b =>
      rw [acts_index]
      refine (follows_eval a).bind fun _ subject _ _ => ?_
      cases subject with
      | list items =>
          refine (follows_eval b).bind_idle fun _ => .ofExcept fun cause hcause tool heq => ?_
          rcases itemAt_eq_error hcause with ⟨message, rfl⟩ | ⟨index, length, rfl⟩
          · cases heq
          · cases heq
      | null | bool | number | string | object => exact .fails fun _ heq => by cases heq
  | member pos a property =>
      rw [acts_member]
      refine (follows_eval a).bind_idle fun subject => ?_
      cases subject with
      | object entries =>
          refine .ofExcept fun cause hcause tool heq => ?_
          obtain ⟨message, rfl⟩ := entryAt_eq_error hcause
          cases heq
      | null | bool | number | string | list => exact .fails fun _ heq => by cases heq

theorem follows_evalItems (items : List Expr) :
    Follows host scope (actsItems items) (evalItems host scope items) := by
  cases items with
  | nil => exact .pure []
  | cons e rest =>
      rw [actsItems_cons]
      exact (follows_eval e).bind fun _ _ _ _ =>
        (follows_evalItems rest).bind_idle fun _ => .pure _

theorem follows_evalEntries (entries : List (String × Expr)) :
    Follows host scope (actsEntries entries) (evalEntries host scope entries) := by
  cases entries with
  | nil => exact .pure []
  | cons entry rest =>
      rw [actsEntries_cons]
      exact (follows_eval entry.2).bind fun _ _ _ _ =>
        (follows_evalEntries rest).bind_idle fun _ => .pure _

end

theorem filterMap_acts (e : Expr) :
    e.acts.filterMap calledTool? = e.nodes.filterMap calledTool? := by
  rw [acts, List.filterMap_filter]
  congr 1
  funext node
  cases node <;> simp [isAct, calledTool?]

theorem filter_acts (e : Expr) : e.acts.filter isPrint = e.nodes.filter isPrint := by
  rw [acts, List.filter_filter]
  congr 1
  funext node
  cases node <;> simp [isAct, isPrint]
  exact .inr

end Expr

section Performed

variable {host : Host σ} {scope : Scope} {nodes : List Expr} {events : List Event}

theorem toolCalls_performed (h : List.Forall₂ (Performs host scope) nodes events) :
    (Event.toolCalls events).map Prod.fst = nodes.filterMap Expr.calledTool? := by
  induction h with
  | nil => rfl
  | cons hact _ ih =>
      cases hact with
      | call => exact congrArg (List.cons _) ih
      | print => exact ih

theorem printedTexts_performed (h : List.Forall₂ (Performs host scope) nodes events) :
    List.Forall₂ (fun node text => Performs host scope node (.printed text))
      (nodes.filter Expr.isPrint) (Event.printedTexts events) := by
  induction h with
  | nil => exact .nil
  | cons hact _ ih =>
      cases hact with
      | call => exact ih
      | print hvalue => exact .cons (.print hvalue) ih

end Performed

theorem Exec.outcome_eq_done {result : Except Halt α} {a : α} (h : outcome result = .done a) :
    result = .ok a := by
  rcases result with (failure | _) | b <;> cases h
  rfl

theorem Exec.outcome_eq_failed {result : Except Halt α} {failure : Failure}
    (h : outcome result = .failed failure) : result = .error (.failed failure) := by
  rcases result with (found | _) | b <;> cases h
  rfl

/-- A run with any number of polls follows the acts of the expression. Without polls it is cut
off before the first one. -/
theorem Expr.follows_run (host : Host σ) (polls : Nat) (context : Context σ) (e : Expr) :
    ∃ done todo result, e.acts = done ++ todo ∧
      List.Forall₂ (Performs host context.scope) done (e.run host polls context).events ∧
      (e.run host polls context).outcome = Exec.outcome result ∧ Left todo result := by
  cases polls with
  | zero =>
      exact ⟨[], e.acts, .error .cancelled, rfl, .nil, rfl, ⟨nofun, nofun⟩⟩
  | succ patience =>
      obtain ⟨done, todo, events, hacts, hevents, hdone, hleft⟩ :=
        e.follows_eval host context.scope (context.machine patience).world
      obtain rfl : _ = events := hevents
      exact ⟨done, todo, _, hacts, hdone, rfl, hleft⟩

/-- The calls of tools and the printed texts of a run are the acts of the expression up to some
point, in order and each once. Behind a value nothing is left of them. If a tool was not found,
the acts inside the call of it are among those that are left. -/
theorem evaluation_in_order (host : Host σ) (polls : Nat) (context : Context σ) (e : Expr) :
    let ending := e.run host polls context
    let called := (Event.toolCalls ending.events).map Prod.fst
    let Prints := fun node text => Performs host context.scope node (.printed text)
    ∃ done todo, e.acts = done ++ todo ∧
      List.Forall₂ (Performs host context.scope) done ending.events ∧
      called <+: e.nodes.filterMap Expr.calledTool? ∧
      (∃ printing, printing <+: e.nodes.filter Expr.isPrint ∧
        List.Forall₂ Prints printing (Event.printedTexts ending.events)) ∧
      (∀ value, ending.outcome = .done value →
        todo = [] ∧ called = e.nodes.filterMap Expr.calledTool? ∧
          List.Forall₂ Prints (e.nodes.filter Expr.isPrint)
            (Event.printedTexts ending.events)) ∧
      ∀ tool position, ending.outcome = .failed ⟨.toolNotFound tool, position⟩ →
        ∃ pos args later, position = some pos ∧
          todo = (Expr.tool pos tool args).acts ++ later := by
  intro ending called Prints
  obtain ⟨done, todo, result, hacts, hdone, houtcome, hleft⟩ := e.follows_run host polls context
  have hcalled : called = done.filterMap Expr.calledTool? := toolCalls_performed hdone
  have hprinted : List.Forall₂ Prints (done.filter Expr.isPrint)
      (Event.printedTexts ending.events) := printedTexts_performed hdone
  have htools : e.nodes.filterMap Expr.calledTool? =
      done.filterMap Expr.calledTool? ++ todo.filterMap Expr.calledTool? := by
    rw [← e.filterMap_acts, hacts, List.filterMap_append]
  have hprints : e.nodes.filter Expr.isPrint =
      done.filter Expr.isPrint ++ todo.filter Expr.isPrint := by
    rw [← e.filter_acts, hacts, List.filter_append]
  refine ⟨done, todo, hacts, hdone, ?_, ⟨_, ?_, hprinted⟩, fun value h => ?_,
    fun tool position h => ?_⟩
  · rw [hcalled, htools]
    exact List.prefix_append _ _
  · rw [hprints]
    exact List.prefix_append _ _
  · obtain rfl := hleft.finished value (Exec.outcome_eq_done (houtcome.symm.trans h))
    refine ⟨rfl, ?_, ?_⟩
    · rw [hcalled, htools, List.filterMap_nil, List.append_nil]
    · rw [hprints, List.filter_nil, List.append_nil]
      exact hprinted
  · exact hleft.unfound tool position (Exec.outcome_eq_failed (houtcome.symm.trans h))

/-- Both sides of `AND` are evaluated, and a missing tool is found out before its argument is. -/
theorem evaluation_in_order_missing :
    let host : Host Unit :=
      ⟨fun name => if name = "ask" then
        some ⟨none, fun _ memory => (⟨some 0, .ok (.bool true)⟩, memory)⟩ else none, fun _ => 0⟩
    let print (pos : Position) (text : String) : Expr :=
      .apply pos "PRINT" [.literal pos (.string text)]
    let both : Expr :=
      .binary ⟨1, 8⟩ .and (.literal ⟨1, 2⟩ (.bool false)) (.tool ⟨1, 12⟩ "ask" [])
    let whole : Expr := .list ⟨1, 1⟩ [both, print ⟨1, 22⟩ "early"]
    let broken : Expr :=
      .index ⟨2, 1⟩ whole (.tool ⟨2, 40⟩ "find" [("key", print ⟨2, 57⟩ "late")])
    let start : Context Unit := ⟨.empty, (), 0⟩
    (Event.toolCalls (whole.run host 1 start).events).map Prod.fst =
        whole.nodes.filterMap Expr.calledTool? ∧
      (broken.run host 1 start).events = [.called "ask" [], .printed "early"] ∧
      ∃ done todo, broken.acts = done ++ todo ∧
        List.Forall₂ (Performs host .empty) done (broken.run host 1 start).events ∧
        ∃ args later, todo = (Expr.tool ⟨2, 40⟩ "find" args).acts ++ later := by
  intro host print both whole broken start
  have hwhole : (whole.run host 1 start).outcome = .done (.list [.bool false, .null]) := rfl
  have hbroken : (broken.run host 1 start).outcome =
      .failed ⟨.toolNotFound "find", some ⟨2, 40⟩⟩ := rfl
  obtain ⟨_, _, -, -, -, -, hall, -⟩ := evaluation_in_order host 1 start whole
  obtain ⟨done, todo, hacts, hdone, -, -, -, hunfound⟩ :=
    evaluation_in_order host 1 start broken
  obtain ⟨pos, args, later, hpos, htodo⟩ := hunfound "find" _ hbroken
  cases hpos
  exact ⟨(hall _ hwhole).2.1, rfl, done, todo, hacts, hdone, args, later, htodo⟩

end ToolScript
