import ToolScript.Proofs.Attempts
import ToolScript.Proofs.Locating.Failing
import ToolScript.Proofs.Nodes

/-!
# Failures name the node that raised them

Each form of node can raise causes of its own, and a failure of a run is one that a node of the
script raises, at the place of that node. An invalid condition and an invalid list of a loop
are raised by the statement, at the place of the expression. A failure of a tool is raised by a
call of that tool: either there is no such tool, or the call is the last one that the run
attempted and the tool gave that answer to it.
-/

namespace ToolScript

variable {σ S α β : Type}

/-- What the tool answers to arguments with the given memory, and the memory that it keeps.
Arguments that do not fit the schema are turned away unseen. -/
def Tool.answer (tool : Tool σ) (args : Arguments) (memory : σ) : Except Refusal Value × σ :=
  match tool.misfit? args with
  | some misfit => (.error (.rejected misfit.message), memory)
  | none => ((tool.run args memory).1.result, (tool.run args memory).2)

/-- The calls that a computation attempts, with the memory of the tools before and after. -/
structure Calls (σ : Type) where
  before : σ
  attempts : List Attempt
  after : σ

/-- The tool under the name gave the refusal to the last of the calls. That call was made at the
given place, with what the arguments evaluate to, and in the memory that the calls in front of it
had left. -/
def Host.Refused (host : Host σ) (calls : Calls σ) (pos : Position) (name : String)
    (args : List (String × Expr)) (refusal : Refusal) : Prop :=
  ∃ front tool values scope start given,
    calls.attempts = front ++ [⟨pos, name, values⟩] ∧ host.tool? name = some tool ∧
    Expr.evalEntries host scope args start = (.ok values, given) ∧
    given.memory = (front.map Attempt.call).foldl host.remember calls.before ∧
    tool.answer values given.memory = (.error refusal, calls.after)

/-- What the forms of nodes raise in a run that attempts the given calls. -/
inductive Expr.Raises (host : Host σ) (calls : Calls σ) : Expr → Cause → Prop
  | ref {pos : Position} {name : String} :
      Raises host calls (.ref pos name) (.undefinedVariable name)
  | operands {pos : Position} {op : BinaryOp} {left right : Expr} {message : String} :
      Raises host calls (.binary pos op left right) (.type message)
  | divisor {pos : Position} {op : BinaryOp} {left right : Expr} (h : op = .div ∨ op = .mod) :
      Raises host calls (.binary pos op left right) .divisionByZero
  | operand {pos : Position} {op : UnaryOp} {operand : Expr} {message : String} :
      Raises host calls (.unary pos op operand) (.type message)
  | function {pos : Position} {name : String} {args : List Expr} {message : String} :
      Raises host calls (.apply pos name args) (.runtime message)
  | format {pos : Position} {args : List Expr} {message : String} :
      Raises host calls (.apply pos Builtin.format.name args) (.type message)
  | index {pos : Position} {subject place : Expr} {message : String} :
      Raises host calls (.index pos subject place) (.type message)
  | bounds {pos : Position} {subject place : Expr} {index : Int} {length : Nat} :
      Raises host calls (.index pos subject place) (.indexOutOfBounds index length)
  | member {pos : Position} {subject : Expr} {property message : String} :
      Raises host calls (.member pos subject property) (.memberAccess message)
  | toolNotFound {pos : Position} {name : String} {args : List (String × Expr)}
      (h : host.tool? name = none) : Raises host calls (.tool pos name args) (.toolNotFound name)
  | toolArgument {pos : Position} {name message : String} {args : List (String × Expr)}
      (h : host.Refused calls pos name args (.rejected message)) :
      Raises host calls (.tool pos name args) (.toolArgument name message)
  | toolExecution {pos : Position} {name message : String} {args : List (String × Expr)}
      (h : host.Refused calls pos name args (.failed message)) :
      Raises host calls (.tool pos name args) (.toolExecution name message)

/-- What the forms of statements raise themselves, and where. -/
inductive Stmt.Raises (host : Host σ) (calls : Calls σ) : Stmt → Failure → Prop
  | condition {pos : Position} {e : Expr} {yes : List Stmt} {no : Option (List Stmt)}
      {found : ValueType} :
      Raises host calls (.branch pos e yes no) ((Cause.condition found).located e.position)
  | iterable {pos : Position} {name : String} {e : Expr} {body : List Stmt} {found : ValueType} :
      Raises host calls (.each pos name e body) ((Cause.iterable found).located e.position)
  | call {pos : Position} {tool : String} {args : List (String × Expr)} {cause : Cause}
      (h : (Expr.tool pos tool args).Raises host calls cause) :
      Raises host calls (.call pos tool args) (cause.located pos)

theorem BinaryOp.onBools_eq_error {op : BinaryOp} {f : Bool → Bool → Bool} {a b : Value}
    {cause : Cause} (h : op.onBools f a b = .error cause) : ∃ message, cause = .type message := by
  unfold BinaryOp.onBools at h
  split at h
  · cases h
  · cases h
    exact ⟨_, rfl⟩

theorem BinaryOp.onNumbers_eq_error {op : BinaryOp} {f : Float → Float → Except Cause Value}
    {a b : Value} {cause : Cause} (h : op.onNumbers f a b = .error cause) :
    (∃ message, cause = .type message) ∨ ∃ m n, f m n = .error cause := by
  unfold BinaryOp.onNumbers at h
  split at h
  · next m n => exact .inr ⟨m, n, h⟩
  · cases h
    exact .inl ⟨_, rfl⟩

theorem divided_eq_error {f : Float → Float → Float} {a b : Float} {cause : Cause}
    (h : divided f a b = .error cause) : cause = .divisionByZero := by
  unfold divided at h
  split at h
  · cases h
    rfl
  · cases h

theorem BinaryOp.apply_eq_error {op : BinaryOp} {a b : Value} {cause : Cause}
    (h : op.apply a b = .error cause) :
    (∃ message, cause = .type message) ∨ cause = .divisionByZero ∧ (op = .div ∨ op = .mod) := by
  cases op with
  | equal | notEqual => cases h
  | and | or => exact .inl (onBools_eq_error h)
  | less | lessEqual | greater | greaterEqual | add | sub | mul =>
      rcases onNumbers_eq_error h with htype | ⟨m, n, hvalue⟩
      · exact .inl htype
      · cases hvalue
  | div =>
      rcases onNumbers_eq_error h with htype | ⟨m, n, hvalue⟩
      · exact .inl htype
      · exact .inr ⟨divided_eq_error hvalue, .inl rfl⟩
  | mod =>
      rcases onNumbers_eq_error h with htype | ⟨m, n, hvalue⟩
      · exact .inl htype
      · exact .inr ⟨divided_eq_error hvalue, .inr rfl⟩

theorem UnaryOp.apply_eq_error {op : UnaryOp} {a : Value} {cause : Cause}
    (h : op.apply a = .error cause) : ∃ message, cause = .type message := by
  unfold UnaryOp.apply at h
  split at h
  all_goals cases h
  unfold UnaryOp.operandCause
  split
  · exact ⟨_, rfl⟩
  · exact ⟨_, rfl⟩

theorem itemAt_eq_error {items : List Value} {place : Value} {cause : Cause}
    (h : itemAt items place = .error cause) :
    (∃ message, cause = .type message) ∨
      ∃ index length, cause = .indexOutOfBounds index length := by
  unfold itemAt at h
  split at h
  · cases h
    exact .inl ⟨_, rfl⟩
  · repeat' split at h
    all_goals cases h
    all_goals exact .inr ⟨_, _, rfl⟩

theorem entryAt_eq_error {entries : Dict Value} {name : String} {cause : Cause}
    (h : entryAt entries name = .error cause) : ∃ message, cause = .memberAccess message := by
  unfold entryAt at h
  split at h
  · cases h
  · cases h
    exact ⟨_, rfl⟩

/-- Only `FORMAT` has failures of type, and all others of a built-in function are general. -/
def Builtin.Refuses (builtin : Builtin) (cause : Cause) : Prop :=
  (∃ message, cause = .runtime message) ∨ builtin = .format ∧ ∃ message, cause = .type message

theorem Builtin.refuses_time {reading : Int} {cause : Cause}
    (h : Builtin.time reading = .error cause) : Builtin.now.Refuses cause := by
  unfold Builtin.time at h
  split at h
  · cases h
    exact .inl ⟨_, rfl⟩
  · cases h

theorem Builtin.refuses_formatted {template values : Value} {cause : Cause}
    (h : Builtin.formatted template values = .error cause) : Builtin.format.Refuses cause := by
  unfold Builtin.formatted at h
  split at h
  · split at h
    · cases h
    · cases h
      exact .inl ⟨_, rfl⟩
  · cases h
    exact .inr ⟨rfl, _, rfl⟩
  · cases h
    exact .inr ⟨rfl, _, rfl⟩

theorem Builtin.refuses_call (host : Host σ) (builtin : Builtin) (args : List Value) :
    FailsAs (fun failure => failure.position = none ∧ builtin.Refuses failure.cause)
      (builtin.call host args) := by
  have hof (builtin : Builtin) (result : Except Cause Value)
      (h : ∀ cause, result = .error cause → builtin.Refuses cause) :
      FailsAs (fun failure => failure.position = none ∧ builtin.Refuses failure.cause)
        (Builtin.ofExcept result : Run σ Value) := by
    cases result with
    | ok value => exact .pure value
    | error cause => exact .fails ⟨rfl, h cause rfl⟩
  unfold Builtin.call
  split
  · exact .bind (fun _ _ heq => by cases heq) fun _ => hof _ _ fun _ => refuses_time
  · exact hof _ _ fun _ => refuses_formatted
  · exact .bind (fun _ _ heq => by cases heq) fun _ => .pure _
  · exact .fails ⟨rfl, .inl ⟨_, rfl⟩⟩

/-- A call of a function fails at the place of the call. -/
theorem Run.callNamed_fails (host : Host σ) (pos : Position) (name : String)
    (args : List Value) :
    FailsAs (fun failure => failure.position = some pos ∧
        ((∃ message, failure.cause = .runtime message) ∨
          name = Builtin.format.name ∧ ∃ message, failure.cause = .type message))
      (Run.callNamed host pos name args) := by
  unfold Run.callNamed
  split
  · next builtin hbuiltin =>
      have hname : builtin.name = name := by simpa using List.find?_some hbuiltin
      intro world failure heq
      rw [Run.withPosition_apply] at heq
      have hcall := builtin.refuses_call host args world
      generalize builtin.call host args world = out at heq hcall
      rcases out with ⟨(found | _) | value, after⟩
      · cases heq
        obtain ⟨hopen, hcause⟩ := hcall found rfl
        refine ⟨by simp only [Failure.orPosition, hopen, Option.getD_none], ?_⟩
        rcases hcause with hruntime | ⟨rfl, htype⟩
        · exact .inl hruntime
        · exact .inr ⟨hname.symm, htype⟩
      · cases heq
      · cases heq
  · exact .fails ⟨rfl, .inl ⟨_, rfl⟩⟩

/-- A call of a tool fails as the tool answers. -/
theorem Run.invoke_eq_error {pos : Position} {name : String} {tool : Tool σ} {args : Arguments}
    {world after : World σ} {failure : Failure}
    (h : Run.invoke pos name tool args world = (.error (.failed failure), after)) :
    ∃ refusal, tool.answer args world.memory = (.error refusal, after.memory) ∧
      failure = Cause.located (match refusal with
        | .rejected message => .toolArgument name message
        | .failed message => .toolExecution name message) pos := by
  cases hmisfit : tool.misfit? args with
  | some misfit =>
      rw [invoke_misfit hmisfit] at h
      cases h
      exact ⟨.rejected misfit.message, by rw [Tool.answer, hmisfit], rfl⟩
  | none =>
      rw [invoke_apply hmisfit] at h
      have hanswer : tool.answer args world.memory =
          ((tool.run args world.memory).1.result, (tool.run args world.memory).2) := by
        rw [Tool.answer, hmisfit]
      rw [hanswer]
      generalize (tool.run args world.memory).1 = reply at h ⊢
      obtain ⟨turns, result⟩ := reply
      cases turns with
      | none => cases h
      | some n =>
          dsimp only at h
          split at h
          · rcases result with (message | message) | value
            · cases h
              exact ⟨.rejected message, rfl, rfl⟩
            · cases h
              exact ⟨.failed message, rfl, rfl⟩
            · cases h
          · cases h

section Behind

variable {host : Host σ} {front attempts : List Attempt} {before after : σ}

/-- A call that was refused behind others is the last one of all of them. -/
theorem Host.Refused.behind {pos : Position} {name : String} {args : List (String × Expr)}
    {refusal : Refusal}
    (h : host.Refused ⟨(front.map Attempt.call).foldl host.remember before, attempts, after⟩
      pos name args refusal) :
    host.Refused ⟨before, front ++ attempts, after⟩ pos name args refusal := by
  obtain ⟨inner, tool, values, scope, start, given, hlast, htool, hvalues, hmemory, hanswer⟩ := h
  refine ⟨front ++ inner, tool, values, scope, start, given, ?_, htool, hvalues, ?_, hanswer⟩
  · rw [List.append_assoc]
    exact congrArg (front ++ ·) hlast
  · rw [List.map_append, List.foldl_append]
    exact hmemory

theorem Expr.Raises.behind {e : Expr} {cause : Cause}
    (h : e.Raises host ⟨(front.map Attempt.call).foldl host.remember before, attempts, after⟩
      cause) : e.Raises host ⟨before, front ++ attempts, after⟩ cause := by
  cases h with
  | ref => exact .ref
  | operands => exact .operands
  | divisor h => exact .divisor h
  | operand => exact .operand
  | function => exact .function
  | format => exact .format
  | index => exact .index
  | bounds => exact .bounds
  | member => exact .member
  | toolNotFound h => exact .toolNotFound h
  | toolArgument h => exact .toolArgument h.behind
  | toolExecution h => exact .toolExecution h.behind

theorem Stmt.Raises.behind {stmt : Stmt} {failure : Failure}
    (h : stmt.Raises host ⟨(front.map Attempt.call).foldl host.remember before, attempts, after⟩
      failure) : stmt.Raises host ⟨before, front ++ attempts, after⟩ failure := by
  cases h with
  | condition => exact .condition
  | iterable => exact .iterable
  | call h => exact .call h.behind

end Behind

/-- The failure is one that a node of the first list raises, and at the place of that node, or
one that a statement of the second raises. -/
def RaisedAmong (host : Host σ) (nodes : List Expr) (stmts : List Stmt) (calls : Calls σ)
    (failure : Failure) : Prop :=
  (∃ e ∈ nodes, failure.position = some e.position ∧ e.Raises host calls failure.cause) ∨
    ∃ stmt ∈ stmts, stmt.Raises host calls failure

theorem RaisedAmong.behind {host : Host σ} {nodes : List Expr} {stmts : List Stmt}
    {front attempts : List Attempt} {before after : σ} {failure : Failure}
    (h : RaisedAmong host nodes stmts
      ⟨(front.map Attempt.call).foldl host.remember before, attempts, after⟩ failure) :
    RaisedAmong host nodes stmts ⟨before, front ++ attempts, after⟩ failure := by
  rcases h with ⟨e, he, hposition, hraises⟩ | ⟨stmt, hstmt, hraises⟩
  · exact .inl ⟨e, he, hposition, hraises.behind⟩
  · exact .inr ⟨stmt, hstmt, hraises.behind⟩

/-- Whenever the computation fails, the failure is raised among the nodes and statements by the
calls listed for it. -/
def FailsAmong (host : Host σ) (nodes : List Expr) (stmts : List Stmt) (view : S → World σ)
    (list : S → List Attempt) (x : Halting S α) : Prop :=
  ∀ s failure t, x s = (.error (.failed failure), t) →
    RaisedAmong host nodes stmts ⟨(view s).memory, list s, (view t).memory⟩ failure

namespace FailsAmong

variable {host : Host σ} {nodes : List Expr} {stmts : List Stmt} {view : S → World σ}
  {list : S → List Attempt}

theorem of_failsAs {P : Failure → Prop} {x : Halting S α} (h : FailsAs P x)
    (hP : ∀ calls failure, P failure → RaisedAmong host nodes stmts calls failure) :
    FailsAmong host nodes stmts view list x :=
  fun s failure _ heq => hP _ failure (h s failure (by rw [heq]))

theorem pure (a : α) : FailsAmong host nodes stmts view list (Pure.pure a : Halting S α) :=
  fun _ _ _ h => by cases h

theorem fails {failure : Failure} (h : ∀ calls, RaisedAmong host nodes stmts calls failure) :
    FailsAmong host nodes stmts view list (throw (.failed failure) : Halting S α) :=
  fun _ _ _ heq => by
    cases heq
    exact h _

/-- In a sequence the calls of the second part come behind those of the first. -/
theorem bind {x : Halting S α} {f : α → Halting S β} {next : α → S → List Attempt}
    (hx : FailsAmong host nodes stmts view list x) (hcalls : Attempts host view x list)
    (hf : ∀ a, FailsAmong host nodes stmts view (next a) (f a)) :
    FailsAmong host nodes stmts view (fun s => list s ++ Halting.behind x next s) (x >>= f) := by
  intro s failure t h
  rw [Halting.bind_apply] at h
  cases hfirst : x s with
  | mk result u =>
      simp only [hfirst, Halting.behind] at h ⊢
      cases result with
      | error halt =>
          cases h
          rw [List.append_nil]
          exact hx s failure t hfirst
      | ok a =>
          have hsecond := hf a u failure t h
          rw [hcalls.remembered hfirst] at hsecond
          exact hsecond.behind

theorem bind_idle {x : Halting S α} {f : α → Halting S β}
    (hx : FailsAmong host nodes stmts view list x) (hcalls : Attempts host view x list)
    (hf : ∀ a, FailsAmong host nodes stmts view (fun _ => []) (f a)) :
    FailsAmong host nodes stmts view list (x >>= f) := by
  have h := hx.bind hcalls hf
  simpa only [Halting.behind_nil, List.append_nil] using h

end FailsAmong

section Expressions

variable {host : Host σ} {all : List Expr} {stmts : List Stmt} {e : Expr}
  {list : World σ → List Attempt}

theorem FailsAmong.located {cause : Cause} (he : e ∈ all)
    (h : ∀ calls, e.Raises host calls cause) :
    FailsAmong host all stmts id list (Run.fail (cause.located e.position) : Run σ α) :=
  .fails fun calls => .inl ⟨e, he, rfl, h calls⟩

theorem FailsAmong.ofExcept {result : Except Cause α} (he : e ∈ all)
    (h : ∀ cause, result = .error cause → ∀ calls, e.Raises host calls cause) :
    FailsAmong host all stmts id list (Run.ofExcept e.position result : Run σ α) := by
  cases result with
  | ok a => exact .pure a
  | error cause => exact .located he (h cause rfl)

theorem FailsAmong.callNamed {pos : Position} {name : String} {args : List Expr}
    (he : Expr.apply pos name args ∈ all) (values : List Value) :
    FailsAmong host all stmts id list (Run.callNamed host pos name values) := by
  refine .of_failsAs (Run.callNamed_fails host pos name values) fun calls failure h => ?_
  obtain ⟨hposition, hcause⟩ := h
  refine .inl ⟨_, he, hposition, ?_⟩
  rcases hcause with ⟨message, hcause⟩ | ⟨rfl, message, hcause⟩
  · rw [hcause]
    exact .function
  · rw [hcause]
    exact .format

/-- A tool answers to what the arguments evaluate to, with the memory that this leaves. -/
theorem FailsAmong.tool {pos : Position} {name : String} {args : List (String × Expr)}
    {tool : Tool σ} (he : Expr.tool pos name args ∈ all) (htool : host.tool? name = some tool)
    {scope : Scope} (hargs : FailsAmong host all stmts id (Expr.attemptsEntries host scope args)
      (Expr.evalEntries host scope args)) :
    FailsAmong host all stmts id ((Expr.tool pos name args).attempts host scope) (do
      let values ← Expr.evalEntries host scope args
      Run.invoke pos name tool values) := by
  intro before failure after h
  rw [Halting.bind_apply] at h
  rw [Expr.attempts_tool htool]
  cases hvalues : Expr.evalEntries host scope args before with
  | mk result given =>
      simp only [hvalues, Halting.behind] at h ⊢
      cases result with
      | error halt =>
          cases h
          rw [List.append_nil]
          exact hargs before failure after hvalues
      | ok values =>
          obtain ⟨refusal, hanswer, rfl⟩ := Run.invoke_eq_error h
          have hmemory := (Expr.attempts_evalEntries host scope args).remembered hvalues
          have hrefused : host.Refused ⟨before.memory,
              Expr.attemptsEntries host scope args before ++ [⟨pos, name, values⟩], after.memory⟩
              pos name args refusal :=
            ⟨_, tool, values, scope, before, given, rfl, htool, hvalues, hmemory, hanswer⟩
          refine .inl ⟨_, he, rfl, ?_⟩
          cases refusal with
          | rejected message => exact .toolArgument hrefused
          | failed message => exact .toolExecution hrefused

namespace Expr

variable (host : Host σ) (scope : Scope)

mutual

theorem raised_eval (e : Expr) (h : e.nodes ⊆ all) :
    FailsAmong host all stmts id (e.attempts host scope) (e.eval host scope) := by
  have hself := h e.mem_nodes
  cases e with
  | literal pos value => exact .pure value
  | ref pos name =>
      simp only [eval]
      split
      · exact .pure _
      · exact .located hself fun _ => .ref
  | binary pos op a b =>
      obtain ⟨ha, hb⟩ := List.append_subset.1 (List.append_subset.1 h).1
      refine (raised_eval a ha).bind (attempts_eval host scope a) fun _ =>
        (raised_eval b hb).bind_idle (attempts_eval host scope b) fun _ => .ofExcept hself ?_
      intro cause hcause calls
      rcases BinaryOp.apply_eq_error hcause with ⟨message, rfl⟩ | ⟨rfl, hop⟩
      · exact .operands
      · exact .divisor hop
  | unary pos op a =>
      refine (raised_eval a (List.append_subset.1 h).1).bind_idle (attempts_eval host scope a)
        fun _ => .ofExcept hself ?_
      intro cause hcause calls
      obtain ⟨message, rfl⟩ := UnaryOp.apply_eq_error hcause
      exact .operand
  | apply pos name args =>
      exact (raised_evalItems args (List.append_subset.1 h).1).bind_idle
        (attempts_evalItems host scope args) fun values => .callNamed hself values
  | tool pos name args =>
      simp only [eval]
      split
      · next hnone => exact .located hself fun _ => .toolNotFound hnone
      · next tool htool =>
          exact .tool hself htool (raised_evalEntries args (List.append_subset.1 h).1)
  | list pos items =>
      exact (raised_evalItems items (List.append_subset.1 h).1).bind_idle
        (attempts_evalItems host scope items) fun _ => .pure _
  | object pos entries =>
      exact (raised_evalEntries entries (List.append_subset.1 h).1).bind_idle
        (attempts_evalEntries host scope entries) fun _ => .pure _
  | index pos a b =>
      obtain ⟨ha, hb⟩ := List.append_subset.1 (List.append_subset.1 h).1
      refine (raised_eval a ha).bind (attempts_eval host scope a) fun subject => ?_
      cases subject with
      | list items =>
          refine (raised_eval b hb).bind_idle (attempts_eval host scope b) fun _ =>
            .ofExcept hself ?_
          intro cause hcause calls
          rcases itemAt_eq_error hcause with ⟨message, rfl⟩ | ⟨index, length, rfl⟩
          · exact .index
          · exact .bounds
      | null | bool | number | string | object => exact .located hself fun _ => .index
  | member pos a property =>
      refine (raised_eval a (List.append_subset.1 h).1).bind_idle (attempts_eval host scope a)
        fun subject => ?_
      cases subject with
      | object entries =>
          refine .ofExcept hself ?_
          intro cause hcause calls
          obtain ⟨message, rfl⟩ := entryAt_eq_error hcause
          exact .member
      | null | bool | number | string | list => exact .located hself fun _ => .member

theorem raised_evalItems (items : List Expr) (h : nodesItems items ⊆ all) :
    FailsAmong host all stmts id (attemptsItems host scope items)
      (evalItems host scope items) := by
  cases items with
  | nil => exact .pure []
  | cons e rest =>
      obtain ⟨he, hrest⟩ := List.append_subset.1 h
      exact (raised_eval e he).bind (attempts_eval host scope e) fun _ =>
        (raised_evalItems rest hrest).bind_idle (attempts_evalItems host scope rest) fun _ =>
          .pure _

theorem raised_evalEntries (entries : List (String × Expr)) (h : nodesEntries entries ⊆ all) :
    FailsAmong host all stmts id (attemptsEntries host scope entries)
      (evalEntries host scope entries) := by
  cases entries with
  | nil => exact .pure []
  | cons entry rest =>
      obtain ⟨he, hrest⟩ := List.append_subset.1 h
      exact (raised_eval entry.2 he).bind (attempts_eval host scope entry.2) fun _ =>
        (raised_evalEntries rest hrest).bind_idle (attempts_evalEntries host scope rest) fun _ =>
          .pure _

end

end Expr

end Expressions

section Statements

variable {host : Host σ} {all : List Expr} {stmts : List Stmt}

theorem FailsAmong.evaluate {e : Expr} (h : e.nodes ⊆ all) :
    FailsAmong host all stmts Machine.world (e.attempted host) (e.evaluate host) := by
  intro machine failure after heq
  cases heval : e.eval host machine.scope machine.world with
  | mk result world =>
      simp only [Expr.evaluate, Exec.reading, heval] at heq
      cases heq
      exact Expr.raised_eval host machine.scope e h machine.world failure world heval

/-- What a call raises as an expression it raises as a statement. -/
theorem RaisedAmong.of_call {pos : Position} {tool : String} {args : List (String × Expr)}
    {calls : Calls σ} {failure : Failure}
    (h : RaisedAmong host (Expr.tool pos tool args).nodes stmts calls failure)
    (hargs : Expr.nodesEntries args ⊆ all) (hcall : Stmt.call pos tool args ∈ stmts) :
    RaisedAmong host all stmts calls failure := by
  rcases h with ⟨e, he, hposition, hraises⟩ | h
  · rcases List.mem_append.1 he with he | he
    · exact .inl ⟨e, hargs he, hposition, hraises⟩
    · obtain rfl := List.mem_singleton.1 he
      obtain ⟨cause, position⟩ := failure
      obtain rfl : position = some pos := hposition
      exact .inr ⟨_, hcall, .call hraises⟩
  · exact .inr h

/-- What a statement raises itself. -/
theorem FailsAmong.raised {stmt : Stmt} {failure : Failure} {list : Machine σ → List Attempt}
    (hstmt : stmt ∈ stmts) (h : ∀ calls, stmt.Raises host calls failure) :
    FailsAmong host all stmts Machine.world list (throw (.failed failure) : Exec σ α) :=
  .fails fun calls => .inr ⟨stmt, hstmt, h calls⟩

theorem FailsAmong.forEach {body : Exec σ Unit} {list : Machine σ → List Attempt}
    (h : FailsAmong host all stmts Machine.world list body)
    (hcalls : Attempts host Machine.world body list) (name : String) (values : List Value) :
    FailsAmong host all stmts Machine.world (Exec.listEach name body list values)
      (Exec.forEach name body values) := by
  induction values with
  | nil => exact .pure ()
  | cons value rest ih =>
      have hframe : FailsAmong host all stmts Machine.world (Exec.listInFrame name value list)
          (Exec.inFrame name value body) := by
        intro machine failure after heq
        cases hbody : body { machine with scope := machine.scope.push.set name value } with
        | mk result inside =>
            simp only [Exec.inFrame, hbody] at heq
            cases heq
            exact h _ failure inside hbody
      exact hframe.bind (hcalls.inFrame name value) fun _ => ih

namespace Stmt

variable (host : Host σ)

mutual

theorem raised_exec (stmt : Stmt) (h : stmt.nodes ⊆ all) (h' : stmt.parts ⊆ stmts) :
    FailsAmong host all stmts Machine.world (stmt.attempts host) (stmt.exec host) := by
  have hself := h' stmt.mem_parts
  match stmt, h, h' with
  | .bind pos name e, h, _ =>
      exact (FailsAmong.evaluate h).bind_idle (e.attempts_evaluate host) fun _ _ _ _ heq => by
        cases heq
  | .call pos tool args, h, _ =>
      have hcall : FailsAmong host all stmts Machine.world
          ((Expr.tool pos tool args).attempted host) ((Expr.tool pos tool args).evaluate host) :=
        fun machine failure after heq =>
          (FailsAmong.evaluate (List.Subset.refl _) machine failure after heq).of_call h hself
      exact hcall.bind_idle ((Expr.tool pos tool args).attempts_evaluate host) fun _ => .pure ()
  | .branch pos e yes no, h, h' =>
      rw [exec_branch, funext (attempts_branch host pos e yes no)]
      refine (FailsAmong.evaluate (List.Subset.trans nodes_condition_subset h)).bind
        (e.attempts_evaluate host) fun value => ?_
      cases hchosen : chosen yes no value with
      | none => exact .raised hself fun _ => .condition
      | some block =>
          have hsize := sizeOf_chosen hchosen
          exact raised_execBlock block (List.Subset.trans (nodes_chosen_subset hchosen) h)
            (List.Subset.trans (parts_chosen_subset hchosen) h')
  | .each pos name e body, h, h' =>
      obtain ⟨he, hbody⟩ := List.append_subset.1 h
      refine (FailsAmong.evaluate he).bind (e.attempts_evaluate host) fun value => ?_
      cases value with
      | list values =>
          exact (raised_execBlock body hbody (List.cons_subset.1 h').2).forEach
            (attempts_execBlock host body) name values
      | null | bool | number | string | object => exact .raised hself fun _ => .iterable
  | .expr pos e, h, _ =>
      exact (FailsAmong.evaluate h).bind_idle (e.attempts_evaluate host) fun _ => .pure ()
termination_by sizeOf stmt

theorem raised_execBlock (block : List Stmt) (h : nodesBlock block ⊆ all)
    (h' : partsBlock block ⊆ stmts) :
    FailsAmong host all stmts Machine.world (attemptsBlock host block) (execBlock host block) := by
  cases block with
  | nil => exact .pure ()
  | cons stmt rest =>
      obtain ⟨hstmt, hrest⟩ := List.append_subset.1 h
      obtain ⟨hstmt', hrest'⟩ := List.append_subset.1 h'
      exact (raised_exec stmt hstmt hstmt').bind (attempts_exec host stmt) fun _ =>
        raised_execBlock rest hrest hrest'
termination_by sizeOf block

end

end Stmt

end Statements

theorem Expr.Raises.isSource_eq_false {host : Host σ} {calls : Calls σ} {e : Expr} {cause : Cause}
    (h : e.Raises host calls cause) : cause.isSource = false := by
  cases h <;> rfl

theorem Stmt.Raises.isSource_eq_false {host : Host σ} {calls : Calls σ} {stmt : Stmt}
    {failure : Failure} (h : stmt.Raises host calls failure) :
    failure.cause.isSource = false := by
  cases h with
  | condition => rfl
  | iterable => rfl
  | call h => exact h.isSource_eq_false

/-- A failure of a run is not one of the source text. A node of the script raises it at its
place, or a statement of the script does: a condition and the list of a loop at the place of
the expression, and a call at its own. If a tool refused a call, that call is the last one that
the run attempted. -/
theorem failure_raised (host : Host σ) (polls : Nat) (context : Context σ) (script : Script)
    {failure : Failure} (h : (script.execute host polls context).outcome = .failed failure) :
    let calls : Calls σ := ⟨context.memory, script.attempts host polls context,
      (script.execute host polls context).context.memory⟩
    failure.cause.isSource = false ∧
      ((∃ e ∈ Stmt.nodesBlock script.statements,
          failure.position = some e.position ∧ e.Raises host calls failure.cause) ∨
        ∃ stmt ∈ Stmt.partsBlock script.statements, stmt.Raises host calls failure) := by
  cases polls with
  | zero => cases h
  | succ patience =>
      have hraised := Stmt.raised_execBlock host script.statements (List.Subset.refl _)
        (List.Subset.refl _) (context.machine patience) failure
      simp only [Script.execute, Exec.within_succ, Script.attempts] at h ⊢
      generalize Stmt.execBlock host script.statements (context.machine patience) = out
        at h hraised ⊢
      rcases out with ⟨(found | _) | a, machine⟩
      · cases h
        have hraised := hraised machine rfl
        refine ⟨?_, hraised⟩
        rcases hraised with ⟨e, -, -, hraises⟩ | ⟨stmt, -, hraises⟩
        · exact hraises.isSource_eq_false
        · exact hraises.isSource_eq_false
      · cases h
      · cases h

/-- A tool that turns away the arguments of a call in a loop. -/
theorem failure_raised_rejected :
    let host : Host Nat := ⟨fun name => if name = "store" then
      some ⟨none, fun _ calls => (⟨some 0, .error (.rejected "read only")⟩, calls + 1)⟩ else none,
      fun _ => 0⟩
    let call : Stmt := .call ⟨2, 3⟩ "store" [("value", .ref ⟨2, 22⟩ "x")]
    let script : Script := ⟨[.each ⟨1, 1⟩ "x" (.list ⟨1, 10⟩ [.literal ⟨1, 11⟩ .null]) [call]]⟩
    let failure : Failure := ⟨.toolArgument "store" "read only", some ⟨2, 3⟩⟩
    let calls : Calls Nat := ⟨0, [⟨⟨2, 3⟩, "store", [("value", .null)]⟩], 1⟩
    (script.execute host 1 ⟨.empty, 0, 0⟩).outcome = .failed failure ∧
      failure.cause.isSource = false ∧
      ((∃ e ∈ Stmt.nodesBlock script.statements,
          failure.position = some e.position ∧ e.Raises host calls failure.cause) ∨
        ∃ stmt ∈ Stmt.partsBlock script.statements, stmt.Raises host calls failure) := by
  intro host call script failure calls
  have houtcome : (script.execute host 1 ⟨.empty, 0, 0⟩).outcome = .failed failure := rfl
  exact ⟨houtcome, failure_raised host 1 ⟨.empty, 0, 0⟩ script houtcome⟩

end ToolScript
