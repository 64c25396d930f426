import ToolScript.Proofs.Order
import ToolScript.Proofs.Waiting.Suspension

/-!
# What a run depends on

A run sees of the scope only the values of the variables in the script, and of the host only the
clock and the tools that the script calls. Two runs in which those are the same go side by side:
they end alike, do the same and bind the same, whatever else is different around them.
-/

namespace ToolScript

variable {σ α β : Type}

/-- The variable that a node refers to. -/
def Expr.reference? : Expr → Option String
  | .ref _ name => some name
  | _ => none

/-- The tool that a statement calls. -/
def Stmt.calledTool? : Stmt → Option String
  | .call _ tool _ => some tool
  | _ => none

/-- The names that occur in the script as variables. -/
def Script.variables (script : Script) : List String :=
  (Stmt.nodesBlock script.statements).filterMap Expr.reference?

/-- The names of the tools that nodes or statements of the script call. -/
def Script.tools (script : Script) : List String :=
  (Stmt.nodesBlock script.statements).filterMap Expr.calledTool? ++
    (Stmt.partsBlock script.statements).filterMap Stmt.calledTool?

/-- The scopes have the same values under the names. -/
def Scope.Agree (names : List String) (s t : Scope) : Prop :=
  ∀ name ∈ names, s.get? name = t.get? name

namespace Scope.Agree

variable {names : List String} {s t : Scope}

theorem set (h : Agree names s t) (name : String) (value : Value) :
    Agree names (s.set name value) (t.set name value) := by
  intro other hother
  rw [get?_set, get?_set, h other hother]

theorem push (h : Agree names s t) : Agree names s.push t.push :=
  h

end Scope.Agree

/-- The hosts have the same clock, and the same tools under the names. -/
structure Host.Agree (tools : List String) (host other : Host σ) : Prop where
  clock : host.clock = other.clock
  tool : ∀ name ∈ tools, host.tool? name = other.tool? name

section Expressions

variable {host other : Host σ} {s t : Scope} {all : List Expr} {tools : List String}

theorem Run.callNamed_congr (h : host.clock = other.clock) (pos : Position) (name : String)
    (args : List Value) : Run.callNamed host pos name args = Run.callNamed other pos name args := by
  have hread : Run.readClock host = Run.readClock other := by
    unfold Run.readClock
    rw [h]
  unfold Run.callNamed Builtin.call
  rw [hread]

namespace Expr

theorem eval_tool_congr (hhost : host.Agree tools other) {name : String} (hname : name ∈ tools)
    {args : List (String × Expr)} (hargs : evalEntries host s args = evalEntries other t args)
    (pos : Position) :
    eval host s (.tool pos name args) = eval other t (.tool pos name args) := by
  simp only [eval, hhost.tool name hname, hargs]

mutual

/-- An expression evaluates alike where its variables and its tools are the same. -/
theorem eval_congr (hhost : host.Agree (all.filterMap calledTool?) other)
    (hscope : Scope.Agree (all.filterMap reference?) s t) (e : Expr) (h : e.nodes ⊆ all) :
    e.eval host s = e.eval other t := by
  have hself := h e.mem_nodes
  cases e with
  | literal pos value => rfl
  | ref pos name =>
      have hname : s.get? name = t.get? name :=
        hscope name (List.mem_filterMap.2 ⟨_, hself, rfl⟩)
      simp only [eval, hname]
  | binary pos op a b =>
      obtain ⟨ha, hb⟩ := List.append_subset.1 (List.append_subset.1 h).1
      simp only [eval, eval_congr hhost hscope a ha, eval_congr hhost hscope b hb]
  | unary pos op a =>
      simp only [eval, eval_congr hhost hscope a (List.append_subset.1 h).1]
  | apply pos name args =>
      simp only [eval, evalItems_congr hhost hscope args (List.append_subset.1 h).1,
        Run.callNamed_congr hhost.clock]
  | tool pos name args =>
      exact eval_tool_congr hhost (List.mem_filterMap.2 ⟨_, hself, rfl⟩)
        (evalEntries_congr hhost hscope args (List.append_subset.1 h).1) pos
  | list pos items =>
      simp only [eval, evalItems_congr hhost hscope items (List.append_subset.1 h).1]
  | object pos entries =>
      simp only [eval, evalEntries_congr hhost hscope entries (List.append_subset.1 h).1]
  | index pos a b =>
      obtain ⟨ha, hb⟩ := List.append_subset.1 (List.append_subset.1 h).1
      simp only [eval, eval_congr hhost hscope a ha, eval_congr hhost hscope b hb]
  | member pos a property =>
      simp only [eval, eval_congr hhost hscope a (List.append_subset.1 h).1]

theorem evalItems_congr (hhost : host.Agree (all.filterMap calledTool?) other)
    (hscope : Scope.Agree (all.filterMap reference?) s t) (items : List Expr)
    (h : nodesItems items ⊆ all) : evalItems host s items = evalItems other t items := by
  cases items with
  | nil => rfl
  | cons e rest =>
      obtain ⟨he, hrest⟩ := List.append_subset.1 h
      simp only [evalItems, eval_congr hhost hscope e he, evalItems_congr hhost hscope rest hrest]

theorem evalEntries_congr (hhost : host.Agree (all.filterMap calledTool?) other)
    (hscope : Scope.Agree (all.filterMap reference?) s t) (entries : List (String × Expr))
    (h : nodesEntries entries ⊆ all) :
    evalEntries host s entries = evalEntries other t entries := by
  cases entries with
  | nil => rfl
  | cons entry rest =>
      obtain ⟨he, hrest⟩ := List.append_subset.1 h
      simp only [evalEntries, eval_congr hhost hscope entry.2 he,
        evalEntries_congr hhost hscope rest hrest]

end

end Expr

end Expressions

/-- The machines have the same world, and scopes that agree. -/
structure Machine.Agree (names : List String) (m n : Machine σ) : Prop where
  scope : Scope.Agree names m.scope n.scope
  world : m.world = n.world

/-- From machines that agree the computations end alike, and the machines agree again. -/
def Exec.Parallel (names : List String) (x y : Exec σ α) : Prop :=
  ∀ m n, Machine.Agree names m n → (x m).1 = (y n).1 ∧ Machine.Agree names (x m).2 (y n).2

namespace Exec.Parallel

variable {names : List String} {x y : Exec σ α}

theorem pure (a : α) : Parallel names (Pure.pure a : Exec σ α) (Pure.pure a) :=
  fun _ _ h => ⟨rfl, h⟩

theorem halts (halt : Halt) : Parallel names (throw halt : Exec σ α) (throw halt) :=
  fun _ _ h => ⟨rfl, h⟩

theorem bind {f g : α → Exec σ β} (hxy : Parallel names x y)
    (hfg : ∀ a, Parallel names (f a) (g a)) : Parallel names (x >>= f) (y >>= g) := by
  intro m n h
  obtain ⟨hresult, hafter⟩ := hxy m n h
  rw [Halting.bind_apply, Halting.bind_apply]
  generalize x m = out at hresult hafter ⊢
  generalize y n = out' at hresult hafter ⊢
  obtain ⟨result, m'⟩ := out
  obtain ⟨result', n'⟩ := out'
  obtain rfl : result = result' := hresult
  cases result with
  | ok a => exact hfg a m' n' hafter
  | error halt => exact ⟨rfl, hafter⟩

theorem reading {run other : Scope → Run σ α}
    (h : ∀ s t, Scope.Agree names s t → run s = other t) :
    Parallel names (Exec.reading run) (Exec.reading other) := by
  intro m n hmn
  obtain ⟨scope, world⟩ := m
  obtain ⟨hscope, rfl⟩ := hmn
  simp only [Exec.reading, h scope n.scope hscope]
  exact ⟨rfl, hscope, rfl⟩

theorem binds (name : String) (value : Value) :
    Parallel names (modifyScope fun scope => scope.set name value : Exec σ Unit)
      (modifyScope fun scope => scope.set name value) :=
  fun _ _ h => ⟨rfl, h.scope.set name value, h.world⟩

/-- The bodies run in frames that agree, and without these the scopes are what they were. -/
theorem inFrame {body other : Exec σ Unit} (h : Parallel names body other)
    (hbody : Respects (fun s t => t.outer = s.outer) body)
    (hother : Respects (fun s t => t.outer = s.outer) other) (name : String) (value : Value) :
    Parallel names (Exec.inFrame name value body) (Exec.inFrame name value other) := by
  intro m n hmn
  obtain ⟨hresult, hafter⟩ := h { m with scope := m.scope.push.set name value }
    { n with scope := n.scope.push.set name value } ⟨hmn.scope.push.set name value, hmn.world⟩
  refine ⟨hresult, ?_, hafter.world⟩
  have hkept {body : Exec σ Unit} (hbody : Respects (fun s t => t.outer = s.outer) body)
      (m : Machine σ) : (Exec.inFrame name value body m).2.scope = m.scope :=
    (respects_inFrame hbody m).symm
  rw [hkept hbody, hkept hother]
  exact hmn.scope

theorem forEach {body other : Exec σ Unit} (h : Parallel names body other)
    (hbody : Respects (fun s t => t.outer = s.outer) body)
    (hother : Respects (fun s t => t.outer = s.outer) other) (name : String)
    (values : List Value) :
    Parallel names (Exec.forEach name body values) (Exec.forEach name other values) := by
  induction values with
  | nil => exact .pure ()
  | cons value rest ih => exact (h.inFrame hbody hother name value).bind fun _ => ih

/-- Computations that go side by side do the same. -/
theorem deeds_eq (h : Parallel names x y) {m n : Machine σ} (hmn : Machine.Agree names m n) :
    deeds x m = deeds y n := by
  rw [deeds, deeds, (h m n hmn).2.world, hmn.world]

theorem andThen_eq (h : Parallel names x y) {next other : α → Machine σ → List Mark}
    (hnext : ∀ a m n, Machine.Agree names m n → next a m = other a n) {m n : Machine σ}
    (hmn : Machine.Agree names m n) : andThen x next m = andThen y other n := by
  obtain ⟨hresult, hafter⟩ := h m n hmn
  unfold andThen
  generalize x m = out at hresult hafter ⊢
  generalize y n = out' at hresult hafter ⊢
  obtain ⟨result, m'⟩ := out
  obtain ⟨result', n'⟩ := out'
  obtain rfl : result = result' := hresult
  cases result with
  | ok a => exact hnext a m' n' hafter
  | error halt => rfl

end Exec.Parallel

section Statements

variable {host other : Host σ} {all : List Expr} {parts : List Stmt}

theorem Host.Agree.mono {tools others : List String} (h : host.Agree others other)
    (hsub : tools ⊆ others) : host.Agree tools other :=
  ⟨h.clock, fun name hname => h.tool name (hsub hname)⟩

/-- The hosts agree on the tools that are called in the nodes or by the statements. -/
abbrev Host.AgreeOn (all : List Expr) (parts : List Stmt) (host other : Host σ) : Prop :=
  host.Agree (all.filterMap Expr.calledTool? ++ parts.filterMap Stmt.calledTool?) other

theorem Expr.parallel_evaluate (hhost : Host.AgreeOn all parts host other) (e : Expr)
    (h : e.nodes ⊆ all) :
    Exec.Parallel (all.filterMap reference?) (e.evaluate host) (e.evaluate other) :=
  .reading fun _ _ hscope =>
    e.eval_congr (hhost.mono (List.subset_append_left _ _)) hscope h

theorem Stmt.outer_execBlock (host : Host σ) (stmts : List Stmt) :
    Exec.Respects (fun s t => t.outer = s.outer) (execBlock host stmts) :=
  (respects_execBlock host stmts).mono fun _ _ h => h.outer

namespace Stmt

theorem parallel_call (hhost : Host.AgreeOn all parts host other) {pos : Position}
    {tool : String} {args : List (String × Expr)} (h : Expr.nodesEntries args ⊆ all)
    (h' : Stmt.call pos tool args ∈ parts) :
    Exec.Parallel (all.filterMap Expr.reference?) ((Stmt.call pos tool args).exec host)
      ((Stmt.call pos tool args).exec other) := by
  have htool : tool ∈ all.filterMap Expr.calledTool? ++ parts.filterMap calledTool? :=
    List.mem_append_right _ (List.mem_filterMap.2 ⟨_, h', rfl⟩)
  refine Exec.Parallel.bind (.reading fun s t hscope => ?_) fun _ => .pure ()
  exact Expr.eval_tool_congr hhost htool
    (Expr.evalEntries_congr (hhost.mono (List.subset_append_left _ _)) hscope args h) pos

mutual

/-- A statement runs alike where its variables and its tools are the same. -/
theorem parallel_exec (hhost : Host.AgreeOn all parts host other) (stmt : Stmt)
    (h : stmt.nodes ⊆ all) (h' : stmt.parts ⊆ parts) :
    Exec.Parallel (all.filterMap Expr.reference?) (stmt.exec host) (stmt.exec other) := by
  match stmt, h, h' with
  | .bind pos name e, h, _ =>
      exact (e.parallel_evaluate hhost h).bind fun value => .binds name value
  | .call pos tool args, h, h' => exact parallel_call hhost h (h' (mem_parts _))
  | .branch pos e yes no, h, h' =>
      rw [exec_branch, exec_branch]
      have he := e.parallel_evaluate hhost (List.Subset.trans nodes_condition_subset h)
      refine he.bind fun value => ?_
      cases hchosen : chosen yes no value with
      | none => exact .halts _
      | some block =>
          have hsize := sizeOf_chosen hchosen
          exact parallel_execBlock hhost block (List.Subset.trans (nodes_chosen_subset hchosen) h)
            (List.Subset.trans (parts_chosen_subset hchosen) h')
  | .each pos name e body, h, h' =>
      obtain ⟨he, hbody⟩ := List.append_subset.1 h
      refine (e.parallel_evaluate hhost he).bind fun value => ?_
      split
      · exact (parallel_execBlock hhost body hbody (List.cons_subset.1 h').2).forEach
          (outer_execBlock host body) (outer_execBlock other body) name _
      · exact .halts _
  | .expr pos e, h, _ => exact (e.parallel_evaluate hhost h).bind fun _ => .pure ()
termination_by sizeOf stmt

theorem parallel_execBlock (hhost : Host.AgreeOn all parts host other) (stmts : List Stmt)
    (h : nodesBlock stmts ⊆ all) (h' : partsBlock stmts ⊆ parts) :
    Exec.Parallel (all.filterMap Expr.reference?) (execBlock host stmts)
      (execBlock other stmts) := by
  cases stmts with
  | nil => exact .pure ()
  | cons stmt rest =>
      obtain ⟨hstmt, hrest⟩ := List.append_subset.1 h
      obtain ⟨hstmt', hrest'⟩ := List.append_subset.1 h'
      exact (parallel_exec hhost stmt hstmt hstmt').bind fun _ =>
        parallel_execBlock hhost rest hrest hrest'
termination_by sizeOf stmts

end

mutual

/-- The traces of a statement that runs alike are the same. -/
theorem trace_congr (hhost : Host.AgreeOn all parts host other) (stmt : Stmt)
    (h : stmt.nodes ⊆ all) (h' : stmt.parts ⊆ parts) {m n : Machine σ}
    (hmn : Machine.Agree (all.filterMap Expr.reference?) m n) :
    stmt.trace host m = stmt.trace other n := by
  have hstmt := parallel_exec hhost stmt h h'
  match stmt, h, h' with
  | .bind pos name e, h, _ =>
      have he := e.parallel_evaluate hhost h
      rw [trace, trace, he.deeds_eq hmn, he.andThen_eq (fun _ _ _ _ => ?_) hmn]
      rfl
  | .call pos tool args, _, _ => exact hstmt.deeds_eq hmn
  | .branch pos e yes no, h, h' =>
      have he := e.parallel_evaluate hhost (List.Subset.trans nodes_condition_subset h)
      rw [trace_branch, trace_branch, he.deeds_eq hmn,
        he.andThen_eq (fun value m n hmn => ?_) hmn]
      cases hchosen : chosen yes no value with
      | none => rfl
      | some block =>
          have hsize := sizeOf_chosen hchosen
          exact traceBlock_congr hhost block (List.Subset.trans (nodes_chosen_subset hchosen) h)
            (List.Subset.trans (parts_chosen_subset hchosen) h') hmn
  | .each pos name e body, _, _ => exact hstmt.deeds_eq hmn
  | .expr pos e, _, _ => exact hstmt.deeds_eq hmn
termination_by sizeOf stmt

theorem traceBlock_congr (hhost : Host.AgreeOn all parts host other) (stmts : List Stmt)
    (h : nodesBlock stmts ⊆ all) (h' : partsBlock stmts ⊆ parts) {m n : Machine σ}
    (hmn : Machine.Agree (all.filterMap Expr.reference?) m n) :
    traceBlock host stmts m = traceBlock other stmts n := by
  cases stmts with
  | nil => rfl
  | cons stmt rest =>
      obtain ⟨hstmt, hrest⟩ := List.append_subset.1 h
      obtain ⟨hstmt', hrest'⟩ := List.append_subset.1 h'
      rw [traceBlock, traceBlock, trace_congr hhost stmt hstmt hstmt' hmn,
        (parallel_exec hhost stmt hstmt hstmt').andThen_eq (fun _ m n hmn => ?_) hmn]
      exact traceBlock_congr hhost rest hrest hrest' hmn
termination_by sizeOf stmts

end

end Stmt

end Statements

section Bindings

variable (host : Host σ)

/-- What goes on behind a computation binds no name that it would not bind on its own. -/
theorem Exec.bindings_andThen {act : Exec σ α} {next : α → Machine σ → List Mark}
    {names : List String} (h : ∀ a m, (Mark.bindings (next a m)).map Prod.fst ⊆ names)
    (machine : Machine σ) : (Mark.bindings (andThen act next machine)).map Prod.fst ⊆ names := by
  unfold andThen
  split
  · exact h _ _
  · exact List.nil_subset _

theorem Exec.bindings_deeds (act : Exec σ α) (trace : List Mark) (machine : Machine σ) :
    Mark.bindings (deeds act machine ++ trace) = Mark.bindings trace := by
  rw [Mark.bindings_append, deeds, Mark.bindings_map_did, List.nil_append]

namespace Stmt

mutual

/-- A trace binds only names that the statement binds outside loops. -/
theorem bindings_trace_subset (stmt : Stmt) (machine : Machine σ) :
    (Mark.bindings (stmt.trace host machine)).map Prod.fst ⊆ stmt.bound := by
  cases stmt with
  | bind pos name e =>
      rw [trace, Exec.bindings_deeds]
      exact Exec.bindings_andThen (fun _ _ => List.Subset.refl [name]) machine
  | call pos tool args =>
      rw [trace, Exec.deeds, Mark.bindings_map_did]
      exact List.nil_subset _
  | branch pos e yes no =>
      rw [trace_branch, Exec.bindings_deeds]
      refine Exec.bindings_andThen (fun value after => ?_) machine
      cases hchosen : chosen yes no value with
      | none => exact List.nil_subset _
      | some block =>
          have hsize := sizeOf_chosen hchosen
          exact List.Subset.trans (bindings_traceBlock_subset block after)
            (boundIn_chosen_subset hchosen)
  | each pos name e body =>
      rw [trace, Exec.deeds, Mark.bindings_map_did]
      exact List.nil_subset _
  | expr pos e =>
      rw [trace, Exec.deeds, Mark.bindings_map_did]
      exact List.nil_subset _
termination_by sizeOf stmt

theorem bindings_traceBlock_subset (stmts : List Stmt) (machine : Machine σ) :
    (Mark.bindings (traceBlock host stmts machine)).map Prod.fst ⊆ boundIn stmts := by
  cases stmts with
  | nil => exact List.nil_subset _
  | cons stmt rest =>
      rw [traceBlock, Mark.bindings_append, List.map_append]
      refine List.append_subset.2 ⟨?_, ?_⟩
      · exact List.Subset.trans (bindings_trace_subset stmt machine) (List.subset_append_left _ _)
      · exact List.Subset.trans
          (Exec.bindings_andThen (fun _ after => bindings_traceBlock_subset rest after) machine)
          (List.subset_append_right _ _)
termination_by sizeOf stmts

end

end Stmt

theorem Script.bindings_trace_subset (polls : Nat) (context : Context σ) (script : Script) :
    (Mark.bindings (script.trace host polls context)).map Prod.fst ⊆
      Stmt.boundIn script.statements := by
  cases polls with
  | zero => exact List.nil_subset _
  | succ patience => exact Stmt.bindings_traceBlock_subset host script.statements _

/-- The scope behind a run is the scope before it with what the trace binds. -/
theorem Script.scope_execute (polls : Nat) (context : Context σ) (script : Script) :
    (script.execute host polls context).context.scope =
      context.scope.setAll (Mark.bindings (script.trace host polls context)) := by
  cases polls with
  | zero => rfl
  | succ patience => exact (Stmt.traced_execBlock host script.statements).scope _

end Bindings

namespace Scope

variable {bindings : List (String × Value)}

theorem get?_setAll {name : String} (h : name ∉ bindings.map Prod.fst) (scope : Scope) :
    (scope.setAll bindings).get? name = scope.get? name := by
  induction bindings generalizing scope with
  | nil => rfl
  | cons binding rest ih =>
      rw [List.map_cons, List.mem_cons, not_or] at h
      change ((scope.set binding.1 binding.2).setAll rest).get? name = _
      rw [ih h.2, get?_set, if_neg (Ne.symm h.1)]

/-- Names that are not bound can be taken out before or after. -/
theorem setAll_ofFrame {name : String} (h : name ∉ bindings.map Prod.fst) (frame : Frame) :
    ∃ after, (ofFrame frame).setAll bindings = ofFrame after ∧
      (ofFrame (Dict.erase frame name)).setAll bindings = ofFrame (Dict.erase after name) := by
  induction bindings generalizing frame with
  | nil => exact ⟨frame, rfl, rfl⟩
  | cons binding rest ih =>
      rw [List.map_cons, List.mem_cons, not_or] at h
      obtain ⟨after, hafter, herased⟩ := ih h.2 (Dict.insert frame binding.1 binding.2)
      rw [Dict.erase_insert_of_ne (Ne.symm h.1)] at herased
      exact ⟨after, hafter, herased⟩

end Scope

/-- The runs end alike, do the same, and leave the same to the tools and of the clock. -/
structure Ending.Alike (ending other : Ending σ α) : Prop where
  outcome : ending.outcome = other.outcome
  events : ending.events = other.events
  memory : ending.context.memory = other.context.memory
  readings : ending.context.readings = other.context.readings

section Runs

variable {host other : Host σ} {start start' : Context σ} {script : Script}

theorem Context.agree_machine {names : List String}
    (hscope : Scope.Agree names start.scope start'.scope) (hmemory : start.memory = start'.memory)
    (hreadings : start.readings = start'.readings) (patience : Nat) :
    Machine.Agree names (start.machine patience) (start'.machine patience) :=
  ⟨hscope, by rw [Context.machine, Context.machine, hmemory, hreadings]⟩

/-- Runs from contexts that agree, with hosts that agree, go side by side to the end. -/
theorem Script.execute_parallel (hhost : host.Agree script.tools other)
    (hscope : Scope.Agree script.variables start.scope start'.scope)
    (hmemory : start.memory = start'.memory) (hreadings : start.readings = start'.readings)
    (polls : Nat) :
    (script.execute host polls start).Alike (script.execute other polls start') ∧
      script.trace host polls start = script.trace other polls start' := by
  cases polls with
  | zero => exact ⟨⟨rfl, rfl, hmemory, hreadings⟩, rfl⟩
  | succ patience =>
      have hstart := Context.agree_machine hscope hmemory hreadings patience
      obtain ⟨hresult, hafter⟩ := Stmt.parallel_execBlock hhost script.statements
        (List.Subset.refl _) (List.Subset.refl _) _ _ hstart
      refine ⟨?_, Stmt.traceBlock_congr hhost script.statements (List.Subset.refl _)
        (List.Subset.refl _) hstart⟩
      simp only [Script.execute, Exec.within_succ]
      exact ⟨congrArg Exec.outcome hresult, by rw [hafter.world], by rw [hafter.world],
        by rw [hafter.world]⟩

/-- A name that the script does not bind outside loops has the value behind a run that it had. -/
theorem Script.get?_execute {name : String} (h : name ∉ Stmt.boundIn script.statements)
    (host : Host σ) (polls : Nat) (start : Context σ) :
    (script.execute host polls start).context.scope.get? name = start.scope.get? name := by
  rw [script.scope_execute]
  exact Scope.get?_setAll (fun hmem => h (script.bindings_trace_subset host polls start hmem)) _

end Runs

/-- Two runs with the same clock, the same tools under the names that the script calls and the
same values of its variables end alike and do the same. They bind the same, and other names keep
their values. A variable with a name that does not occur in the script is still there behind the
run, and else nothing is different with it. -/
theorem execution_depends_on_mentioned (script : Script) (polls : Nat) :
    (∀ (host other : Host σ) (start start' : Context σ), host.clock = other.clock →
      (∀ name ∈ script.tools, host.tool? name = other.tool? name) →
      (∀ name ∈ script.variables, start.scope.get? name = start'.scope.get? name) →
      start.memory = start'.memory → start.readings = start'.readings →
      let ending := script.execute host polls start
      let ending' := script.execute other polls start'
      ending.Alike ending' ∧
      (∃ bindings, Mark.bindings (script.trace host polls start) = bindings ∧
        Mark.bindings (script.trace other polls start') = bindings ∧
        ending.context.scope = start.scope.setAll bindings ∧
        ending'.context.scope = start'.scope.setAll bindings) ∧
      ∀ name, name ∉ Stmt.boundIn script.statements →
        ending.context.scope.get? name = start.scope.get? name ∧
          ending'.context.scope.get? name = start'.scope.get? name) ∧
    ∀ (host : Host σ) (memory : σ) (readings : Nat) (frame : Frame) (name : String)
      (value : Value), name ∉ Dict.keys frame → name ∉ script.variables →
      name ∉ Stmt.boundIn script.statements →
      let start := fun frame : Frame => (⟨.ofFrame frame, memory, readings⟩ : Context σ)
      let ending := script.execute host polls (start frame)
      let added := script.execute host polls (start (Dict.insert frame name value))
      ending.Alike added ∧ ∃ after, added.context.scope = .ofFrame after ∧
        ending.context.scope = .ofFrame (Dict.erase after name) ∧
        Dict.get? after name = some value := by
  refine ⟨?_, ?_⟩
  · intro host other start start' hclock htools hscope hmemory hreadings ending ending'
    obtain ⟨halike, htrace⟩ := Script.execute_parallel ⟨hclock, htools⟩ hscope hmemory
      hreadings polls
    refine ⟨halike, ⟨_, rfl, by rw [htrace], script.scope_execute host polls start, ?_⟩,
      fun name hname => ?_⟩
    · rw [htrace]
      exact script.scope_execute other polls start'
    · exact ⟨script.get?_execute hname host polls start,
        script.get?_execute hname other polls start'⟩
  · intro host memory readings frame name value hfresh hvariable hbound start ending added
    have hscope : Scope.Agree script.variables (start frame).scope
        (start (Dict.insert frame name value)).scope := by
      intro other hother
      have hne : name ≠ other := fun heq => hvariable (heq ▸ hother)
      exact ((Scope.get?_set (.ofFrame frame) name other value).trans (if_neg hne)).symm
    have hadded : (start (Dict.insert frame name value)).scope.get? name = some value :=
      (Scope.get?_set (.ofFrame frame) name name value).trans (if_pos rfl)
    obtain ⟨halike, htrace⟩ := Script.execute_parallel ⟨rfl, fun _ _ => rfl⟩ hscope rfl rfl polls
    have hname : name ∉ (Mark.bindings (script.trace host polls (start frame))).map Prod.fst :=
      fun hmem => hbound (script.bindings_trace_subset host polls _ hmem)
    obtain ⟨after, hafter, herased⟩ := Scope.setAll_ofFrame hname (Dict.insert frame name value)
    rw [Dict.erase_insert_self, Dict.erase_of_not_mem hfresh] at herased
    have hscope' : added.context.scope = .ofFrame after := by
      rw [← hafter, htrace]
      exact script.scope_execute host polls (start (Dict.insert frame name value))
    refine ⟨halike, after, hscope', ?_, ?_⟩
    · rw [← herased]
      exact script.scope_execute host polls (start frame)
    · rw [← hadded, ← script.get?_execute hbound host polls, hscope']
      exact (List.findSome?_singleton).symm

/-- The second host has another tool, and the second scope has the variable in an outer frame and
another one in front of it; the first run is repeated with a variable that nobody reads. -/
theorem execution_depends_on_mentioned_shadowed :
    let log : Tool Nat := ⟨none, fun _ calls => (⟨some 1, .ok .null⟩, calls + 1)⟩
    let host : Host Nat := ⟨fun name => if name = "log" then some log else none, fun _ => 0⟩
    let other : Host Nat := ⟨fun _ => some log, fun _ => 0⟩
    let script : Script := ⟨[.bind .start "b" (.ref .start "a"),
      .each .start "x" (.list .start [.ref .start "b"])
        [.call .start "log" [("value", .ref .start "x")]]]⟩
    let start : Context Nat := ⟨⟨[("a", .bool true)], [[("x", .null)]]⟩, 0, 0⟩
    let start' : Context Nat := ⟨⟨[("z", .null), ("x", .null)], [[("a", .bool true)]]⟩, 0, 0⟩
    let frame : Frame := [("a", .bool true)]
    let added := script.execute host 2 ⟨.ofFrame (Dict.insert frame "unread" .null), 0, 0⟩
    (script.execute host 2 start).Alike (script.execute other 2 start') ∧
      (script.execute host 2 start).events = [.called "log" [("value", .bool true)]] ∧
      ∃ after, added.context.scope = .ofFrame after ∧
        Dict.get? after "unread" = some .null := by
  intro log host other script start start' frame added
  obtain ⟨hagree, hadd⟩ := execution_depends_on_mentioned (σ := Nat) script 2
  have htools : ∀ name ∈ script.tools, host.tool? name = other.tool? name := by
    rw [show script.tools = ["log"] from rfl]
    exact List.forall_mem_singleton.2 rfl
  have hscope : ∀ name ∈ script.variables, start.scope.get? name = start'.scope.get? name := by
    rw [show script.variables = ["a", "b", "x"] from rfl]
    exact List.forall_mem_cons.2
      ⟨rfl, List.forall_mem_cons.2 ⟨rfl, List.forall_mem_singleton.2 rfl⟩⟩
  obtain ⟨halike, -⟩ := hagree host other start start' rfl htools hscope rfl rfl
  obtain ⟨-, after, hafter, -, hvalue⟩ :=
    hadd host 0 0 frame "unread" .null (by decide) (by decide) (by decide)
  exact ⟨halike, rfl, after, hafter, hvalue⟩

end ToolScript
