import ToolScript.Proofs.Halting

/-!
# Attempted calls

A run attempts a call when it has found the tool and evaluated the arguments. The attempts of a
run are listed in order, each with its place. Attempts with arguments that fit are made: they
are recorded, and the tool runs on these arguments. The first attempt with other arguments
is turned away. It is the last of the run, which ends there with the misfit.
-/

namespace ToolScript

variable {σ S α β τ : Type}

/-- A call that a run is about to make: where, of which tool, and with which arguments. -/
structure Attempt where
  position : Position
  tool : String
  args : Arguments

/-- The call as it is recorded if it is made. -/
def Attempt.call (attempt : Attempt) : String × Arguments :=
  (attempt.tool, attempt.args)

/-- The host has the tool, and checking the arguments against its schema gives this. -/
def Host.Checks (host : Host σ) (attempt : Attempt) (found : Option Misfit) : Prop :=
  ∃ tool, host.tool? attempt.tool = some tool ∧ tool.misfit? attempt.args = found

/-- The memory of the tools behind a call. -/
def Host.remember (host : Host σ) (memory : σ) (call : String × Arguments) : σ :=
  match host.tool? call.1 with
  | some tool => (tool.run call.2 memory).2
  | none => memory

/-- What is listed behind a computation, if that goes on. -/
def Halting.behind (x : Halting S α) (next : α → S → List τ) (s : S) : List τ :=
  match x s with
  | (.ok a, t) => next a t
  | (.error _, _) => []

theorem Halting.behind_nil (x : Halting S α) (s : S) :
    behind x (fun _ _ => ([] : List τ)) s = [] := by
  unfold behind
  split <;> rfl

namespace Expr

mutual

/-- The calls that evaluating the expression attempts. -/
def attempts (host : Host σ) (scope : Scope) : Expr → World σ → List Attempt
  | .literal _ _, _ | .ref _ _, _ => []
  | .binary _ _ left right, world =>
      left.attempts host scope world ++
        Halting.behind (left.eval host scope) (fun _ => right.attempts host scope) world
  | .unary _ _ operand, world => operand.attempts host scope world
  | .apply _ _ args, world => attemptsItems host scope args world
  | .tool pos name args, world =>
      match host.tool? name with
      | none => []
      | some _ =>
          attemptsEntries host scope args world ++
            Halting.behind (evalEntries host scope args)
              (fun values _ => [⟨pos, name, values⟩]) world
  | .list _ items, world => attemptsItems host scope items world
  | .object _ entries, world => attemptsEntries host scope entries world
  | .index _ subject place, world =>
      subject.attempts host scope world ++
        Halting.behind (subject.eval host scope) (fun value after =>
          match value with
          | .list _ => place.attempts host scope after
          | _ => []) world
  | .member _ subject _, world => subject.attempts host scope world
termination_by structural e => e

/-- The calls that evaluating the expressions one after the other attempts. -/
def attemptsItems (host : Host σ) (scope : Scope) : List Expr → World σ → List Attempt
  | [], _ => []
  | e :: rest, world =>
      e.attempts host scope world ++
        Halting.behind (e.eval host scope) (fun _ => attemptsItems host scope rest) world
termination_by structural items => items

/-- The calls that evaluating the named expressions one after the other attempts. -/
def attemptsEntries (host : Host σ) (scope : Scope) :
    List (String × Expr) → World σ → List Attempt
  | [], _ => []
  | (_, e) :: rest, world =>
      e.attempts host scope world ++
        Halting.behind (e.eval host scope) (fun _ => attemptsEntries host scope rest) world
termination_by structural entries => entries

end

theorem attempts_tool {host : Host σ} {name : String} {tool : Tool σ}
    (htool : host.tool? name = some tool) (scope : Scope) (pos : Position)
    (args : List (String × Expr)) :
    (Expr.tool pos name args).attempts host scope = fun world =>
      attemptsEntries host scope args world ++
        Halting.behind (evalEntries host scope args)
          (fun values _ => [⟨pos, name, values⟩]) world := by
  funext world
  simp only [attempts, htool]

/-- The calls that evaluating the expression in the scope of the machine attempts. -/
def attempted (host : Host σ) (e : Expr) (machine : Machine σ) : List Attempt :=
  e.attempts host machine.scope machine.world

end Expr

/-- What a body lists in a frame that binds one name. -/
def Exec.listInFrame (name : String) (value : Value) (list : Machine σ → List τ)
    (machine : Machine σ) : List τ :=
  list { machine with scope := machine.scope.push.set name value }

/-- What the turns of a loop list, one after the other. -/
def Exec.listEach (name : String) (body : Exec σ Unit) (list : Machine σ → List τ) :
    List Value → Machine σ → List τ
  | [], _ => []
  | value :: rest, machine =>
      listInFrame name value list machine ++
        Halting.behind (inFrame name value body) (fun _ => listEach name body list rest) machine

namespace Stmt

mutual

/-- The calls that executing the statement attempts. -/
def attempts (host : Host σ) : Stmt → Machine σ → List Attempt
  | .bind _ _ e, machine | .expr _ e, machine => e.attempted host machine
  | .call pos tool args, machine => (Expr.tool pos tool args).attempted host machine
  | .branch _ condition yes none, machine =>
      condition.attempted host machine ++
        Halting.behind (condition.evaluate host) (fun value after =>
          match value with
          | .bool true => attemptsBlock host yes after
          | _ => []) machine
  | .branch _ condition yes (some no), machine =>
      condition.attempted host machine ++
        Halting.behind (condition.evaluate host) (fun value after =>
          match value with
          | .bool true => attemptsBlock host yes after
          | .bool false => attemptsBlock host no after
          | _ => []) machine
  | .each _ name items body, machine =>
      items.attempted host machine ++
        Halting.behind (items.evaluate host) (fun value after =>
          match value with
          | .list values =>
              Exec.listEach name (execBlock host body) (attemptsBlock host body) values after
          | _ => []) machine
termination_by structural stmt => stmt

/-- The calls that executing the statements one after the other attempts. -/
def attemptsBlock (host : Host σ) : List Stmt → Machine σ → List Attempt
  | [], _ => []
  | stmt :: rest, machine =>
      stmt.attempts host machine ++
        Halting.behind (stmt.exec host) (fun _ => attemptsBlock host rest) machine
termination_by structural stmts => stmts

end

theorem attempts_branch (host : Host σ) (pos : Position) (condition : Expr) (yes : List Stmt)
    (no : Option (List Stmt)) (machine : Machine σ) :
    (Stmt.branch pos condition yes no).attempts host machine =
      condition.attempted host machine ++
        Halting.behind (condition.evaluate host) (fun value after =>
          match chosen yes no value with
          | some block => attemptsBlock host block after
          | none => []) machine := by
  cases no with
  | none =>
      refine congrArg (_ ++ Halting.behind _ · machine) (funext fun value => ?_)
      rcases value with _ | (_ | _) | _ | _ | _ | _ <;> rfl
  | some no =>
      refine congrArg (_ ++ Halting.behind _ · machine) (funext fun value => ?_)
      rcases value with _ | (_ | _) | _ | _ | _ | _ <;> rfl

end Stmt

/-- The calls that a run of the script attempts. -/
def Script.attempts (host : Host σ) (polls : Nat) (context : Context σ) (script : Script) :
    List Attempt :=
  match polls with
  | 0 => []
  | patience + 1 => Stmt.attemptsBlock host script.statements (context.machine patience)

/-- Which of the attempts are made, and how the computation ends if one is not: the last one is
turned away, and the result says why. -/
inductive Made (host : Host σ) : List Attempt → List Attempt → Except Halt α → Prop
  | all {attempts : List Attempt} {result : Except Halt α}
      (h : ∀ attempt ∈ attempts, host.Checks attempt none) : Made host attempts attempts result
  | allButLast {made : List Attempt} {last : Attempt} {misfit : Misfit}
      (h : ∀ attempt ∈ made, host.Checks attempt none) (hlast : host.Checks last (some misfit)) :
      Made host (made ++ [last]) made
        (.error (.failed ((Cause.toolArgument last.tool misfit.message).located last.position)))

namespace Made

variable {host : Host σ} {attempts made rest more : List Attempt}

/-- Where a computation halts, a sequence that it begins halts too. -/
theorem halted {halt : Halt} (h : Made host attempts made (.error halt : Except Halt α)) :
    Made host attempts made (.error halt : Except Halt β) := by
  cases h with
  | all h => exact .all h
  | allButLast h hlast => exact .allButLast h hlast

/-- Behind a result all attempts so far are made. -/
theorem append {a : α} {result : Except Halt β}
    (h : Made host attempts made (.ok a : Except Halt α)) (hrest : Made host rest more result) :
    Made host (attempts ++ rest) (made ++ more) result := by
  cases h with
  | all h =>
      have hboth {more : List Attempt} (hmore : ∀ attempt ∈ more, host.Checks attempt none) :
          ∀ attempt ∈ attempts ++ more, host.Checks attempt none := fun attempt hattempt =>
        (List.mem_append.1 hattempt).elim (h attempt) (hmore attempt)
      cases hrest with
      | all hrest => exact .all (hboth hrest)
      | allButLast hmore hlast =>
          rw [← List.append_assoc]
          exact .allButLast (hboth hmore) hlast

theorem eq_of_ok {a : α} (h : Made host attempts made (.ok a : Except Halt α)) :
    made = attempts := by
  cases h with
  | all _ => rfl

end Made

/-- From every state the computation attempts the listed calls. It records those that are made
and nothing else, and the tools remember exactly these. -/
def Attempts (host : Host σ) (view : S → World σ) (x : Halting S α)
    (attempts : S → List Attempt) : Prop :=
  ∀ s, ∃ made, Made host (attempts s) made (x s).1 ∧
    Event.toolCalls (view (x s).2).events =
      Event.toolCalls (view s).events ++ made.map Attempt.call ∧
    (view (x s).2).memory = (made.map Attempt.call).foldl host.remember (view s).memory

namespace Attempts

variable {host : Host σ} {view : S → World σ}

/-- A computation that neither calls nor changes what tools remember attempts nothing. -/
theorem quiet {x : Halting S α}
    (hcalls : ∀ s, Event.toolCalls (view (x s).2).events = Event.toolCalls (view s).events)
    (hmemory : ∀ s, (view (x s).2).memory = (view s).memory) :
    Attempts host view x (fun _ => []) :=
  fun s => ⟨[], .all nofun, (hcalls s).trans (List.append_nil _).symm, hmemory s⟩

theorem still {x : Halting S α} (h : ∀ s, (x s).2 = s) : Attempts host view x (fun _ => []) :=
  quiet (fun s => by rw [h s]) (fun s => by rw [h s])

theorem pure (a : α) : Attempts host view (Pure.pure a : Halting S α) (fun _ => []) :=
  still fun _ => rfl

theorem fails (halt : Halt) : Attempts host view (throw halt : Halting S α) (fun _ => []) :=
  still fun _ => rfl

/-- A sequence attempts what its first part does, and then what goes on behind that. -/
theorem bind {x : Halting S α} {f : α → Halting S β} {p : S → List Attempt}
    {next : α → S → List Attempt} (hx : Attempts host view x p)
    (hf : ∀ a, Attempts host view (f a) (next a)) :
    Attempts host view (x >>= f) (fun s => p s ++ Halting.behind x next s) := by
  intro s
  obtain ⟨made, hmade, hcalls, hmemory⟩ := hx s
  simp only [Halting.bind_apply, Halting.behind]
  generalize x s = out at hmade hcalls hmemory ⊢
  obtain ⟨result, t⟩ := out
  cases result with
  | error halt =>
      rw [List.append_nil]
      exact ⟨made, hmade.halted, hcalls, hmemory⟩
  | ok a =>
      obtain ⟨made', hmade', hcalls', hmemory'⟩ := hf a t
      refine ⟨made ++ made', hmade.append hmade', ?_, ?_⟩
      · simp only [hcalls', hcalls, List.map_append, List.append_assoc]
      · simp only [hmemory', hmemory, List.map_append, List.foldl_append]

theorem bind_idle {x : Halting S α} {f : α → Halting S β} {p : S → List Attempt}
    (hx : Attempts host view x p) (hf : ∀ a, Attempts host view (f a) (fun _ => [])) :
    Attempts host view (x >>= f) p := by
  have h := hx.bind hf
  simpa only [Halting.behind_nil, List.append_nil] using h

/-- Behind a result the tools remember all attempts. -/
theorem remembered {x : Halting S α} {list : S → List Attempt} (h : Attempts host view x list)
    {s t : S} {a : α} (hx : x s = (.ok a, t)) :
    (view t).memory = ((list s).map Attempt.call).foldl host.remember (view s).memory := by
  obtain ⟨made, hmade, -, hmemory⟩ := h s
  rw [hx] at hmade hmemory
  rw [← hmade.eq_of_ok]
  exact hmemory

end Attempts

section Expressions

variable {host : Host σ}

/-- Calling a tool is one attempt. -/
theorem Attempts.invoke {name : String} {tool : Tool σ} (htool : host.tool? name = some tool)
    (pos : Position) (args : Arguments) :
    Attempts host id (Run.invoke pos name tool args) (fun _ => [⟨pos, name, args⟩]) := by
  intro world
  cases hfits : tool.misfit? args with
  | some misfit =>
      rw [Run.invoke_misfit hfits]
      have hnone : ∀ attempt ∈ ([] : List Attempt), host.Checks attempt none := nofun
      exact ⟨[], .allButLast hnone ⟨tool, htool, hfits⟩, (List.append_nil _).symm, rfl⟩
  | none =>
      have hafter : Event.toolCalls (Run.invoke pos name tool args world).2.events =
            Event.toolCalls world.events ++ [(name, args)] ∧
          (Run.invoke pos name tool args world).2.memory = (tool.run args world.memory).2 := by
        rw [Run.invoke_apply hfits]
        have hcalled : Event.toolCalls (Run.called name tool args world).events =
            Event.toolCalls world.events ++ [(name, args)] := List.filterMap_append
        split
        · exact ⟨hcalled, rfl⟩
        · split
          · exact ⟨hcalled, rfl⟩
          · exact ⟨hcalled, rfl⟩
      refine ⟨[⟨pos, name, args⟩], .all fun attempt hattempt => ?_, hafter.1, ?_⟩
      · obtain rfl := List.mem_singleton.1 hattempt
        exact ⟨tool, htool, hfits⟩
      · exact hafter.2.trans (by simp [Attempt.call, Host.remember, htool])

theorem Attempts.ofExcept (pos : Position) (result : Except Cause α) :
    Attempts host id (Run.ofExcept pos result : Run σ α) (fun _ => []) := by
  cases result with
  | ok a => exact .pure a
  | error cause => exact .fails _

/-- Built-in functions call no tool. -/
theorem Attempts.callNamed (pos : Position) (name : String) (args : List Value) :
    Attempts host id (Run.callNamed host pos name args) (fun _ => []) := by
  have hbuiltin (builtin : Builtin) (world : World σ) :
      Event.toolCalls (builtin.call host args world).2.events = Event.toolCalls world.events ∧
        (builtin.call host args world).2.memory = world.memory := by
    have hresult (result : Except Cause Value) (world : World σ) :
        ((Builtin.ofExcept result : Run σ Value) world).2 = world := by
      cases result <;> rfl
    unfold Builtin.call
    split
    · have hread : Run.readClock host world =
          (.ok (host.clock world.readings), { world with readings := world.readings + 1 }) := rfl
      rw [Halting.bind_ok hread, hresult]
      exact ⟨rfl, rfl⟩
    · rw [hresult]
      exact ⟨rfl, rfl⟩
    · exact ⟨List.filterMap_append.trans (List.append_nil _), rfl⟩
    · rw [hresult]
      exact ⟨rfl, rfl⟩
  unfold Run.callNamed
  cases Builtin.ofName? name with
  | none => exact .fails _
  | some builtin =>
      have hplaced (world : World σ) :
          (Run.withPosition pos (builtin.call host args) world).2 =
            (builtin.call host args world).2 := by
        rw [Run.withPosition_apply]
        split <;> simp_all
      refine .quiet (fun world => ?_) (fun world => ?_)
      · simp only [id, hplaced, (hbuiltin builtin world).1]
      · simp only [id, hplaced, (hbuiltin builtin world).2]

namespace Expr

variable (host) (scope : Scope)

mutual

theorem attempts_eval (e : Expr) :
    Attempts host id (e.eval host scope) (e.attempts host scope) := by
  cases e with
  | literal pos value => exact .pure value
  | ref pos name =>
      simp only [eval]
      split
      · exact .pure _
      · exact .fails _
  | binary pos op a b =>
      exact (attempts_eval a).bind fun _ => (attempts_eval b).bind_idle fun _ => .ofExcept _ _
  | unary pos op a => exact (attempts_eval a).bind_idle fun _ => .ofExcept _ _
  | apply pos name args => exact (attempts_evalItems args).bind_idle fun _ => .callNamed _ _ _
  | tool pos name args =>
      cases htool : host.tool? name with
      | none =>
          have hnone : attempts host scope (.tool pos name args) = fun _ => [] := by
            funext world
            simp only [attempts, htool]
          simp only [eval, htool, hnone]
          exact .fails _
      | some tool =>
          simp only [eval, htool, attempts_tool htool]
          exact (attempts_evalEntries args).bind fun _ => .invoke htool pos _
  | list pos items => exact (attempts_evalItems items).bind_idle fun _ => .pure _
  | object pos entries => exact (attempts_evalEntries entries).bind_idle fun _ => .pure _
  | index pos a b =>
      refine (attempts_eval a).bind fun value => ?_
      cases value with
      | list items => exact (attempts_eval b).bind_idle fun _ => .ofExcept _ _
      | null | bool | number | string | object => exact .fails _
  | member pos a property =>
      refine (attempts_eval a).bind_idle fun value => ?_
      cases value with
      | object entries => exact .ofExcept _ _
      | null | bool | number | string | list => exact .fails _

theorem attempts_evalItems (items : List Expr) :
    Attempts host id (evalItems host scope items) (attemptsItems host scope items) := by
  cases items with
  | nil => exact .pure []
  | cons e rest =>
      exact (attempts_eval e).bind fun _ => (attempts_evalItems rest).bind_idle fun _ => .pure _

theorem attempts_evalEntries (entries : List (String × Expr)) :
    Attempts host id (evalEntries host scope entries) (attemptsEntries host scope entries) := by
  cases entries with
  | nil => exact .pure []
  | cons entry rest =>
      exact (attempts_eval entry.2).bind fun _ =>
        (attempts_evalEntries rest).bind_idle fun _ => .pure _

end

theorem attempts_evaluate (e : Expr) :
    Attempts host Machine.world (e.evaluate host) (e.attempted host) :=
  fun machine => e.attempts_eval host machine.scope machine.world

end Expr

end Expressions

section Statements

variable (host : Host σ)

section Loops

variable {host : Host σ} {body : Exec σ Unit} {list : Machine σ → List Attempt}

theorem Attempts.inFrame (h : Attempts host Machine.world body list) (name : String)
    (value : Value) : Attempts host Machine.world (Exec.inFrame name value body)
      (Exec.listInFrame name value list) :=
  fun machine => h { machine with scope := machine.scope.push.set name value }

theorem Attempts.forEach (h : Attempts host Machine.world body list) (name : String)
    (values : List Value) : Attempts host Machine.world (Exec.forEach name body values)
      (Exec.listEach name body list values) := by
  induction values with
  | nil => exact .pure ()
  | cons value rest ih => exact (h.inFrame name value).bind fun _ => ih

end Loops

namespace Stmt

mutual

theorem attempts_exec (stmt : Stmt) :
    Attempts host Machine.world (stmt.exec host) (stmt.attempts host) := by
  cases stmt with
  | bind pos name e =>
      exact (e.attempts_evaluate host).bind_idle fun _ => .quiet (fun _ => rfl) fun _ => rfl
  | call pos tool args =>
      exact ((Expr.tool pos tool args).attempts_evaluate host).bind_idle fun _ => .pure ()
  | branch pos e yes no =>
      rw [exec_branch, funext (attempts_branch host pos e yes no)]
      refine (e.attempts_evaluate host).bind fun value => ?_
      cases hchosen : chosen yes no value with
      | none => exact .fails _
      | some block =>
          have hsize := sizeOf_chosen hchosen
          exact attempts_execBlock block
  | each pos name e body =>
      refine (e.attempts_evaluate host).bind fun value => ?_
      cases value with
      | list values => exact (attempts_execBlock body).forEach name values
      | null | bool | number | string | object => exact .fails _
  | expr pos e => exact (e.attempts_evaluate host).bind_idle fun _ => .pure ()
termination_by sizeOf stmt

theorem attempts_execBlock (stmts : List Stmt) :
    Attempts host Machine.world (execBlock host stmts) (attemptsBlock host stmts) := by
  cases stmts with
  | nil => exact .pure ()
  | cons stmt rest => exact (attempts_exec stmt).bind fun _ => attempts_execBlock rest
termination_by sizeOf stmts

end

end Stmt

end Statements

end ToolScript
