import ToolScript.Grammar.Statement
import ToolScript.Run.Exec

/-!
# Running source texts

A source text is parsed and then run. A session runs texts one after the other in one
scope; the tools keep their memory, and the printed texts pile up until they are taken.
-/

namespace ToolScript

variable {σ : Type}

/-- Runs what was parsed, or fails as the parser did, for at most the given number of
polls. -/
def Script.runParsed (host : Host σ) (polls : Nat) (context : Context σ)
    (parsed : Except Failure Script) : Ending σ Unit :=
  match parsed with
  | .ok script => script.execute host polls context
  | .error failure => ⟨.failed failure, context, []⟩

/-- Parses and runs a source text. Parsing is a part of the run: without any poll it does
not take place. -/
def Script.run (host : Host σ) (polls : Nat) (context : Context σ) (source : String) :
    Ending σ Unit :=
  match polls with
  | 0 => ⟨.cancelled, context, []⟩
  | polls => runParsed host polls context (Script.parse source)

/-- Parses an expression and then evaluates it for at most the given number of polls. -/
def Expr.runSource (host : Host σ) (polls : Nat) (context : Context σ) (source : String) :
    Ending σ Value :=
  match Expr.parse source with
  | .ok e => e.run host polls context
  | .error failure => ⟨.failed failure, context, []⟩

/-- A sequence of runs in one scope, with the texts printed and not yet taken. -/
structure Session (σ : Type) where
  context : Context σ
  lines : List String

namespace Session

/-- The session after a run. -/
def after {α : Type} (session : Session σ) (ending : Ending σ α) : Session σ :=
  ⟨ending.context, session.lines ++ Event.printedTexts ending.events⟩

/-- Parses a script and then executes it. -/
def exec (host : Host σ) (polls : Nat) (session : Session σ) (source : String) :
    Ending σ Unit × Session σ :=
  let ending := Script.runParsed host polls session.context (Script.parse source)
  (ending, session.after ending)

/-- Parses an expression and then evaluates it. -/
def eval (host : Host σ) (polls : Nat) (session : Session σ) (source : String) :
    Ending σ Value × Session σ :=
  let ending := Expr.runSource host polls session.context source
  (ending, session.after ending)

/-- Takes the printed texts. -/
def take (session : Session σ) : List String × Session σ :=
  (session.lines, { session with lines := [] })

/-- Changes the scope. -/
def setScope (session : Session σ) (scope : Scope) : Session σ :=
  { session with context := { session.context with scope := scope } }

end Session

end ToolScript
