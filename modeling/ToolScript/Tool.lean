import ToolScript.Value

/-!
# Tools

A tool is called with named arguments. It may have a schema; arguments that do not
fit it are turned away before the tool sees them. A tool may keep the run waiting for
some number of turns, or for ever, before it answers. What tools remember between
calls is a state of the caller's choice.
-/

namespace ToolScript

/-- The named arguments of a call. -/
abbrev Arguments := Dict Value

/-- One argument that a schema allows. -/
structure Parameter where
  name : String
  type : ValueType
  required : Bool
deriving DecidableEq, Repr

/-- The arguments that a tool takes. -/
structure Schema where
  parameters : List Parameter
deriving DecidableEq, Repr

/-- How arguments fail to fit a schema. -/
inductive Misfit where
  | unknown (name : String)
  | missing (name : String)
  | mismatch (name : String) (expected found : ValueType)
deriving DecidableEq, Repr

/-- A misfit in words. -/
def Misfit.message : Misfit → String
  | .unknown name => "unknown argument '" ++ name ++ "'"
  | .missing name => "missing required argument '" ++ name ++ "'"
  | .mismatch name expected found =>
      "argument '" ++ name ++ "' expected " ++ expected.name ++ ", found " ++ found.name

/-- How the arguments fail to give one parameter what it asks for. -/
def Parameter.misfit? (parameter : Parameter) (args : Arguments) : Option Misfit :=
  match Dict.get? args parameter.name with
  | none => if parameter.required then some (.missing parameter.name) else none
  | some value =>
      if parameter.type.accepts value then none
      else some (.mismatch parameter.name parameter.type value.type)

/-- Whether a schema has a parameter with the given name. -/
def Schema.declares (schema : Schema) (name : String) : Bool :=
  schema.parameters.any fun parameter => parameter.name = name

/-- The first misfit: an argument that no parameter declares comes before a parameter
that does not get what it asks for. -/
def Schema.misfit? (schema : Schema) (args : Arguments) : Option Misfit :=
  match (Dict.keys args).find? fun name => !schema.declares name with
  | some name => some (.unknown name)
  | none => schema.parameters.findSome? fun parameter => parameter.misfit? args

/-- How a tool declines: it turns the arguments away, or it fails at its work. -/
inductive Refusal where
  | rejected (message : String)
  | failed (message : String)
deriving DecidableEq, Repr

/-- The answer of a tool, and how many turns it takes to come; `none` means that it
never comes. -/
structure Reply where
  turns : Option Nat
  result : Except Refusal Value

/-- A tool whose memory is a part of `σ`. -/
structure Tool (σ : Type) where
  schema : Option Schema
  run : Arguments → σ → Reply × σ

/-- The first misfit between the arguments and the schema of a tool, if it has one. -/
def Tool.misfit? {σ : Type} (tool : Tool σ) (args : Arguments) : Option Misfit :=
  tool.schema.bind fun schema => schema.misfit? args

/-- Tools under names. A name that is registered again keeps its place and gets the
new tool. -/
structure ToolSet (σ : Type) where
  tools : Dict (Tool σ)

namespace ToolSet

variable {σ : Type}

/-- No tools. -/
def empty : ToolSet σ :=
  ⟨[]⟩

/-- Puts a tool under a name. -/
def register (set : ToolSet σ) (name : String) (tool : Tool σ) : ToolSet σ :=
  ⟨Dict.insert set.tools name tool⟩

/-- The tool under a name. -/
def find? (set : ToolSet σ) (name : String) : Option (Tool σ) :=
  Dict.get? set.tools name

/-- The names in the order of their first registration. -/
def names (set : ToolSet σ) : List String :=
  Dict.keys set.tools

end ToolSet

end ToolScript
