/-
  BlockLang.Backend

  What can be done with a program: it is carried out, or rendered as text.
-/
import BlockLang.Eval.Program
import BlockLang.Rendering
import BlockLang.Parser.Program

namespace BlockLang

/-- A way to use a program. -/
inductive Backend where
  | interpreter
  | renderer
  deriving DecidableEq

namespace Backend

/-- The name of a backend for users. -/
def name : Backend → String
  | interpreter => "interpreter"
  | renderer => "transpiler"

/-- All backends. -/
def all : List Backend := [interpreter, renderer]

/-- The backend of a name. -/
def ofName? (name : String) : Option Backend := all.find? (·.name == name)

/-- What is said when no backend has a name. -/
def unknownMessage (name : String) : String :=
  let known := String.intercalate ", " (all.map Backend.name)
  s!"Unknown backend '{name}' (expected one of: {known})"

theorem ofName?_name (b : Backend) : ofName? b.name = some b := by
  cases b <;> decide

end Backend

/-- What comes of using a program. -/
inductive Response where
  | output (text : String)
  | runFailure (error : EvalError) (output : String)
  | renderFailure (error : RenderError)
  /-- The tree and the table disagree on the method bodies. -/
  | mismatchedBodies
  | outOfFuel
  deriving DecidableEq

/-- What is said when tree and table disagree on the method bodies. -/
def mismatchedBodiesMessage : String :=
  "Method bodies in the syntax tree do not match the scope table"

/-- Carries a program out. -/
def Parsed.interpret (p : Parsed) (limit : Option Nat) (fuel : Nat) : Response :=
  match p.prepare? limit with
  | none => .mismatchedBodies
  | some e =>
    match e.outcome fuel with
    | .finished output => .output output
    | .failed error output => .runFailure error output
    | .outOfFuel => .outOfFuel

/-- Renders a program. -/
def Parsed.renderText (p : Parsed) : Response :=
  match renderProgram p.items with
  | .ok text => .output text
  | .error e => .renderFailure e

/-- Uses a program. -/
def Backend.apply (b : Backend) (limit : Option Nat) (fuel : Nat) (p : Parsed) : Response :=
  match b with
  | interpreter => p.interpret limit fuel
  | renderer => p.renderText

end BlockLang
