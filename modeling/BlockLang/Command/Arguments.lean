/-
  BlockLang.Command.Arguments

  The arguments of the command.
-/

namespace BlockLang.Command

/-- What a flag is followed by. -/
inductive Operand where
  | backendName
  | configPath
  | outputPath
  deriving DecidableEq

/-- The words for what a flag is followed by. -/
def Operand.text : Operand → String
  | backendName => "backend name"
  | configPath => "config path"
  | outputPath => "output path"

/-- What can be wrong with arguments. -/
inductive UsageError where
  | missingOperand (operand : Operand) (flag : String)
  | secondInput
  deriving DecidableEq

/-- The wording of what is wrong. -/
def UsageError.message : UsageError → String
  | missingOperand operand flag =>
    let wanted := operand.text
    s!"Missing {wanted} after {flag}"
  | secondInput => "Only one input file is supported"

/-- What the arguments ask for. -/
structure Arguments where
  backend : Option String := none
  config : Option String := none
  output : Option String := none
  input : Option String := none
  deriving DecidableEq

namespace Arguments

/-- What an argument that is a flag is followed by. -/
def operandOf? (arg : String) : Option Operand :=
  if arg = "--backend" || arg = "-b" then some .backendName
  else if arg = "--config" || arg = "-c" then some .configPath
  else if arg = "--output" || arg = "-o" then some .outputPath
  else none

/-- Stores what follows a flag.  The last of several flags counts. -/
def setOperand (a : Arguments) (text : String) : Operand → Arguments
  | .backendName => { a with backend := some text }
  | .configPath => { a with config := some text }
  | .outputPath => { a with output := some text }

/-- Reads arguments from left to right into `a`. -/
def parseInto (a : Arguments) : List String → Except UsageError Arguments
  | [] => .ok a
  | [arg] =>
    match operandOf? arg with
    | some operand => .error (.missingOperand operand arg)
    | none => if a.input.isSome then .error .secondInput else .ok { a with input := some arg }
  | arg :: text :: rest =>
    match operandOf? arg with
    | some operand => parseInto (a.setOperand text operand) rest
    | none =>
      if a.input.isSome then .error .secondInput
      else parseInto { a with input := some arg } (text :: rest)

/-- Reads arguments. -/
def parse (args : List String) : Except UsageError Arguments := parseInto {} args

end Arguments

end BlockLang.Command
