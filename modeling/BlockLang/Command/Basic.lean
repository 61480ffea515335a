/-
  BlockLang.Command.Basic

  What the command does.

  It reads the settings, looks for the backend, reads the program from a file or from
  standard input, and applies the backend.  Flags count more than settings.  The
  result goes to a file or is shown, and diagnostics are shown on the error stream.

  How a settings document is read and how a failure of the command itself is worded is
  left to a library.
-/
import BlockLang.Backend
import BlockLang.Settings.Basic
import BlockLang.Command.Arguments
import BlockLang.Command.Dialogue

namespace BlockLang.Command

/-- A failure of the command itself, with what caused it, the nearest cause first. -/
structure Failure where
  message : String
  causes : List String := []
  deriving DecidableEq

/-- What the command relies on. -/
structure Library where
  /-- The settings that a document gives, or the wording of what is wrong with it. -/
  readSettings : String → Except String Settings
  /-- What is shown of a failure. -/
  report : Failure → String

/-- The text without the newlines at its end. -/
def trimNewlines (text : String) : String :=
  String.ofList (text.toList.reverse.dropWhile (· == '\n')).reverse

/-- What is shown of a result.  An empty result shows nothing, any other one ends in
    exactly one newline. -/
def shown (output : String) : String :=
  if output = "" then "" else trimNewlines output ++ "\n"

section

variable (library : Library)

/-- Ends the command with a failure. -/
def fail (f : Failure) : Dialogue := .done ⟨1, "", library.report f⟩

/-- Delivers a result and ends with this code and these diagnostics. -/
def deliver (output : String) (path : Option String) (code : Nat) (stderr : String) : Dialogue :=
  match path with
  | none => .done ⟨code, shown output, stderr⟩
  | some path => .write path output fun
    | .ok () => .done ⟨code, "", stderr⟩
    | .error fault => fail library ⟨"Writing " ++ path, [fault.message]⟩

/-- Ends with diagnostics, one a line. -/
def reject (diagnostics : List Diagnostic) : Dialogue :=
  .done ⟨1, "", String.join (diagnostics.map (·.render ++ "\n"))⟩

/-- Ends with what came of using a program. -/
def answer (path : Option String) : Response → Dialogue
  | .output text => deliver library text path 0 ""
  | .runFailure error output => deliver library output path 1 (error.diagnostic.render ++ "\n")
  | .renderFailure error => reject [error.diagnostic]
  | .mismatchedBodies => fail library ⟨mismatchedBodiesMessage, []⟩
  | .outOfFuel => fail library ⟨"Out of fuel", []⟩

/-- Uses a program text. -/
def process (backend : Backend) (limit : Option Nat) (path : Option String) (fuel : Nat)
    (text : String) : Dialogue :=
  match parse text with
  | .error diagnostics => reject diagnostics.entries
  | .ok parsed => answer library path (backend.apply limit fuel parsed)

/-- Reads the program and uses it. -/
def readProgram (input : Option String) (resume : String → Dialogue) : Dialogue :=
  match input with
  | some path => .read (.file path) fun
    | .ok text => resume text
    | .error fault => fail library ⟨"Reading " ++ path, [fault.message]⟩
  | none => .read .standardInput fun
    | .ok text => resume text
    | .error fault => fail library ⟨"Reading stdin", [fault.message]⟩

/-- Reads the settings. -/
def readSettings (config : Option String) (resume : Settings → Dialogue) : Dialogue :=
  match config with
  | none => resume {}
  | some path => .read (.file path) fun
    | .error fault => fail library ⟨"Failed to read config " ++ path, [fault.message]⟩
    | .ok text =>
      match Settings.ofText library.readSettings text with
      | .ok settings => resume settings
      | .error cause => fail library ⟨"In config " ++ path, ["Invalid configuration", cause]⟩

/-- The command with these arguments.  Fuel bounds the depth of calls and the rounds
    of loops of the program. -/
def commandWith (fuel : Nat) (args : List String) : Dialogue :=
  match Arguments.parse args with
  | .error e => fail library ⟨e.message, []⟩
  | .ok a =>
    readSettings library a.config fun settings =>
      let name := (a.backend <|> settings.backend).getD Backend.interpreter.name
      match Backend.ofName? name with
      | none => fail library ⟨Backend.unknownMessage name, []⟩
      | some backend =>
        readProgram library a.input fun text =>
          process library backend settings.loopLimit (a.output <|> settings.output) fuel text

end

end BlockLang.Command
