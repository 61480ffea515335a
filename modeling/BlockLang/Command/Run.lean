/-
  BlockLang.Command.Run

  The command with a library of its own.

  Settings documents are read by the reader of this project, and failures are shown
  with their causes.
-/
import BlockLang.Command.Basic
import BlockLang.Settings.Document

namespace BlockLang.Command

namespace Failure

/-- One cause stands alone, several are numbered. -/
def causeLines : List String → List String
  | [cause] => ["    " ++ cause]
  | causes => causes.mapIdx fun i cause =>
    let number := i
    s!"    {number}: " ++ cause

/-- What is shown of a failure. -/
def render (f : Failure) : String :=
  let head := "Error: " ++ f.message ++ "\n"
  if f.causes.isEmpty then head
  else head ++ "\nCaused by:\n" ++ String.join ((causeLines f.causes).map (· ++ "\n"))

end Failure

/-- The library of this project. -/
def library : Library := ⟨Settings.readDocument, Failure.render⟩

/-- The command with these arguments and this fuel. -/
def command (fuel : Nat) (args : List String) : Dialogue := commandWith library fuel args

/-- More calls inside one another, or rounds of one loop, than a machine carries
    out. -/
def ampleFuel : Nat := Nat.pow 2 62

end BlockLang.Command
