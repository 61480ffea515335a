/-
  BlockLang.Main

  The command, held with the file system and the standard streams.
-/
import BlockLang.Command.Run

namespace BlockLang.Command

/-- The fault with a number of the operating system, which may come negated, or else
    with a message. -/
def faultOfCode (code : UInt32) (message : String) : FileFault :=
  match min code.toNat (-code).toNat with
  | 2 => .notFound
  | 20 => .notDirectory
  | 21 => .isDirectory
  | 36 => .nameTooLong
  | n => .other s!"{message.capitalize} (os error {n})"

/-- The fault that an error of the file system is. -/
def faultOfError : IO.Error → FileFault
  | .noFileOrDirectory _ code details => faultOfCode code details
  | .inappropriateType _ code details => faultOfCode code details
  | .invalidArgument _ code details => faultOfCode code details
  | .permissionDenied _ code details => faultOfCode code details
  | .resourceExhausted _ code details => faultOfCode code details
  | e => .other (toString e)

/-- Carries out an action on files. -/
def attempt {α : Type} (action : IO α) : IO (Except FileFault α) := do
  try
    return .ok (← action)
  catch e =>
    return .error (faultOfError e)

/-- Carries out an action on the file with a path. -/
def attemptAt {α : Type} (path : String) (action : IO α) : IO (Except FileFault α) :=
  if Path.holdsNul path then return .error .nulInPath else attempt action

/-- Holds a dialogue with the file system. -/
def hold : Dialogue → IO UInt32
  | .done exit => do
    (← IO.getStdout).putStr exit.stdout
    (← IO.getStderr).putStr exit.stderr
    return exit.code.toUInt32
  | .read .standardInput resume => do
    let bytes ← attempt (do (← IO.getStdin).readBinToEnd)
    hold (resume (bytes >>= decodeText))
  | .read (.file path) resume => do
    let bytes ← attemptAt path (IO.FS.readBinFile path)
    hold (resume (bytes >>= decodeText))
  | .write path content resume => do
    let written ← attemptAt path (IO.FS.writeFile path content)
    hold (resume written)

end BlockLang.Command

/-- The command. -/
def main (args : List String) : IO UInt32 :=
  BlockLang.Command.hold (BlockLang.Command.command BlockLang.Command.ampleFuel args)
