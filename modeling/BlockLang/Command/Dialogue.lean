/-
  BlockLang.Command.Dialogue

  The command as a dialogue with whoever holds the files.

  The command asks for the content of files and of standard input, asks for files to
  be written, and ends with an exit code and what is shown on the two streams.  It
  can be held with a directory in memory, which makes a pure function of it, or with
  the file system.
-/
import BlockLang.Command.Directory

namespace BlockLang.Command

/-- Where text is read from. -/
inductive Source where
  | file (path : String)
  | standardInput
  deriving DecidableEq

/-- How the command ends. -/
structure Exit where
  code : Nat
  stdout : String
  stderr : String
  deriving DecidableEq

/-- A dialogue. -/
inductive Dialogue where
  | read (source : Source) (resume : Except FileFault String → Dialogue)
  | write (path content : String) (resume : Except FileFault Unit → Dialogue)
  | done (exit : Exit)

/-- The text of bytes, if they are text. -/
def decodeText (bytes : ByteArray) : Except FileFault String :=
  match String.fromUTF8? bytes with
  | some text => .ok text
  | none => .error .invalidText

/-- Holds a dialogue with a directory in memory. -/
def Dialogue.runIn (stdin : ByteArray) (d : Directory) : Dialogue → Exit × Directory
  | .done exit => (exit, d)
  | .read .standardInput resume => (resume (decodeText stdin)).runIn stdin d
  | .read (.file path) resume => (resume (d.read path >>= decodeText)).runIn stdin d
  | .write path content resume =>
    match d.write path content.toUTF8 with
    | .ok d => (resume (.ok ())).runIn stdin d
    | .error fault => (resume (.error fault)).runIn stdin d

end BlockLang.Command
