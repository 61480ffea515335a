/-
  BlockLang.Command.Directory

  A directory of files in memory, and what paths lead to in it.

  A path is followed name by name from the directory, or from the root if a slash
  starts it.  Every name but the last has to lead to a directory.  A path may leave
  the directory: the directories around it are there, but nothing else in them is in
  sight, and a file that is written there leaves the directory as it is.
-/

namespace BlockLang.Command

/-- What can go wrong with a file. -/
inductive FileFault where
  | notFound
  | isDirectory
  | notDirectory
  | nameTooLong
  | nulInPath
  | invalidText
  | other (message : String)
  deriving DecidableEq

/-- The wording of a fault. -/
def FileFault.message : FileFault → String
  | notFound => "No such file or directory (os error 2)"
  | isDirectory => "Is a directory (os error 21)"
  | notDirectory => "Not a directory (os error 20)"
  | nameTooLong => "File name too long (os error 36)"
  | nulInPath => "file name contained an unexpected NUL byte"
  | invalidText => "stream did not contain valid UTF-8"
  | other message => message

/-! ## Paths -/

/-- A path, split at its slashes. -/
structure Path where
  /-- Whether a slash starts it. -/
  absolute : Bool
  names : List String
  /-- Whether a slash ends it. -/
  slashed : Bool
  deriving DecidableEq

namespace Path

/-- The number of bytes that a path has to stay below. -/
def sizeLimit : Nat := 4096

/-- The number of bytes that one name can have. -/
def nameLimit : Nat := 255

/-- Whether a text holds the character that no path can hold. -/
def holdsNul (text : String) : Bool := text.toList.contains (Char.ofNat 0)

/-- The path that a text writes. -/
def parse (text : String) : Except FileFault Path :=
  if holdsNul text then .error .nulInPath
  else if text = "" then .error .notFound
  else if sizeLimit ≤ text.utf8ByteSize then .error .nameTooLong
  else .ok ⟨text.startsWith "/", (text.splitOn "/").filter (· != ""), text.endsWith "/"⟩

/-- The last name, unless it is one that always leads to a directory. -/
def lastName? (p : Path) : Option String :=
  p.names.getLast?.filter fun name => name != "." && name != ".."

end Path

/-- A directory on the way of a path: one below the directory at hand, by the names
    down to it, or one around it. -/
inductive Location where
  | below (names : List String)
  | around
  deriving DecidableEq

namespace Location

/-- Where a path starts. -/
def ofPath (p : Path) : Location := if p.absolute then around else below []

/-- The location that holds a location. -/
def up : Location → Location
  | below [] => around
  | below names => below names.dropLast
  | around => around

/-- The location of a name inside a location. -/
def down : Location → String → Location
  | below names, name => below (names ++ [name])
  | around, _ => around

end Location

/-! ## Directories -/

/-- A directory: the names down to each of its files, and the bytes of the file. -/
structure Directory where
  files : List (List String × ByteArray)

/-- What a name leads to. -/
inductive Entry where
  | file (bytes : ByteArray)
  | directory
  | missing

namespace Directory

/-- What names lead to. -/
def entryAt (d : Directory) (names : List String) : Entry :=
  match d.files.find? (·.1 == names) with
  | some (_, bytes) => .file bytes
  | none => if d.files.any fun f => names.isPrefixOf f.1 then .directory else .missing

/-- What a name leads to at a location. -/
def lookup (d : Directory) (place : Location) (name : String) : Except FileFault Entry :=
  if Path.nameLimit < name.utf8ByteSize then .error .nameTooLong
  else match place with
    | .below names => .ok (d.entryAt (names ++ [name]))
    | .around => .ok .missing

/-- Follows names that all have to lead to directories. -/
def enter (d : Directory) (place : Location) : List String → Except FileFault Location
  | [] => .ok place
  | name :: names =>
    if name = "." then d.enter place names
    else if name = ".." then d.enter place.up names
    else match d.lookup place name with
      | .ok .directory => d.enter (place.down name) names
      | .ok (.file _) => .error .notDirectory
      | .ok .missing => .error .notFound
      | .error fault => .error fault

/-- The bytes of a file. -/
def read (d : Directory) (text : String) : Except FileFault ByteArray := do
  let path ← Path.parse text
  let place ← d.enter (.ofPath path) path.names.dropLast
  match path.lastName? with
  | none => throw .isDirectory
  | some name =>
    match ← d.lookup place name with
    | .file bytes => if path.slashed then throw .notDirectory else return bytes
    | .directory => throw .isDirectory
    | .missing => throw .notFound

/-- The directory with a file of these names replaced or added. -/
def put (d : Directory) (names : List String) (bytes : ByteArray) : Directory :=
  ⟨d.files.filter (·.1 != names) ++ [(names, bytes)]⟩

/-- Writes a file.  The directory that holds it has to be there, and a slash behind
    its name asks for a directory. -/
def write (d : Directory) (text : String) (bytes : ByteArray) : Except FileFault Directory := do
  let path ← Path.parse text
  let place ← d.enter (.ofPath path) path.names.dropLast
  match path.lastName? with
  | none => throw .isDirectory
  | some name =>
    if path.slashed then throw .isDirectory
    match ← d.lookup place name, place with
    | .directory, _ => throw .isDirectory
    | _, .below names => return d.put (names ++ [name]) bytes
    | _, .around => return d

/-- The files that are new or different in another directory. -/
def changes (before after : Directory) : List (List String × ByteArray) :=
  after.files.filter fun f =>
    match before.files.find? (·.1 == f.1) with
    | some (_, bytes) => bytes != f.2
    | none => true

end Directory

end BlockLang.Command
