/-
  BlockLang.Settings.Document

  The settings of a run as a document.

  A settings document is a mapping with the keys `backend`, `output` and
  `interpreter`, none of which has to be there.  The value of the last is a mapping
  with the key `max_loop_iterations`.  Other keys and repeated keys are errors.
-/
import BlockLang.Settings.Basic
import BlockLang.Settings.Node

namespace BlockLang

namespace Settings

/-- Why a text does not give settings. -/
inductive Invalid where
  | malformed (cause : Malformed)
  | unknownKey (key : String)
  | repeatedKey (key : String)
  | notAKey
  | notAMapping
  | notAText
  | notANumber
  deriving DecidableEq

/-- The wording of what is wrong with a text. -/
def Invalid.message : Invalid → String
  | malformed .controlCharacter => "control characters are not allowed"
  | malformed (.strayCharacter c) => s!"no value can start with '{c}'"
  | malformed .strayTab => "a tab cannot stand in front of a key"
  | malformed .strayColon => "unexpected ':'"
  | malformed .strayValue => "a mapping cannot start here"
  | malformed .strayKey => "a key cannot stand here"
  | malformed .missingColon => "expected ':' behind a key"
  | malformed .unclosedQuote => "unclosed quote"
  | malformed .unknownEscape => "unknown escape"
  | malformed .unexpectedStructure => "unexpected structure"
  | malformed .severalDocuments => "more than one document"
  | malformed .badVersion => "unknown version"
  | unknownKey key => s!"unknown key '{key}'"
  | repeatedKey key => s!"repeated key '{key}'"
  | notAKey => "a key has to be a text"
  | notAMapping => "expected a mapping"
  | notAText => "expected a text"
  | notANumber => "expected a whole number"

/-- The plain scalars that stand for no value. -/
def isNullWord (text : String) : Bool := text ∈ ["", "~", "null", "Null", "NULL"]

/-- Whether a node stands for no value. -/
def isNull : Node → Bool
  | .scalar text plain => plain && isNullWord text
  | .mapping _ => false

/-- The entries of a mapping.  A node that is left out has none. -/
def entries : Node → Except Invalid (List (Node × Node))
  | .mapping entries => .ok entries
  | .scalar "" true => .ok []
  | .scalar _ _ => .error .notAMapping

/-- An optional text.  Every scalar is a text, numbers too. -/
def optionalText (node : Node) : Except Invalid (Option String) :=
  if isNull node then .ok none
  else match node with
    | .scalar text _ => .ok (some text)
    | .mapping _ => .error .notAText

/-- The number that digits in some base write, if they are digits and there is one. -/
def digitsIn? (base : Nat) : List Char → Option Nat
  | [] => none
  | digits => digits.foldlM (fun n c => (digitIn? base c).map (base * n + ·)) 0

/-- The number that a word writes: digits, with a plus sign in front or not, in base
    sixteen, eight or two behind `0x`, `0o` and `0b`, and otherwise in base ten
    without superfluous zeros. -/
def number? (word : List Char) : Option Nat :=
  let digits := match word with
    | '+' :: digits => digits
    | digits => digits
  match digits with
  | '0' :: 'x' :: digits => digitsIn? 16 digits
  | '0' :: 'o' :: digits => digitsIn? 8 digits
  | '0' :: 'b' :: digits => digitsIn? 2 digits
  | ['0'] => some 0
  | '0' :: _ => none
  | digits => digitsIn? 10 digits

/-- An optional number of at most 64 bits.  Only plain scalars are numbers. -/
def optionalNumber (node : Node) : Except Invalid (Option Nat) :=
  if isNull node then .ok none
  else match node with
    | .scalar text true =>
      match (number? text.toList).filter (· < Nat.pow 2 64) with
      | some n => .ok (some n)
      | none => .error .notANumber
    | _ => .error .notANumber

/-- Reads a mapping entry by entry.  `field` reads the value of a key, if the key is
    known; `seen` holds the keys in front of these entries. -/
def readEntries {α : Type} (field : String → Option (Node → α → Except Invalid α))
    (seen : List String) (settings : α) : List (Node × Node) → Except Invalid α
  | [] => .ok settings
  | (.scalar key _, value) :: rest => do
    let read ← match field key with
      | some read => pure read
      | none => throw (.unknownKey key)
    if key ∈ seen then throw (.repeatedKey key)
    readEntries field (key :: seen) (← read value settings) rest
  | (.mapping _, _) :: _ => .error .notAKey

/-- The keys below `interpreter`. -/
def interpreterField : String → Option (Node → Settings → Except Invalid Settings)
  | "max_loop_iterations" => some fun node s => do
    return { s with loopLimit := ← optionalNumber node }
  | _ => none

/-- The keys of a document. -/
def topField : String → Option (Node → Settings → Except Invalid Settings)
  | "backend" => some fun node s => do
    return { s with backend := ← optionalText node }
  | "output" => some fun node s => do
    return { s with output := ← optionalText node }
  | "interpreter" => some fun node s => do
    readEntries interpreterField [] s (← entries node)
  | _ => none

/-- The settings that a document gives. -/
def ofDocument (text : String) : Except Invalid Settings :=
  match documentOf? text with
  | .error cause => .error (.malformed cause)
  | .ok none => .ok {}
  | .ok (some node) => do readEntries topField [] {} (← entries node)

/-- The settings that a document gives, or the wording of what is wrong with it. -/
def readDocument (text : String) : Except String Settings :=
  (ofDocument text).mapError Invalid.message

/-- The settings that a text gives. -/
def parse (text : String) : Except String Settings := ofText readDocument text

end Settings

end BlockLang
