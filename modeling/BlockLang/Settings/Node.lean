/-
  BlockLang.Settings.Node

  Settings documents as trees of scalars and mappings.
-/
import BlockLang.Settings.Mark

namespace BlockLang.Settings

/-- A part of a document. -/
inductive Node where
  | scalar (text : String) (plain : Bool)
  | mapping (entries : List (Node × Node))

namespace Node

/-- What stands where a key or a value is left out. -/
def blank : Node := scalar "" true

end Node

/-- Whether an entry of a block is left out in front of these marks. -/
def omittedInBlock : List Mark → Bool
  | .key :: _ => true
  | .value :: _ => true
  | .blockEnd :: _ => true
  | _ => false

/-- Whether a key between braces is left out in front of these marks. -/
def omittedKeyInFlow : List Mark → Bool
  | .value :: _ => true
  | .flowEntry :: _ => true
  | .flowEnd :: _ => true
  | _ => false

/-- Whether a value between braces is left out in front of these marks. -/
def omittedValueInFlow : List Mark → Bool
  | .flowEntry :: _ => true
  | .flowEnd :: _ => true
  | _ => false

/-- A node read off some marks, and the marks behind it. -/
abbrev NodeReader := List Mark → Except Malformed (Node × List Mark)

/-- Reads a node unless it is left out. -/
def readUnless (omitted : List Mark → Bool) (read : NodeReader) : NodeReader := fun marks =>
  if omitted marks then .ok (.blank, marks) else read marks

/-- Reads the value of an entry, which may lack its mark too. -/
def readValue (omitted : List Mark → Bool) (read : NodeReader) : NodeReader
  | .value :: marks => readUnless omitted read marks
  | marks => .ok (.blank, marks)

/-- Reads the entries of a block behind its start.  There are at most `budget`. -/
def readBlock (read : NodeReader) : Nat → List Mark →
    Except Malformed (List (Node × Node) × List Mark)
  | _, .blockEnd :: marks => .ok ([], marks)
  | budget + 1, .key :: marks => do
    let (key, marks) ← readUnless omittedInBlock read marks
    let (value, marks) ← readValue omittedInBlock read marks
    let (entries, marks) ← readBlock read budget marks
    return ((key, value) :: entries, marks)
  | _, _ => .error .unexpectedStructure

/-- Reads one entry between braces. -/
def readFlowEntry (read : NodeReader) : List Mark → Except Malformed ((Node × Node) × List Mark)
  | .key :: marks => do
    let (key, marks) ← readUnless omittedKeyInFlow read marks
    let (value, marks) ← readValue omittedValueInFlow read marks
    return ((key, value), marks)
  | marks => do
    let (key, marks) ← read marks
    return ((key, .blank), marks)

/-- Reads the entries between braces behind the first of them.  There are at most
    `budget`. -/
def readFlowRest (read : NodeReader) : Nat → List Mark →
    Except Malformed (List (Node × Node) × List Mark)
  | _, .flowEnd :: marks => .ok ([], marks)
  | _, .flowEntry :: .flowEnd :: marks => .ok ([], marks)
  | budget + 1, .flowEntry :: marks => do
    let (entry, marks) ← readFlowEntry read marks
    let (entries, marks) ← readFlowRest read budget marks
    return (entry :: entries, marks)
  | _, _ => .error .unexpectedStructure

/-- Reads the entries between braces. -/
def readFlow (read : NodeReader) (budget : Nat) :
    List Mark → Except Malformed (List (Node × Node) × List Mark)
  | .flowEnd :: marks => .ok ([], marks)
  | marks => do
    let (entry, marks) ← readFlowEntry read marks
    let (entries, marks) ← readFlowRest read budget marks
    return (entry :: entries, marks)

/-- Reads a node.  A block is possible outside of braces only.  Nodes stand at most
    `budget` deep inside one another. -/
def readNode : Nat → Bool → NodeReader
  | _, _, .scalar text plain :: marks => .ok (.scalar text plain, marks)
  | budget + 1, _, .flowStart :: marks => do
    let (entries, marks) ← readFlow (readNode budget false) budget marks
    return (.mapping entries, marks)
  | budget + 1, true, .blockStart :: marks => do
    let (entries, marks) ← readBlock (readNode budget true) budget marks
    return (.mapping entries, marks)
  | _, _, _ => .error .unexpectedStructure

/-- Reads the content of a document behind the mark that starts it. -/
def readContent (marks : List Mark) : Except Malformed (Node × List Mark) :=
  match marks with
  | [] => .ok (.blank, [])
  | .documentStart :: _ => .ok (.blank, marks)
  | .documentEnd :: _ => .ok (.blank, marks)
  | _ => readNode marks.length true marks

/-- The tree of a text that holds one document, or none. -/
def documentOf? (text : String) : Except Malformed (Option Node) := do
  match ← marksOf text with
  | [] => return none
  | marks =>
    let (node, rest) ← match marks with
      | .version :: .documentStart :: marks => readContent marks
      | .documentStart :: marks => readContent marks
      | marks => readNode marks.length true marks
    match rest.dropWhile (· == .documentEnd) with
    | [] => return some node
    | .documentStart :: _ => throw .severalDocuments
    | _ => throw .unexpectedStructure

end BlockLang.Settings
