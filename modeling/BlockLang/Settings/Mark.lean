/-
  BlockLang.Settings.Mark

  A settings document as a row of marks: scalars, and where mappings, keys and
  values start and end.

  A mapping is written in braces or as a block, whose keys all stand at one column.
  A scalar turns out to be a key only when a colon follows it, so the place in front
  of it is remembered until then.
-/
import BlockLang.Settings.Scalar

namespace BlockLang.Settings

/-! ## The version line -/

/-- Reads the digits of one part of a version number, nine at most. -/
def versionPart (cs : List Char) : Except Malformed (Nat × List Char) :=
  let digits := cs.takeWhile Char.isDigit
  if digits.isEmpty || 9 < digits.length then .error .badVersion
  else .ok (digits.foldl (fun n d => 10 * n + (d.toNat - '0'.toNat)) 0, cs.dropWhile Char.isDigit)

/-- Passes blanks and a comment, behind which the line has to end. -/
def skipLineRest (cs : List Char) : Except Malformed (List Char) :=
  match cs.dropWhile isSpace with
  | '#' :: cs => .ok (cs.dropWhile (!isBreak ·))
  | cs => if startsBlank cs then .ok cs else .error .badVersion

/-- Passes the version line behind its percent sign, up to the end of the line.  The
    versions 1.1 and 1.2 are known. -/
def skipVersion : List Char → Except Malformed (List Char)
  | 'Y' :: 'A' :: 'M' :: 'L' :: cs => do
    if !startsBlank cs then throw .badVersion
    match ← versionPart (cs.dropWhile isSpace) with
    | (major, '.' :: cs) =>
      let (minor, cs) ← versionPart cs
      if major = 1 && (minor = 1 || minor = 2) then skipLineRest cs else throw .badVersion
    | _ => throw .badVersion
  | _ => .error .badVersion

/-! ## Marks -/

/-- A mark of a document. -/
inductive Mark where
  /-- The line that names the version of the format. -/
  | version
  | documentStart
  | documentEnd
  | blockStart
  | blockEnd
  | flowStart
  | flowEnd
  | flowEntry
  | key
  | value
  | scalar (text : String) (plain : Bool)
  deriving DecidableEq

/-- A place where a key may have started: the number of marks in front of it, and
    whether nothing but a key can stand there. -/
structure KeyStart where
  index : Nat
  place : Place
  required : Bool

/-- The state of reading marks. -/
structure MarkState where
  rest : List Char
  place : Place := ⟨0, 0⟩
  marks : Array Mark := #[]
  /-- The columns of the open blocks, the innermost first. -/
  blocks : List Nat := []
  /-- The possible key at this level. -/
  candidate : Option KeyStart := none
  /-- The possible keys at the levels around the open braces. -/
  outer : List (Option KeyStart) := []
  /-- Whether a key may start here. -/
  keyAllowed : Bool := true

namespace MarkState

/-- Whether the state is inside of braces. -/
def inFlow (s : MarkState) : Bool := !s.outer.isEmpty

/-- Adds a mark. -/
def push (s : MarkState) (m : Mark) : MarkState := { s with marks := s.marks.push m }

/-- Passes one character. -/
def skip (s : MarkState) : MarkState :=
  match s.rest with
  | [] => s
  | c :: cs => { s with rest := cs, place := s.place.next c }

/-- Passes blanks, comments and line breaks in front of the next mark.  Where a block
    key may start, a tab is not passed.  A byte order mark may start a line, and takes
    a column of it. -/
def skipBlanks (inComment : Bool) (s : MarkState) : List Char → MarkState
  | [] => { s with rest := [] }
  | c :: cs =>
    let next := { s with rest := cs, place := s.place.next c }
    if isBreak c then skipBlanks false { next with keyAllowed := s.keyAllowed || !s.inFlow } cs
    else if inComment then skipBlanks true next cs
    else if c = ' ' || (c = '\t' && (s.inFlow || !s.keyAllowed)) then skipBlanks false next cs
    else if c = '#' then skipBlanks true next cs
    else if isByteOrderMark c && s.place.column = 0 then skipBlanks false next cs
    else { s with rest := c :: cs }

/-- Closes the blocks that the given columns belong to, as long as `close` holds. -/
def closeBlocks (close : Nat → Bool) (s : MarkState) : List Nat → MarkState
  | [] => { s with blocks := [] }
  | column :: columns =>
    if close column then closeBlocks close (s.push .blockEnd) columns
    else { s with blocks := column :: columns }

/-- Closes the blocks that start behind the current column. -/
def unindent (s : MarkState) : MarkState :=
  if s.inFlow then s else s.closeBlocks (s.place.column < ·) s.blocks

/-- Closes all blocks. -/
def unindentAll (s : MarkState) : MarkState :=
  if s.inFlow then s else s.closeBlocks (fun _ => true) s.blocks

/-- Opens a block at a column behind the innermost one, with its mark at `index`. -/
def indent (s : MarkState) (column index : Nat) : MarkState :=
  if !s.inFlow && s.blocks.head?.all (· < column) then
    { s with blocks := column :: s.blocks, marks := s.marks.insertIdxIfInBounds index .blockStart }
  else s

/-- Gives up the possible key at this level. -/
def dropCandidate (s : MarkState) : Except Malformed MarkState :=
  match s.candidate with
  | some k => if k.required then .error .missingColon else .ok { s with candidate := none }
  | none => .ok s

/-- Remembers that a key may start here. -/
def saveCandidate (s : MarkState) : Except Malformed MarkState := do
  if s.keyAllowed then
    let s ← s.dropCandidate
    let required := !s.inFlow && s.blocks.head? == some s.place.column
    return { s with candidate := some ⟨s.marks.size, s.place, required⟩ }
  else
    return s

/-! ## Single marks -/

/-- The mark between documents. -/
def documentMark (s : MarkState) (m : Mark) : Except Malformed MarkState := do
  let s ← s.unindentAll.dropCandidate
  return { s.skip.skip.skip.push m with keyAllowed := false }

/-- A line that names the version of the format. -/
def versionMark (s : MarkState) : Except Malformed MarkState := do
  let s ← s.unindentAll.dropCandidate
  let rest ← skipVersion s.skip.rest
  let length := s.rest.length - rest.length
  let s := { s with rest, place := ⟨s.place.line, s.place.column + length⟩ }
  return { s.push .version with keyAllowed := false }

/-- An opening brace. -/
def openFlow (s : MarkState) : Except Malformed MarkState := do
  let s ← s.saveCandidate
  return { s.skip.push .flowStart with
    outer := s.candidate :: s.outer, candidate := none, keyAllowed := true }

/-- A closing brace. -/
def closeFlow (s : MarkState) : Except Malformed MarkState := do
  let s ← s.dropCandidate
  let s := { s.skip.push .flowEnd with keyAllowed := false }
  match s.outer with
  | k :: outer => return { s with candidate := k, outer }
  | [] => return s

/-- A comma. -/
def nextEntry (s : MarkState) : Except Malformed MarkState := do
  let s ← s.dropCandidate
  return { s.skip.push .flowEntry with keyAllowed := true }

/-- A question mark in front of a key. -/
def explicitKey (s : MarkState) : Except Malformed MarkState := do
  if !s.inFlow && !s.keyAllowed then throw .strayKey
  let s ← (s.indent s.place.column s.marks.size).dropCandidate
  return { s.skip.push .key with keyAllowed := !s.inFlow }

/-- The number of characters from the start of a key to its colon at most. -/
def keyReach : Nat := 1024

/-- Whether a key that started at a place can have its colon here: on the same line
    and within reach. -/
def reachedFrom (s : MarkState) (start : Place) : Bool :=
  start.line == s.place.line && s.place.column ≤ start.column + keyReach

/-- A colon in front of a value.  It makes a key of what stands before it within
    reach. -/
def beginValue (s : MarkState) : Except Malformed MarkState := do
  match s.candidate.filter (s.reachedFrom ·.place) with
  | some k =>
    let s := { s with marks := s.marks.insertIdxIfInBounds k.index .key }
    let s := s.indent k.place.column k.index
    return { s.skip.push .value with candidate := none, keyAllowed := false }
  | none =>
    let s ← s.dropCandidate
    if !s.inFlow && !s.keyAllowed then throw .strayValue
    let s := s.indent s.place.column s.marks.size
    return { s.skip.push .value with keyAllowed := !s.inFlow }

/-- A quoted scalar. -/
def quotedScalar (s : MarkState) (double : Bool) : Except Malformed MarkState := do
  let s ← s.saveCandidate
  let opened := s.skip
  let found ← scanQuoted double .text {} opened.place opened.rest
  return { s.push (.scalar found.text false) with
    rest := found.rest, place := found.place, keyAllowed := false }

/-- A plain scalar. -/
def plainScalar (s : MarkState) : Except Malformed MarkState := do
  let s ← s.saveCandidate
  let least := (s.blocks.head?.map (· + 1)).getD 0
  let found ← scanPlain s.inFlow least {} s.place s.rest
  return { s.push (.scalar found.text true) with
    rest := found.rest, place := found.place, keyAllowed := found.broken }

/-- Characters that no plain scalar starts with, where none of the rules before it
    applies. -/
def isIndicator (c : Char) : Bool :=
  c = apostrophe || c ∈ ['-', '?', ':', ',', '[', ']', '{', '}', '#', '&', '*', '!', '|', '>',
    '"', '%', '@', '\x60']

/-- Reads the mark that starts with `c`, where `cs` follows. -/
def mark (s : MarkState) (c : Char) (cs : List Char) : Except Malformed MarkState :=
  if s.place.column = 0 && c = '%' then s.versionMark
  else if s.place.column = 0 && atDocumentMark (c :: cs) then
    s.documentMark (if c = '-' then .documentStart else .documentEnd)
  else if c = '{' then s.openFlow
  else if c = '}' then s.closeFlow
  else if c = ',' then s.nextEntry
  else if c = '?' && (s.inFlow || startsBlank cs) then s.explicitKey
  else if c = ':' && (s.inFlow || startsBlank cs) then s.beginValue
  else if c = apostrophe then s.quotedScalar false
  else if c = '"' then s.quotedScalar true
  else if !isIndicator c || (c = '-' && !startsBlank cs) || (c ∈ ['?', ':'] && !s.inFlow) then
    if isSpace c then .error .strayTab else s.plainScalar
  else .error (.strayCharacter c)

/-- Reads all marks.  Every mark takes at least one of at most `budget` characters. -/
def readAll : Nat → MarkState → Except Malformed MarkState
  | 0, s => s.unindentAll.dropCandidate
  | budget + 1, s =>
    let s := s.skipBlanks false s.rest
    match s.rest with
    | [] => s.unindentAll.dropCandidate
    | c :: cs => do
      let s ← s.unindent.mark c cs
      readAll budget s

end MarkState

/-! ## Documents -/

/-- Characters that a document may hold. -/
def isAllowed (c : Char) : Bool :=
  let n := c.toNat
  n = 0x9 || n = 0xA || n = 0xD || (0x20 ≤ n && n ≤ 0x7E) || n = 0x85 ||
    (0xA0 ≤ n && n ≤ 0xFFFD) || 0x10000 ≤ n

/-- Makes newlines of all line breaks but the line and paragraph separators. -/
def unifyBreaks : List Char → List Char
  | [] => []
  | '\r' :: '\n' :: cs => '\n' :: unifyBreaks cs
  | c :: cs => (if c = '\r' || c.toNat = 0x85 then '\n' else c) :: unifyBreaks cs

/-- The marks of a document. -/
def marksOf (text : String) : Except Malformed (List Mark) := do
  let chars := text.toList
  if chars.all isAllowed then
    let chars := unifyBreaks chars
    let s ← MarkState.readAll chars.length { rest := chars }
    return s.marks.toList
  else
    throw .controlCharacter

end BlockLang.Settings
