/-
  BlockLang.Settings.Scalar

  Scalars of a settings document: plain text and quoted text.

  A scalar may go on over several lines.  The line break between two lines of it
  counts as one blank, and empty lines between them count as line breaks.  All line
  breaks are newlines here, apart from the line and paragraph separators, which are
  kept as they are.
-/

namespace BlockLang.Settings

/-- Why a text is no settings document. -/
inductive Malformed where
  | controlCharacter
  | strayCharacter (c : Char)
  | strayTab
  | strayColon
  | strayValue
  | strayKey
  | missingColon
  | unclosedQuote
  | unknownEscape
  | unexpectedStructure
  | severalDocuments
  | badVersion
  deriving DecidableEq

/-- The quote of single-quoted scalars. -/
def apostrophe : Char := Char.ofNat 0x27

/-- Blanks inside a line. -/
def isSpace (c : Char) : Bool := c = ' ' || c = '\t'

/-- Characters that end a line. -/
def isBreak (c : Char) : Bool := c = '\n' || c.toNat = 0x2028 || c.toNat = 0x2029

/-- The mark that tells the byte order of a text. -/
def isByteOrderMark (c : Char) : Bool := c.toNat = 0xFEFF

/-- Whether a text starts with a blank or a line break, or is empty. -/
def startsBlank : List Char → Bool
  | [] => true
  | c :: _ => isSpace c || isBreak c

/-- Whether a line consists of the mark that starts or ends a document. -/
def atDocumentMark : List Char → Bool
  | '-' :: '-' :: '-' :: rest => startsBlank rest
  | '.' :: '.' :: '.' :: rest => startsBlank rest
  | _ => false

/-- A place in a document, both numbers counted from zero. -/
structure Place where
  line : Nat
  column : Nat
  deriving DecidableEq

namespace Place

/-- The place behind a character. -/
def next (p : Place) (c : Char) : Place :=
  if isBreak c then ⟨p.line + 1, 0⟩ else ⟨p.line, p.column + 1⟩

end Place

/-! ## Pieces of a scalar -/

/-- The line breaks after the last visible character of a scalar: the first one, if
    it counts, and those after it, the latest first. -/
structure Breaks where
  first : Option Char
  more : List Char

/-- A scalar that is being read: its characters, the latest first, and the blanks
    and line breaks behind them. -/
structure Draft where
  text : List Char := []
  spaces : List Char := []
  breaks : Option Breaks := none

namespace Draft

/-- What line breaks between two lines count as. -/
def folded (b : Breaks) : List Char :=
  match b.first with
  | some '\n' => if b.more.isEmpty then [' '] else b.more
  | some c => b.more ++ [c]
  | none => b.more

/-- Counts the blanks behind the text as part of it. -/
def settle (p : Draft) : Draft :=
  match p.breaks with
  | some b => { text := folded b ++ p.text }
  | none => { text := p.spaces ++ p.text }

/-- Adds a visible character. -/
def push (p : Draft) (c : Char) : Draft :=
  let p := p.settle
  { p with text := c :: p.text }

/-- Adds a blank. -/
def pushSpace (p : Draft) (c : Char) : Draft :=
  if p.breaks.isSome then p else { p with spaces := c :: p.spaces }

/-- Adds a line break. -/
def pushBreak (p : Draft) (c : Char) : Draft :=
  match p.breaks with
  | some b => { p with breaks := some { b with more := c :: b.more } }
  | none => { p with spaces := [], breaks := some ⟨some c, []⟩ }

/-- Whether a blank stands behind the text. -/
def afterBlank (p : Draft) : Bool := p.breaks.isSome || !p.spaces.isEmpty

/-- The text read so far. -/
def toString (p : Draft) : String := String.ofList p.text.reverse

end Draft

/-- A scalar and what stands behind it. -/
structure Scanned where
  text : String
  place : Place
  rest : List Char
  /-- Whether the scalar was left at a line break. -/
  broken : Bool

/-! ## Plain scalars -/

/-- Characters that have a meaning of their own between braces. -/
def isFlowMark (c : Char) : Bool := c ∈ [',', '[', ']', '{', '}']

/-- Reads a plain scalar.  Outside of braces its lines stand at column `least` or
    behind it. -/
def scanPlain (inFlow : Bool) (least : Nat) (p : Draft) (place : Place) :
    List Char → Except Malformed Scanned
  | [] => .ok ⟨p.toString, place, [], p.breaks.isSome⟩
  | c :: cs =>
    if isSpace c then
      if p.breaks.isSome && place.column < least && c = '\t' then .error .strayTab
      else scanPlain inFlow least (p.pushSpace c) (place.next c) cs
    else if isBreak c then scanPlain inFlow least (p.pushBreak c) (place.next c) cs
    else
      let leftBehind := p.afterBlank &&
        ((!inFlow && place.column < least) || c = '#' ||
          (place.column = 0 && atDocumentMark (c :: cs)))
      let ended := (c = ':' && startsBlank cs) || (inFlow && isFlowMark c)
      if leftBehind then .ok ⟨p.toString, place, c :: cs, p.breaks.isSome⟩
      else if inFlow && c = ':' && cs.head?.any (fun d => d = '?' || isFlowMark d) then
        .error .strayColon
      else if ended then .ok ⟨p.toString, place, c :: cs, p.breaks.isSome⟩
      else scanPlain inFlow least (p.push c) (place.next c) cs

/-! ## Quoted scalars -/

/-- Where in a quoted scalar a character stands. -/
inductive QuoteState where
  | text
  /-- Behind a backslash. -/
  | escape
  /-- Inside a character number, with this many digits to come. -/
  | digits (left value : Nat)
  /-- Behind a quote that may be doubled. -/
  | quote

/-- The character that a short escape stands for. -/
def shortEscape? : Char → Option Char
  | '0' => some (Char.ofNat 0)
  | 'a' => some (Char.ofNat 0x7)
  | 'b' => some (Char.ofNat 0x8)
  | 't' => some '\t'
  | '\t' => some '\t'
  | 'n' => some '\n'
  | 'v' => some (Char.ofNat 0xB)
  | 'f' => some (Char.ofNat 0xC)
  | 'r' => some '\r'
  | 'e' => some (Char.ofNat 0x1B)
  | ' ' => some ' '
  | '"' => some '"'
  | '/' => some '/'
  | '\\' => some '\\'
  | 'N' => some (Char.ofNat 0x85)
  | '_' => some (Char.ofNat 0xA0)
  | 'L' => some (Char.ofNat 0x2028)
  | 'P' => some (Char.ofNat 0x2029)
  | _ => none

/-- The number of digits behind an escape that gives a character by its number. -/
def escapeDigits? : Char → Option Nat
  | 'x' => some 2
  | 'u' => some 4
  | 'U' => some 8
  | _ => none

/-- The value of a digit in some base up to sixteen. -/
def digitIn? (base : Nat) (c : Char) : Option Nat :=
  let value :=
    if c.isDigit then some (c.toNat - '0'.toNat)
    else if 'a' ≤ c && c ≤ 'f' then some (c.toNat - 'a'.toNat + 10)
    else if 'A' ≤ c && c ≤ 'F' then some (c.toNat - 'A'.toNat + 10)
    else none
  value.filter (· < base)

/-- The character with a number, if there is one. -/
def charOf? (n : Nat) : Option Char :=
  if n.isValidChar then some (Char.ofNat n) else none

/-- Reads a quoted scalar behind its opening quote.  In single quotes a doubled
    quote stands for one; in double quotes a backslash starts an escape, and one at
    the end of a line joins the next line without a blank. -/
def scanQuoted (double : Bool) (state : QuoteState) (p : Draft) (place : Place) :
    List Char → Except Malformed Scanned
  | [] =>
    match state with
    | .quote => .ok ⟨p.toString, place, [], false⟩
    | _ => .error .unclosedQuote
  | c :: cs =>
    match state with
    | .quote =>
      if c = apostrophe then scanQuoted double .text (p.push apostrophe) (place.next c) cs
      else .ok ⟨p.toString, place, c :: cs, false⟩
    | .escape =>
      if isBreak c then
        scanQuoted double .text { p.settle with breaks := some ⟨none, []⟩ } (place.next c) cs
      else match shortEscape? c, escapeDigits? c with
        | some d, _ => scanQuoted double .text (p.push d) (place.next c) cs
        | none, some n => scanQuoted double (.digits n 0) p (place.next c) cs
        | none, none => .error .unknownEscape
    | .digits left value =>
      match digitIn? 16 c with
      | none => .error .unknownEscape
      | some d =>
        let value := 16 * value + d
        if left ≤ 1 then
          match charOf? value with
          | some e => scanQuoted double .text (p.push e) (place.next c) cs
          | none => .error .unknownEscape
        else scanQuoted double (.digits (left - 1) value) p (place.next c) cs
    | .text =>
      if isSpace c then scanQuoted double .text (p.pushSpace c) (place.next c) cs
      else if isBreak c then scanQuoted double .text (p.pushBreak c) (place.next c) cs
      else if place.column = 0 && atDocumentMark (c :: cs) then .error .unclosedQuote
      else if double && c = '\\' then scanQuoted double .escape p.settle (place.next c) cs
      else if double && c = '"' then .ok ⟨p.settle.toString, place.next c, cs, false⟩
      else if !double && c = apostrophe then
        scanQuoted double .quote p.settle (place.next c) cs
      else scanQuoted double .text (p.push c) (place.next c) cs

end BlockLang.Settings
