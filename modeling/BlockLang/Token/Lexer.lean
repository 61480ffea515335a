/-
  BlockLang.Token.Lexer

  From a text to its tokens.

  A lexer is a position in a text and the characters from there on.  One step
  passes the blanks and comments in front, takes the longest lexeme that starts
  there, and yields a token or says what is wrong with the lexeme; either way the
  lexeme is passed, so the next step goes on behind it.  At the end of the text
  every step yields an end-of-input token.
-/
import BlockLang.Token.Basic

namespace BlockLang

/-! ## Positions -/

/-- A place in a text: bytes passed, and line and column of the next character. -/
structure Position where
  offset : Nat
  line : Nat
  column : Nat
  deriving DecidableEq, Inhabited

namespace Position

/-- The place of the first character of a text. -/
def origin : Position := ⟨0, 1, 1⟩

/-- The place behind one character. -/
def next (p : Position) (c : Char) : Position :=
  if c = '\n' then ⟨p.offset + c.utf8Size, p.line + 1, 1⟩
  else ⟨p.offset + c.utf8Size, p.line, p.column + 1⟩

/-- The place behind some characters. -/
def after (p : Position) (cs : List Char) : Position := cs.foldl next p

@[simp] theorem after_nil (p : Position) : p.after [] = p := rfl

@[simp] theorem after_cons (p : Position) (c : Char) (cs : List Char) :
    p.after (c :: cs) = (p.next c).after cs := rfl

theorem after_append (p : Position) (cs ds : List Char) :
    p.after (cs ++ ds) = (p.after cs).after ds := by
  simp [after, List.foldl_append]

end Position

/-! ## Faults -/

/-- What can be wrong with a lexeme. -/
inductive LexFault where
  | unexpectedCharacter (c : Char)
  | expectedTypeSeparator
  | invalidNumber (literal : String)
  | unterminatedString
  deriving DecidableEq

/-- A fault and the place where its lexeme starts. -/
structure LexError where
  fault : LexFault
  line : Nat
  column : Nat
  deriving DecidableEq

/-- The wording of a lexical error. -/
def LexError.message (e : LexError) : String :=
  let line := e.line
  let column := e.column
  match e.fault with
  | .unexpectedCharacter c => s!"Unexpected character '{c}' at line {line}, column {column}"
  | .expectedTypeSeparator => s!"Expected '::' at line {line}, column {column}"
  | .invalidNumber literal => s!"Invalid number literal '{literal}' at line {line}"
  | .unterminatedString =>
    s!"Unterminated string literal starting at line {line}, column {column}"

/-! ## Lexemes -/

/-- Blanks separate tokens. -/
def isBlank (c : Char) : Bool := c = ' ' || c = '\t' || c = '\r' || c = '\n'

/-- Characters that start a word. -/
def isWordStart (c : Char) : Bool := c.isAlpha || c = '_'

/-- Characters that go on with a word. -/
def isWordPart (c : Char) : Bool := c.isAlphanum || c = '_'

/-- How a lexeme reads. -/
inductive Reading where
  | token (kind : TokenKind) (literal : Option Value)
  | fault (cause : LexFault)
  deriving DecidableEq

/-- A lexeme at the front of a text, and the text behind it. -/
structure Lexeme where
  reading : Reading
  taken : List Char
  rest : List Char
  deriving DecidableEq

namespace Lexeme

/-- The lexemes of fixed spelling.  Where one spelling starts another, the longer
    one stands first. -/
def spellings : List (List Char × TokenKind) :=
  [ (['=', '='], .equalEqual), (['!', '='], .bangEqual), (['>', '='], .greaterEqual),
    (['<', '='], .lessEqual), (['<', '-'], .arrow), ([':', ':'], .typeSeparator),
    (['('], .leftParen), ([')'], .rightParen), ([','], .comma), (['.'], .dot),
    ([';'], .semicolon), (['-'], .minus), (['+'], .plus), (['*'], .star), (['/'], .slash),
    (['='], .equal), (['!'], .bang), (['>'], .greater), (['<'], .less) ]

/-- The lexeme of fixed spelling at the front of a text. -/
def fixed? (text : List Char) : Option Lexeme :=
  (spellings.find? fun s => s.1.isPrefixOf text).map fun s =>
    ⟨.token s.2 none, s.1, text.drop s.1.length⟩

/-- A word: an identifier or a reserved word. -/
def word (c : Char) (cs : List Char) : Lexeme :=
  let taken := c :: cs.takeWhile isWordPart
  let kind := TokenKind.ofWord (String.ofList taken)
  ⟨.token kind kind.constant?, taken, cs.dropWhile isWordPart⟩

/-- How a whole number reads: it has to fit in 64 bits with sign. -/
def readWhole (digits : List Char) : Reading :=
  let n := Decimal.digitsValue digits
  if n < integerBound then .token .number (some (.integer (Int64.ofNat n)))
  else .fault (.invalidNumber (String.ofList digits))

/-- How a number with a fraction reads: it has to be finite. -/
def readFraction (whole fraction : List Char) : Reading :=
  let x := Decimal.nearestFloat whole fraction
  if x.isFinite then .token .number (some (.float x))
  else .fault (.invalidNumber (String.ofList (whole ++ '.' :: fraction)))

/-- A number.  A point belongs to it only when a digit follows the point. -/
def number (c : Char) (cs : List Char) : Lexeme :=
  let whole := c :: cs.takeWhile Char.isDigit
  match cs.dropWhile Char.isDigit with
  | '.' :: d :: rest =>
    if d.isDigit then
      let fraction := d :: rest.takeWhile Char.isDigit
      ⟨readFraction whole fraction, whole ++ '.' :: fraction, rest.dropWhile Char.isDigit⟩
    else ⟨readWhole whole, whole, '.' :: d :: rest⟩
  | rest => ⟨readWhole whole, whole, rest⟩

/-- A string, from its opening quote to the next quote.  It may hold newlines, and
    nothing in it is escaped. -/
def quoted (cs : List Char) : Lexeme :=
  let content := cs.takeWhile (· != '"')
  match cs.dropWhile (· != '"') with
  | [] => ⟨.fault .unterminatedString, '"' :: content, []⟩
  | quote :: rest =>
    ⟨.token .string (some (.string (String.ofList content))), '"' :: content ++ [quote], rest⟩

/-- The longest lexeme at the front of a text that starts with neither a blank nor
    a comment. -/
def ofText (c : Char) (cs : List Char) : Lexeme :=
  if c = '"' then quoted cs
  else if isWordStart c then word c cs
  else if c.isDigit then number c cs
  else match fixed? (c :: cs) with
    | some m => m
    | none =>
      let cause := if c = ':' then LexFault.expectedTypeSeparator else .unexpectedCharacter c
      ⟨.fault cause, [c], cs⟩

end Lexeme

/-! ## Stepping through a text -/

/-- A position in a text and the characters from there on. -/
structure Lexer where
  position : Position
  rest : List Char
  deriving DecidableEq

namespace Lexer

/-- The lexer at the front of a text. -/
def ofString (text : String) : Lexer := ⟨.origin, text.toList⟩

/-- The line on which the lexer stands. -/
def line (l : Lexer) : Nat := l.position.line

/-- Passes blanks and comments.  A comment starts with `#` or `//` and goes on to
    the end of its line; `inComment` says that one has started. -/
def skipTrivia (inComment : Bool) (p : Position) : List Char → Lexer
  | [] => ⟨p, []⟩
  | c :: cs =>
    if inComment then skipTrivia (c != '\n') (p.next c) cs
    else if isBlank c then skipTrivia false (p.next c) cs
    else if c = '#' || (c = '/' && cs.head? = some '/') then skipTrivia true (p.next c) cs
    else ⟨p, c :: cs⟩

/-- The lexer in front of the next lexeme. -/
def atLexeme (l : Lexer) : Lexer := skipTrivia false l.position l.rest

/-- The token or error that a lexeme at a position makes. -/
def item (p : Position) (m : Lexeme) : Except LexError Token :=
  match m.reading with
  | .token kind literal =>
    .ok ⟨kind, String.ofList m.taken, literal,
      ⟨p.offset, (p.after m.taken).offset, p.line, p.column⟩⟩
  | .fault cause => .error ⟨cause, p.line, p.column⟩

/-- The token that ends a text. -/
def endToken (p : Position) : Token :=
  ⟨.endOfInput, "", none, ⟨p.offset, p.offset, p.line, p.column⟩⟩

/-- The next token or error, and the lexer behind it. -/
def next (l : Lexer) : Except LexError Token × Lexer :=
  let here := l.atLexeme
  match here.rest with
  | [] => (.ok (endToken here.position), here)
  | c :: cs =>
    let m := Lexeme.ofText c cs
    (item here.position m, ⟨here.position.after m.taken, m.rest⟩)

/-- Every step up to the end of the text, each with the lexer behind it.  At most
    `budget` lexemes are taken; there are never more than characters. -/
def stepsWithin : Nat → Lexer → List (Except LexError Token × Lexer)
  | 0, l => [l.next]
  | budget + 1, l =>
    let step := l.next
    if l.atLexeme.rest.isEmpty then [step] else step :: stepsWithin budget step.2

/-- Every step up to and including the one that meets the end of the text. -/
def steps (l : Lexer) : List (Except LexError Token × Lexer) := stepsWithin l.rest.length l

end Lexer

/-- The tokens and errors of a text, in order. -/
def lexItems (text : String) : List (Except LexError Token) :=
  (Lexer.ofString text).steps.map (·.1)

/-- The token in an item, if it is one. -/
def tokenOfItem? : Except LexError Token → Option Token
  | .ok t => some t
  | .error _ => none

/-- The error in an item, if it is one. -/
def errorOfItem? : Except LexError Token → Option LexError
  | .ok _ => none
  | .error e => some e

/-- All tokens that a text yields, and all its lexical errors. -/
def scan (text : String) : List Token × List LexError :=
  let items := lexItems text
  (items.filterMap tokenOfItem?, items.filterMap errorOfItem?)

/-- The tokens of a text without lexical errors. -/
def tokenize (text : String) : Except (List LexError) (List Token) :=
  match scan text with
  | (tokens, []) => .ok tokens
  | (_, errors) => .error errors

end BlockLang
