/-
  BlockLang.Parser.State

  What reading a program keeps track of, and the smallest steps of reading.

  The tokens still to be read stand before a closing end-of-input token, which is
  what every look beyond the last token sees.  Reading never passes an
  end-of-input token, so one in the middle of the tokens ends the program, although
  a look ahead can see behind it.

  An error leaves the state as it is where the error is found: tokens read and
  names declared up to there stay read and declared.
-/
import BlockLang.Tree
import BlockLang.Diagnostic
import BlockLang.Scope.Declare

namespace BlockLang

/-! ## Errors -/

/-- What a place in a program requires. -/
inductive Expected where
  | className
  | typeName
  | typeSeparator
  | arrow
  | leftParen
  | rightParen
  | equal
  | blockStart
  deriving DecidableEq

/-- The words for what is required. -/
def Expected.text : Expected → String
  | className => "class name"
  | typeName => "type name"
  | typeSeparator => "'::'"
  | arrow => "'<-'"
  | leftParen => "'('"
  | rightParen => "')'"
  | equal => "'='"
  | blockStart => "'do'"

/-- The kind of the token that is required. -/
def Expected.kind : Expected → TokenKind
  | className => .identifier
  | typeName => .identifier
  | typeSeparator => .typeSeparator
  | arrow => .arrow
  | leftParen => .leftParen
  | rightParen => .rightParen
  | equal => .equal
  | blockStart => .identifier

/-- What has a block that `end` closes. -/
inductive Construct where
  | classDecl
  | whileLoop
  | ifThen
  | methodBody
  deriving DecidableEq

/-- The words for a construct. -/
def Construct.text : Construct → String
  | classDecl => "class"
  | whileLoop => "while loop"
  | ifThen => "if statement"
  | methodBody => "method body"

/-- What can be wrong with a list of tokens. -/
inductive ParseError where
  | unexpectedToken (expected : Expected) (found : String) (line : Nat)
  | expectedExpression (found : String) (line : Nat)
  | unclosedGrouping (line : Nat)
  | unterminatedBlock (construct : Construct) (line : Nat)
  | invalidPattern (line : Nat)
  | scope (cause : ScopeError) (line : Nat)
  deriving DecidableEq

namespace ParseError

/-- The line that an error is about. -/
def line : ParseError → Nat
  | unexpectedToken _ _ line => line
  | expectedExpression _ line => line
  | unclosedGrouping line => line
  | unterminatedBlock _ line => line
  | invalidPattern line => line
  | scope _ line => line

/-- The wording of an error. -/
def message : ParseError → String
  | unexpectedToken expected found line =>
    let wanted := expected.text
    s!"Expected {wanted}, got '{found}' at line {line}"
  | expectedExpression found line => s!"Expected expression, got '{found}' at line {line}"
  | unclosedGrouping line => s!"Expected ')' to close '(' opened at line {line}"
  | unterminatedBlock construct line =>
    let opened := construct.text
    s!"Expected 'end' to close {opened} opened at line {line}"
  | invalidPattern line =>
    s!"Parameter patterns must be identifiers or constants at line {line}"
  | scope cause line =>
    let text := cause.message
    s!"{text} at line {line}"

/-- The diagnostic of an error. -/
def diagnostic (e : ParseError) : Diagnostic :=
  let kind := match e with
    | scope .. => DiagnosticKind.scope
    | _ => .parse
  ⟨kind, e.message, some e.line⟩

end ParseError

/-! ## State -/

/-- The state of reading a program. -/
structure ParseState where
  /-- The tokens still to be read, without the closing one. -/
  rest : List Token
  /-- The end-of-input token behind all others. -/
  closing : Token
  /-- The line of the token that was read last. -/
  lastLine : Nat := 0
  scopes : ScopeTable := .empty
  cursor : Cursor := .global
  /-- The errors found so far. -/
  errors : List ParseError := []

namespace ParseState

/-- The end-of-input token that is missing behind a list of tokens. -/
def closingAfter : Option Token → Token
  | some t =>
    ⟨.endOfInput, "", none, ⟨t.span.stop, t.span.stop, t.span.line, t.span.column⟩⟩
  | none => ⟨.endOfInput, "", none, ⟨0, 0, 0, 0⟩⟩

/-- The state in front of a list of tokens. -/
def ofTokens (tokens : List Token) : ParseState :=
  match tokens.getLast? with
  | some t =>
    if t.kind = .endOfInput then { rest := tokens.dropLast, closing := t }
    else { rest := tokens, closing := closingAfter (some t) }
  | none => { rest := [], closing := closingAfter none }

/-- The token `k` places ahead. -/
def peekAt (s : ParseState) (k : Nat) : Token := s.rest[k]?.getD s.closing

/-- The token to be read next. -/
def current (s : ParseState) : Token := s.peekAt 0

/-- Whether the next token is of a kind. -/
def check (s : ParseState) (kind : TokenKind) : Bool := s.current.kind = kind

/-- Whether the program ends here. -/
def atEnd (s : ParseState) : Bool := s.check .endOfInput

/-- The state behind the next token; at the end of the program it is the same state. -/
def advance (s : ParseState) : ParseState :=
  match s.rest with
  | [] => s
  | t :: rest =>
    if t.kind = .endOfInput then s else { s with rest, lastLine := t.line }

/-- Notes an error. -/
def report (s : ParseState) (e : ParseError) : ParseState :=
  { s with errors := s.errors ++ [e] }

end ParseState

/-! ## Steps -/

/-- Reading that can fail.  The state outlives a failure. -/
abbrev ParseM := ExceptT ParseError (StateM ParseState)

namespace ParseM

/-- Reads one token, whatever it is. -/
def next : ParseM Token := do
  let s ← get
  set s.advance
  return s.current

/-- Reads a token of this kind if it stands here, and tells whether it did. -/
def accept (kind : TokenKind) : ParseM Bool := do
  let s ← get
  if s.check kind then
    set s.advance
    return true
  else
    return false

/-- Fails because the next token is not what is required. -/
def unexpected {α : Type} (expected : Expected) : ParseM α := do
  let t := (← get).current
  throw (.unexpectedToken expected t.describe t.line)

/-- Reads a required token. -/
def expect (expected : Expected) : ParseM Token := do
  if (← get).check expected.kind then next else unexpected expected

/-- Reads the required `do`. -/
def expectDo : ParseM Unit := do
  if (← get).current.isDo then
    let _ ← next
  else
    unexpected .blockStart

/-- Reads the name of a type. -/
def expectType : ParseM String := do
  return (← expect .typeName).lexeme

/-- Reads elements with commas between them.  There are at most `budget` commas. -/
def separated {α : Type} (element : ParseM α) : Nat → ParseM (List α)
  | 0 => do
    return [← element]
  | budget + 1 => do
    let x ← element
    if ← accept .comma then
      return x :: (← separated element budget)
    else
      return [x]

/-- Reads with another place in the nesting of scopes, and comes back to this one
    whether reading succeeds or fails. -/
def withCursor {α : Type} (c : Cursor) (read : ParseM α) : ParseM α := fun s =>
  let (result, t) := read { s with cursor := c }
  (result, { t with cursor := s.cursor })

end ParseM

end BlockLang
