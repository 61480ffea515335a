/-
  BlockLang.Token.Basic

  Tokens: the words of a program text with the places where they stand.
-/
import BlockLang.Value

namespace BlockLang

/-- Where a token stands: its first and last byte (the last one excluded), and the
    line and column of its first character, both counted from one. -/
structure Span where
  start : Nat
  stop : Nat
  line : Nat
  column : Nat
  deriving DecidableEq, Inhabited

/-- The kinds of tokens. -/
inductive TokenKind where
  | leftParen
  | rightParen
  | comma
  | dot
  | semicolon
  | minus
  | plus
  | star
  | slash
  | bang
  | bangEqual
  | equal
  | equalEqual
  | greater
  | greaterEqual
  | less
  | lessEqual
  | arrow
  | typeSeparator
  | identifier
  | string
  | number
  | kwAnd
  | kwOr
  | kwClass
  | kwElse
  | kwFalse
  | kwFor
  | kwFun
  | kwIf
  | kwNull
  | kwPrint
  | kwReturn
  | kwThis
  | kwTrue
  | kwWhile
  | kwEnd
  | endOfInput
  deriving DecidableEq, Inhabited

/-- The reserved words.  The word `do` is not among them. -/
def keywords : List (String × TokenKind) :=
  [ ("and", .kwAnd), ("or", .kwOr), ("class", .kwClass), ("else", .kwElse),
    ("false", .kwFalse), ("for", .kwFor), ("fun", .kwFun), ("if", .kwIf),
    ("null", .kwNull), ("print", .kwPrint), ("return", .kwReturn), ("this", .kwThis),
    ("true", .kwTrue), ("while", .kwWhile), ("end", .kwEnd) ]

/-- A reserved word is of its own kind, every other word is an identifier. -/
def TokenKind.ofWord (word : String) : TokenKind :=
  (keywords.lookup word).getD .identifier

/-- The value that a reserved word denotes, if it denotes one. -/
def TokenKind.constant? : TokenKind → Option Value
  | kwTrue => some (.boolean true)
  | kwFalse => some (.boolean false)
  | kwNull => some .null
  | _ => none

/-- A token. -/
structure Token where
  kind : TokenKind
  lexeme : String
  literal : Option Value
  span : Span
  deriving DecidableEq, Inhabited

namespace Token

/-- The line on which a token starts. -/
def line (t : Token) : Nat := t.span.line

/-- The name of a token in messages. -/
def describe (t : Token) : String :=
  if t.kind = .endOfInput then "end of input" else t.lexeme

/-- Whether a token opens a block: `do` is an identifier, and only the grammar
    gives it this role. -/
def isDo (t : Token) : Bool := t.kind = .identifier && t.lexeme = "do"

end Token

end BlockLang
