/-
  BlockLang.Diagnostic

  Messages for the author of a program.
-/
import BlockLang.Token.Lexer

namespace BlockLang

/-- The stage that found a fault. -/
inductive DiagnosticKind where
  | lex
  | parse
  | scope
  | eval
  | rendering
  deriving DecidableEq

/-- How a stage is named in front of a message. -/
def DiagnosticKind.label : DiagnosticKind → String
  | lex => "lex error"
  | parse => "parse error"
  | scope => "scope error"
  | eval => "evaluation error"
  | rendering => "transpile error"

/-- One message, with the line that it is about if it is about one. -/
structure Diagnostic where
  kind : DiagnosticKind
  message : String
  line : Option Nat
  deriving DecidableEq

/-- The text of a diagnostic. -/
def Diagnostic.render (d : Diagnostic) : String := d.kind.label ++ ": " ++ d.message

/-- The diagnostic of a lexical error. -/
def LexError.diagnostic (e : LexError) : Diagnostic := ⟨.lex, e.message, some e.line⟩

/-- Diagnostics in the order in which they were found. -/
structure Diagnostics where
  entries : List Diagnostic
  deriving DecidableEq

namespace Diagnostics

/-- No diagnostics. -/
def empty : Diagnostics := ⟨[]⟩

/-- Adds a diagnostic behind all others. -/
def push (ds : Diagnostics) (d : Diagnostic) : Diagnostics := ⟨ds.entries ++ [d]⟩

/-- The number of diagnostics. -/
def size (ds : Diagnostics) : Nat := ds.entries.length

/-- Whether nothing was found. -/
def isEmpty (ds : Diagnostics) : Bool := ds.entries.isEmpty

/-- One diagnostic a line. -/
def render (ds : Diagnostics) : String :=
  String.intercalate "\n" (ds.entries.map Diagnostic.render)

/-- Success exactly when nothing was found. -/
def toResult (ds : Diagnostics) : Except Diagnostics Unit :=
  if ds.isEmpty then .ok () else .error ds

end Diagnostics

end BlockLang
