/-
  BlockLang.Value

  The values that literals denote, variables hold and expressions yield.

  Every value has two texts: the one that a program prints and the one that
  writes the value as a literal, which differ only in the quotes around strings.
-/
import BlockLang.Decimal.FloatText

namespace BlockLang

/-- A constant of the language. -/
inductive Value where
  | integer (n : Int64)
  | float (x : Float)
  | boolean (b : Bool)
  | string (s : String)
  | null
  deriving DecidableEq, Inhabited

/-- Integers are below this number, the 63rd power of two, and not below its opposite. -/
def integerBound : Nat := 0x8000000000000000

namespace Value

/-- The name of a value's type in messages. -/
def typeName : Value → String
  | integer _ => "integer"
  | float _ => "float"
  | boolean _ => "boolean"
  | string _ => "string"
  | null => "null"

/-- The truth value that a boolean holds. -/
def asBool? : Value → Option Bool
  | boolean b => some b
  | _ => none

/-- The floating-point number nearest to an integer. -/
def toFloat (n : Int64) : Float := Float.ofInt n.toInt

/-- Equality as programs see it: numbers compare as numbers, also an integer with
    a float, and values of otherwise different types differ.  A float that is not a
    number differs from every value. -/
def equals : Value → Value → Bool
  | integer m, integer n => m == n
  | integer m, float y => toFloat m == y
  | float x, integer n => toFloat n == x
  | float x, float y => x == y
  | boolean a, boolean b => a == b
  | string s, string t => s == t
  | null, null => true
  | _, _ => false

/-- The text that printing a value shows. -/
def text : Value → String
  | integer n => toString n.toInt
  | float x => Decimal.floatText x
  | boolean b => if b then "true" else "false"
  | string s => s
  | null => "null"

/-- The text that writes a value as a literal: strings stand in quotes, and nothing
    inside them is escaped. -/
def literalText : Value → String
  | string s => "\"" ++ s ++ "\""
  | v => v.text

end Value

end BlockLang
