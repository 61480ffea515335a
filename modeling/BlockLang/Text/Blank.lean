/-
  BlockLang.Text.Blank

  Texts that show nothing.
-/

namespace BlockLang.Text

/-- Ranges of the characters that are white space in any script. -/
def whiteSpaceRanges : List (Nat × Nat) :=
  [ (0x9, 0xD), (0x20, 0x20), (0x85, 0x85), (0xA0, 0xA0), (0x1680, 0x1680), (0x2000, 0x200A),
    (0x2028, 0x2029), (0x202F, 0x202F), (0x205F, 0x205F), (0x3000, 0x3000) ]

/-- Whether a character is white space in any script. -/
def isWhiteSpace (c : Char) : Bool :=
  whiteSpaceRanges.any fun r => r.1 ≤ c.toNat && c.toNat ≤ r.2

/-- Whether a text holds white space only. -/
def isBlankText (text : String) : Bool := text.toList.all isWhiteSpace

end BlockLang.Text
