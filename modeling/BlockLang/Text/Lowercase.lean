/-
  BlockLang.Text.Lowercase

  The lower-case form of a text.

  Characters are mapped one by one, with two exceptions: the dotted capital I gives
  two characters, and a capital sigma gives the final form of the small sigma at the
  end of a word.
-/
import BlockLang.Text.LetterCase

namespace BlockLang.Text

/-- The lower-case characters for one character outside of any word. -/
def lowerChar (c : Char) : List Char :=
  if c.toNat < 128 then [c.toLower]
  else if c.toNat = 0x130 then ['i', Char.ofNat 0x307]
  else
    let run := lowerCaseRuns.find? fun (first, last, step, _) =>
      first ≤ c.toNat && c.toNat ≤ last && (c.toNat - first) % step == 0
    match run with
    | some (_, _, _, distance) => [Char.ofNat (c.toNat + distance).toNat]
    | none => [c]

/-- Whether the first of some characters that is not passed over has a case. -/
def startsCased (cs : List Char) : Bool :=
  ((cs.dropWhile (inRanges ignorableRanges)).head?.map (inRanges casedRanges)).getD false

/-- The lower-case form of characters; `before` holds those in front of them, the
    nearest first. -/
def lowerChars (before : List Char) : List Char → List Char
  | [] => []
  | c :: cs =>
    let mapped :=
      if c.toNat = 0x3A3 then
        if startsCased before && !startsCased cs then [Char.ofNat 0x3C2] else [Char.ofNat 0x3C3]
      else lowerChar c
    mapped ++ lowerChars (c :: before) cs

/-- The lower-case form of a text. -/
def lowercase (text : String) : String := String.ofList (lowerChars [] text.toList)

end BlockLang.Text
