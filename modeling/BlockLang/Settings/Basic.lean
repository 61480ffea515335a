/-
  BlockLang.Settings.Basic

  The settings of a run.

  How a text that shows something gives settings is left to a reader of documents.
-/
import BlockLang.Text.Blank

namespace BlockLang

/-- The settings of a run. -/
structure Settings where
  backend : Option String := none
  output : Option String := none
  /-- The bound on the rounds of each loop. -/
  loopLimit : Option Nat := none
  deriving DecidableEq

/-- The settings that a text gives to a reader of documents, or the wording of what is
    wrong with it.  A text that shows nothing gives none. -/
def Settings.ofText (read : String → Except String Settings) (text : String) :
    Except String Settings :=
  if Text.isBlankText text then .ok {} else read text

end BlockLang
