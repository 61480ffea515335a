/-
  BlockLang.Proofs.Token.Pieces

  Scanning piece by piece, without places.

  Where a token stands does not matter for which tokens there are, so scanning can be said
  about characters alone: blanks are passed, and the longest lexeme gives the next piece.
  A text reads as some pieces when it does so in front of every rest that does not go on
  with its last lexeme.  Texts put together from such pieces read piece by piece.
-/
import BlockLang.Proofs.Token.Form
import BlockLang.Proofs.Tree.Lines

namespace BlockLang

/-! ## Pieces -/

/-- What a step of scanning yields, apart from places. -/
inductive Piece where
  | token (kind : TokenKind) (lexeme : String) (literal : Option Value)
  | fault (cause : LexFault)
  deriving DecidableEq

/-- A token as a piece. -/
def Token.piece (t : Token) : Piece := .token t.kind t.lexeme t.literal

namespace Piece

/-- The piece of a token or an error. -/
def ofItem : Except LexError Token → Piece
  | .ok t => t.piece
  | .error e => fault e.fault

/-- The piece of a word: reserved words are of their own kind. -/
def word (text : String) : Piece :=
  token (.ofWord text) text (TokenKind.ofWord text).constant?

/-- The piece that ends a text. -/
def ending : Piece := token .endOfInput "" none

/-- The lexeme of a piece that is a token. -/
def lexeme? : Piece → Option String
  | token _ lexeme _ => some lexeme
  | fault _ => none

/-- The cause of a piece that is an error. -/
def fault? : Piece → Option LexFault
  | token _ _ _ => none
  | fault cause => some cause

end Piece

/-- The piece of a lexeme. -/
def Lexeme.piece (m : Lexeme) : Piece :=
  match m.reading with
  | .token kind literal => .token kind (String.ofList m.taken) literal
  | .fault cause => .fault cause

theorem Piece.ofItem_item (p : Position) (m : Lexeme) :
    ofItem (Lexer.item p m) = m.piece := by
  rw [Lexer.item, Lexeme.piece]
  cases m.reading <;> rfl

/-- Scanning some characters yields these pieces. -/
inductive Scans : List Char → List Piece → Prop where
  | nil : Scans [] []
  | blank {c cs ps} : isBlank c → Scans cs ps → Scans (c :: cs) ps
  | piece {c cs ps m} : StartsLexeme c cs → Lexeme.ofText c cs = m → Scans m.rest ps →
      Scans (c :: cs) (m.piece :: ps)

/-! ### Scanning in steps -/

namespace Lexeme

/-- Every lexeme takes a character. -/
theorem length_rest_ofText (c : Char) (cs : List Char) :
    (ofText c cs).rest.length ≤ cs.length := by
  obtain ⟨hformed, htext⟩ := formed_ofText c cs
  have hlength := congrArg List.length htext
  have htaken := List.length_pos_iff.mpr hformed.taken_ne_nil
  simp only [List.length_append, List.length_cons] at hlength
  omega

end Lexeme

namespace Lexer

/-- Steps depend only on where the next lexeme is. -/
theorem stepsWithin_congr {l l' : Lexer} (h : l.atLexeme = l'.atLexeme) (budget : Nat) :
    stepsWithin budget l = stepsWithin budget l' := by
  have hnext : l.next = l'.next := by rw [next, next, h]
  cases budget with
  | zero => rw [stepsWithin, stepsWithin, hnext]
  | succ budget => rw [stepsWithin, stepsWithin, hnext, h]

theorem atLexeme_blank {c : Char} (h : isBlank c) (p : Position) (cs : List Char) :
    (⟨p, c :: cs⟩ : Lexer).atLexeme = (⟨p.next c, cs⟩ : Lexer).atLexeme := by
  rw [atLexeme, skipTrivia, if_neg Bool.false_ne_true, if_pos h]
  rfl

end Lexer

namespace Scans

variable {cs : List Char} {ps : List Piece}

/-- The steps through a text yield its pieces, and the end of the text behind them. -/
theorem map_stepsWithin (h : Scans cs ps) (p : Position) {budget : Nat}
    (hbudget : cs.length ≤ budget) :
    (Lexer.stepsWithin budget ⟨p, cs⟩).map (fun step => Piece.ofItem step.1) =
      ps ++ [.ending] := by
  induction h generalizing p budget with
  | nil => cases budget <;> rfl
  | @blank c cs ps hblank _ ih =>
      rw [Lexer.stepsWithin_congr (Lexer.atLexeme_blank hblank p cs)]
      exact ih _ (Nat.le_of_succ_le hbudget)
  | @piece c cs ps m hstart hm _ ih =>
      obtain ⟨budget, rfl⟩ := Nat.exists_eq_add_one_of_ne_zero (Nat.ne_of_gt
        (Nat.lt_of_lt_of_le (Nat.succ_pos _) hbudget))
      -- A lexeme takes a character at least, so the budget covers what is behind it.
      have hlength : m.rest.length ≤ budget := by
        have := Lexeme.length_rest_ofText c cs
        rw [hm] at this
        exact Nat.le_trans this (Nat.le_of_succ_le_succ hbudget)
      have hnext : (⟨p, c :: cs⟩ : Lexer).next = (Lexer.item p m, ⟨p.after m.taken, m.rest⟩) := by
        rw [Lexer.next, hstart.atLexeme p]
        dsimp only
        rw [hm]
      rw [Lexer.stepsWithin, hstart.atLexeme p, hnext]
      show (_ :: _ : List (Except LexError Token × Lexer)).map _ = _
      rw [List.map_cons, ih _ hlength, Piece.ofItem_item]
      rfl

theorem map_lexItems {text : String} (h : Scans text.toList ps) :
    (lexItems text).map Piece.ofItem = ps ++ [.ending] := by
  rw [lexItems, List.map_map]
  exact h.map_stepsWithin .origin (Nat.le_refl _)

/-- The lexemes of the tokens of a text. -/
theorem lexemes_scan {text : String} (h : Scans text.toList ps) :
    (scan text).1.map (·.lexeme) = ps.filterMap Piece.lexeme? ++ [""] := by
  have hitem : (fun item => (tokenOfItem? item).map (·.lexeme)) =
      Piece.lexeme? ∘ Piece.ofItem := by
    funext item
    cases item <;> rfl
  have hall := congrArg (List.filterMap Piece.lexeme?) h.map_lexItems
  rw [List.filterMap_append, List.filterMap_map] at hall
  rw [scan, List.map_filterMap, hitem]
  exact hall

/-- The causes of the errors of a text. -/
theorem faults_scan {text : String} (h : Scans text.toList ps) :
    (scan text).2.map (·.fault) = ps.filterMap Piece.fault? := by
  have hitem : (fun item => (errorOfItem? item).map (·.fault)) =
      Piece.fault? ∘ Piece.ofItem := by
    funext item
    cases item <;> rfl
  have hall := congrArg (List.filterMap Piece.fault?) h.map_lexItems
  rw [List.filterMap_append, List.filterMap_map] at hall
  rw [scan, List.map_filterMap, hitem, hall]
  exact List.append_nil _

/-- Items without errors are tokens. -/
theorem map_ok_tokens {items : List (Except LexError Token)}
    (h : items.filterMap errorOfItem? = []) : (items.filterMap tokenOfItem?).map .ok = items := by
  induction items with
  | nil => rfl
  | cons item items ih =>
      cases item with
      | ok t => exact congrArg (.ok t :: ·) (ih h)
      | error e => cases h

/-- A text whose pieces are all tokens has no errors. -/
theorem exists_tokenize {text : String} (h : Scans text.toList ps)
    (hps : ps.filterMap Piece.fault? = []) :
    ∃ tokens, tokenize text = .ok tokens ∧
      tokens.map Token.piece = ps ++ [.ending] := by
  have herrors : (scan text).2 = [] := by
    rw [← List.map_eq_nil_iff, h.faults_scan, hps]
  refine ⟨(scan text).1, ?_, ?_⟩
  · rw [tokenize]
    split
    · rename_i heq
      rw [heq]
    · rename_i herror heq
      rw [heq] at herrors
      exact absurd herrors herror
  · rw [← h.map_lexItems, ← map_ok_tokens herrors, List.map_map]
    rfl

end Scans

/-! ## Texts in front of a rest -/

/-- Characters behind which every lexeme ends. -/
def isSeparator (c : Char) : Bool := [' ', '\n', '(', ')', ',', ';'].contains c

/-- Whether a rest does not go on with the lexeme in front of it. -/
def Parted (rest : List Char) : Prop := ∀ c ∈ rest.head?, isSeparator c

theorem Parted.nil : Parted [] := nofun

theorem Parted.cons {c : Char} (h : isSeparator c = true) (cs : List Char) : Parted (c :: cs) := by
  intro d hd
  obtain rfl := Option.some.inj hd
  exact h

/-- A text reads as some pieces in front of every rest that `after` admits. -/
def Reads (after : List Char → Prop) (cs : List Char) (ps : List Piece) : Prop :=
  ∀ rest qs, after rest → Scans rest qs → Scans (cs ++ rest) (ps ++ qs)

namespace Reads

variable {A B : List Char → Prop} {cs ds : List Char} {ps qs : List Piece}

theorem nil : Reads A [] [] := fun _ _ _ h => h

theorem mono (h : Reads A cs ps) (hB : ∀ rest, B rest → A rest) : Reads B cs ps :=
  fun rest qs hrest => h rest qs (hB rest hrest)

/-- Texts one behind the other. -/
theorem append (h : Reads A cs ps) (h' : Reads B ds qs) (hA : ∀ rest, B rest → A (ds ++ rest)) :
    Reads B (cs ++ ds) (ps ++ qs) := by
  intro rest rs hrest hscans
  rw [List.append_assoc, List.append_assoc]
  exact h _ _ (hA rest hrest) (h' rest rs hrest hscans)

/-- A whole text. -/
theorem scans (h : Reads A cs ps) (hA : A []) : Scans cs ps := by
  have := h [] [] hA .nil
  rwa [List.append_nil, List.append_nil] at this

end Reads

end BlockLang
