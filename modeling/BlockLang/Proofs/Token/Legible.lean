/-
  BlockLang.Proofs.Token.Legible

  Lexemes that are read as one token, and tokens that are written as lexemes.

  Words, numbers, quoted strings and marks are read whole in front of a separator.  All
  tokens of a text are of these forms, so what was read in one text can be written into
  another one and is read there in the same way.
-/
import BlockLang.Proofs.Token.Pieces
import BlockLang.Proofs.Decimal.ReadBack
import BlockLang.Proofs.WordsKept

namespace BlockLang

/-! ## Characters -/

/-- A run of characters ends in front of a separator. -/
theorem Parted.halts {rest : List Char} (h : Parted rest) {p : Char → Bool}
    (hp : ∀ c, isSeparator c → p c = false) : Halts p rest :=
  fun c hc => hp c (h c hc)

theorem forall_separator {p : Char → Prop}
    (h : p ' ' ∧ p '\n' ∧ p '(' ∧ p ')' ∧ p ',' ∧ p ';') : ∀ c, isSeparator c → p c := by
  intro c hc
  have hmem : c ∈ [' ', '\n', '(', ')', ',', ';'] := by simpa [isSeparator] using hc
  simp only [List.mem_cons, List.not_mem_nil, or_false] at hmem
  rcases hmem with rfl | rfl | rfl | rfl | rfl | rfl <;> simp only [h]

theorem isWordPart_separator : ∀ c, isSeparator c → isWordPart c = false :=
  forall_separator (by decide)

theorem isDigit_separator : ∀ c, isSeparator c → c.isDigit = false :=
  forall_separator (by decide)

/-! ## Words -/

/-- A word that is taken whole. -/
def IsWord (w : String) : Prop :=
  w.toList.head?.any isWordStart = true ∧ w.toList.tail.all isWordPart = true
  deriving Decidable

theorem IsWord.exists_cons {w : String} (h : IsWord w) :
    ∃ c cs, w.toList = c :: cs ∧ isWordStart c = true ∧ ∀ d ∈ cs, isWordPart d = true := by
  unfold IsWord at h
  cases hw : w.toList with
  | nil =>
      rw [hw] at h
      cases h.1
  | cons c cs =>
      rw [hw] at h
      exact ⟨c, cs, rfl, h.1, List.all_eq_true.mp h.2⟩

theorem reads_word {w : String} (h : IsWord w) : Reads Parted w.toList [.word w] := by
  obtain ⟨c, cs, hw, hc, hcs⟩ := h.exists_cons
  intro rest qs hrest hscans
  have hkind : TokenKind.ofWord (String.ofList (c :: cs)) = .ofWord w := by
    rw [← hw, String.ofList_toList]
  have hformed := Lexeme.Formed.word hc hcs (hrest.halts isWordPart_separator) hkind
  have := Scans.piece (startsLexeme_of_isWordStart hc (cs ++ rest)).1 (hformed.ofText_eq rfl) hscans
  rwa [Lexeme.piece, ← List.cons_append, ← hw, String.ofList_toList] at this

/-! ## Marks -/

/-- Whether a rest does not make a longer mark or a comment of the mark in front of it. -/
def Apart (rest : List Char) : Prop := ∀ c ∈ rest.head?, c ∉ ['=', '-', ':', '/']

theorem Parted.apart {rest : List Char} (h : Parted rest) : Apart rest :=
  fun c hc => forall_separator (p := (· ∉ ['=', '-', ':', '/'])) (by decide) c (h c hc)

theorem fixed?_append {rest : List Char} (hrest : Apart rest) :
    ∀ s ∈ Lexeme.spellings,
      Lexeme.fixed? (s.1 ++ rest) = some ⟨.token s.2 none, s.1, rest⟩ := by
  cases rest with
  | nil => decide
  | cons c rest =>
      have hc : c ∉ ['=', '-', ':', '/'] := hrest c rfl
      have hequal : ('=' == c) = false := by grind
      have hminus : ('-' == c) = false := by grind
      have hcolon : (':' == c) = false := by grind
      simp [Lexeme.fixed?, Lexeme.spellings, List.find?, List.isPrefixOf, hequal, hminus, hcolon]

/-- Marks are read whole in front of what does not make a longer one of them. -/
theorem reads_mark {cs : List Char} {kind : TokenKind} (h : (cs, kind) ∈ Lexeme.spellings) :
    Reads Apart cs [.token kind (String.ofList cs) none] := by
  have hnonempty : ∀ s ∈ Lexeme.spellings, s.1 ≠ [] := by decide
  obtain ⟨c, ds, rfl⟩ := List.exists_cons_of_ne_nil (hnonempty _ h)
  intro rest qs hrest hscans
  obtain ⟨hm, hblank, hhash⟩ := ofText_mark ⟨_, h, rfl⟩ (fixed?_append hrest _ h)
  refine Scans.piece ⟨hblank, hhash, ?_⟩ hm hscans
  rintro ⟨rfl, hslash⟩
  have hslashes : ∀ s ∈ Lexeme.spellings, s.1.head? = some '/' → s.1 = ['/'] := by decide
  obtain ⟨-, rfl⟩ := List.cons.inj (hslashes _ h rfl)
  exact hrest '/' hslash (by decide)

/-- No mark starts with an opening parenthesis but that one. -/
theorem reads_leftParen : Reads (fun _ => True) ['('] [.token .leftParen "(" none] := by
  intro rest qs _ hscans
  have hm : Lexeme.fixed? ('(' :: rest) = some ⟨.token .leftParen none, ['('], rest⟩ := by
    simp [Lexeme.fixed?, Lexeme.spellings, List.find?, List.isPrefixOf]
  obtain ⟨hm, hblank, hhash⟩ := ofText_mark ⟨(['('], .leftParen), by decide, rfl⟩ hm
  exact Scans.piece ⟨hblank, hhash, fun h => absurd h.1 (by decide)⟩ hm hscans

/-- A blank is no piece. -/
theorem reads_blank {c : Char} (h : isBlank c = true) : Reads (fun _ => True) [c] [] :=
  fun _ _ _ hscans => .blank h hscans

theorem reads_blanks {cs : List Char} (h : ∀ c ∈ cs, isBlank c = true) :
    Reads (fun _ => True) cs [] := by
  induction cs with
  | nil => exact .nil
  | cons c cs ih =>
      obtain ⟨hc, hcs⟩ := List.forall_mem_cons.mp h
      exact (reads_blank hc).append (ih hcs) fun _ _ => trivial

/-- A brace is an error. -/
theorem reads_brace {c : Char} (h : c = '{' ∨ c = '}') :
    Reads (fun _ => True) [c] [.fault (.unexpectedCharacter c)] := by
  intro rest qs _ hscans
  have hm : Lexeme.ofText c rest = ⟨.fault (.unexpectedCharacter c), [c], rest⟩ := by
    rcases h with rfl | rfl <;>
      simp [Lexeme.ofText, Lexeme.fixed?, Lexeme.spellings, List.find?, List.isPrefixOf,
        isWordStart]
  have hstart : StartsLexeme c rest := by
    rcases h with rfl | rfl
    · exact ⟨by decide, by decide, fun h => absurd h.1 (by decide)⟩
    · exact ⟨by decide, by decide, fun h => absurd h.1 (by decide)⟩
  exact .piece hstart hm hscans

/-! ## Literals -/

theorem reads_quoted {s : List Char} (h : '"' ∉ s) :
    Reads (fun _ => True) ('"' :: s ++ ['"'])
      [.token .string (String.ofList ('"' :: s ++ ['"'])) (some (.string (String.ofList s)))] := by
  intro rest qs _ hscans
  have hstart : StartsLexeme '"' (s ++ '"' :: rest) :=
    ⟨by decide, by decide, fun h => absurd h.1 (by decide)⟩
  rw [List.append_assoc]
  exact .piece hstart (Lexeme.ofText_quoted h rest) hscans

theorem reads_whole {digits : List Char} (hne : digits ≠ []) (hdigits : ∀ c ∈ digits, c.isDigit)
    (hvalue : Decimal.digitsValue digits < integerBound) :
    Reads Parted digits [.token .number (String.ofList digits)
      (some (.integer (Int64.ofNat (Decimal.digitsValue digits))))] := by
  obtain ⟨c, cs, rfl⟩ := List.exists_cons_of_ne_nil hne
  obtain ⟨hc, hcs⟩ := List.forall_mem_cons.mp hdigits
  intro rest qs hrest hscans
  have hpoint : ∀ d ds, rest = '.' :: d :: ds → d.isDigit = false := by
    rintro d ds rfl
    exact absurd (hrest '.' rfl) (by decide)
  have hm : Lexeme.ofText c (cs ++ rest) =
      ⟨.token .number (some (.integer (Int64.ofNat (Decimal.digitsValue (c :: cs))))), c :: cs,
        rest⟩ := by
    rw [ofText_digits hc, Lexeme.number_whole hcs (hrest.halts isDigit_separator) hpoint,
      Lexeme.readWhole, if_pos hvalue]
  exact .piece (startsLexeme_of_isDigit hc _).1 hm hscans

theorem reads_fraction {whole fraction : List Char} (hne : whole ≠ [])
    (hwhole : ∀ c ∈ whole, c.isDigit) (hne' : fraction ≠ [])
    (hfraction : ∀ c ∈ fraction, c.isDigit)
    (hfinite : (Decimal.nearestFloat whole fraction).isFinite = true) :
    Reads Parted (whole ++ '.' :: fraction) [.token .number
      (String.ofList (whole ++ '.' :: fraction))
      (some (.float (Decimal.nearestFloat whole fraction)))] := by
  obtain ⟨c, cs, rfl⟩ := List.exists_cons_of_ne_nil hne
  obtain ⟨hc, hcs⟩ := List.forall_mem_cons.mp hwhole
  obtain ⟨d, ds, rfl⟩ := List.exists_cons_of_ne_nil hne'
  obtain ⟨hd, hds⟩ := List.forall_mem_cons.mp hfraction
  intro rest qs hrest hscans
  have hm : Lexeme.ofText c (cs ++ '.' :: d :: (ds ++ rest)) =
      ⟨.token .number (some (.float (Decimal.nearestFloat (c :: cs) (d :: ds)))),
        c :: cs ++ '.' :: d :: ds, rest⟩ := by
    have hreading : Lexeme.readFraction (c :: cs) (d :: ds) =
        .token .number (some (.float (Decimal.nearestFloat (c :: cs) (d :: ds)))) := if_pos hfinite
    rw [ofText_digits hc,
      Lexeme.number_fraction hcs hd hds (hrest.halts isDigit_separator), hreading]
  have := Scans.piece (startsLexeme_of_isDigit hc _).1 hm hscans
  rw [List.append_assoc]
  exact this

namespace Value

/-- A value that literals in texts denote. -/
def Legible : Value → Prop
  | integer n => 0 ≤ n.toInt
  | float x => x.isFinite = true ∧
      ∃ whole fraction, fraction ≠ [] ∧ x = Decimal.nearestFloat whole fraction
  | string s => '"' ∉ s.toList
  | boolean _ => True
  | null => True

/-- The piece of a literal. -/
def piece : Value → Piece
  | v@(integer _) | v@(float _) => .token .number v.literalText (some v)
  | v@(string _) => .token .string v.literalText (some v)
  | v@(boolean _) | v@null => .word v.literalText

theorem literalText_integer {n : Int64} (h : 0 ≤ n.toInt) :
    (integer n).literalText = String.ofList (Nat.toDigits 10 n.toInt.toNat) := by
  show toString n.toInt = _
  rw [← Int.toNat_of_nonneg h]
  rfl

/-- Literals are read as the values that they were written for. -/
theorem Legible.reads {v : Value} (h : v.Legible) :
    Reads Parted v.literalText.toList [v.piece] := by
  cases v with
  | integer n =>
      have htext := literalText_integer h
      have hvalue := Decimal.digitsValue_toDigits n.toInt.toNat
      have hbound := n.toInt_lt
      have hlt : Decimal.digitsValue (Nat.toDigits 10 n.toInt.toNat) < integerBound := by
        rw [hvalue]
        unfold integerBound
        omega
      have hsame : Int64.ofNat n.toInt.toNat = n := by
        rw [← Int64.toInt_inj, Int64.toInt_ofNat_of_lt (by omega)]
        exact Int.toNat_of_nonneg h
      have hreads := reads_whole Nat.toDigits_ne_nil
        (fun c hc => Decimal.isDigit_of_mem_toDigits hc) hlt
      rw [hvalue, hsame, ← htext] at hreads
      rwa [htext, String.toList_ofList]
  | float x =>
      obtain ⟨hfinite, whole, fraction, hne, rfl⟩ := h
      -- The digits may be others than those that were read, but they denote the same number.
      obtain ⟨whole', fraction', hwrites⟩ := Decimal.exists_writes_nearestFloat hne hfinite
      have hreads := reads_fraction hwrites.whole_ne_nil hwrites.isDigit_whole
        hwrites.fraction_ne_nil hwrites.isDigit_fraction (hwrites.value ▸ hfinite)
      rw [hwrites.value, ← hwrites.text_eq] at hreads
      have htext := congrArg String.toList hwrites.text_eq
      rw [String.toList_ofList] at htext
      rwa [← htext] at hreads
  | string s =>
      have htext : (string s).literalText.toList = '"' :: s.toList ++ ['"'] := by
        simp [literalText]
      have hreads := (reads_quoted h).mono (B := Parted) fun _ _ => trivial
      rw [String.ofList_toList, ← htext, String.ofList_toList] at hreads
      exact hreads
  | boolean b => cases b <;> exact reads_word (by decide)
  | null => exact reads_word (by decide)

end Value

/-! ## The words of texts -/

/-- Whether a word can be read in a text. -/
def Word.Legible : Word → Prop
  | .literal v => v.Legible
  | .written kind lexeme =>
    (IsWord lexeme ∧ TokenKind.ofWord lexeme = kind) ∨ (lexeme.toList, kind) ∈ Lexeme.spellings

namespace Lexeme

/-- Whether the tokens that a lexeme makes have words that can be read. -/
def Legible (m : Lexeme) : Prop := ∀ kind literal, m.reading = .token kind literal →
  ∀ span, Token.word ⟨kind, String.ofList m.taken, literal, span⟩ |>.Legible

theorem legible_word {cs : List Char} (h : IsWord (String.ofList cs)) {kind : TokenKind}
    (hkind : TokenKind.ofWord (String.ofList cs) = kind) (rest : List Char) :
    Legible ⟨.token kind kind.constant?, cs, rest⟩ := by
  intro kind' literal hreading span
  obtain ⟨rfl, rfl⟩ := Reading.token.inj hreading
  have hconstant : ∀ kind : TokenKind, ∀ v ∈ kind.constant?, v.Legible := by
    intro kind v hv
    cases kind <;> cases hv <;> trivial
  rw [Token.word]
  split
  · dsimp only
    cases hvalue : kind.constant? with
    | none => exact .inl ⟨h, hkind⟩
    | some v => exact hconstant _ v hvalue
  · exact .inl ⟨h, hkind⟩

theorem legible_readWhole (digits taken rest : List Char) :
    Legible ⟨readWhole digits, taken, rest⟩ := by
  intro kind literal h span
  rcases readWhole_cases digits with ⟨n, hn, hvalue⟩ | ⟨hfault, -⟩
  · cases hn.symm.trans h
    show 0 ≤ n.toInt
    rw [hvalue]
    exact Int.natCast_nonneg _
  · cases hfault.symm.trans h

theorem legible_readFraction {fraction : List Char} (hne : fraction ≠ [])
    (whole taken rest : List Char) : Legible ⟨readFraction whole fraction, taken, rest⟩ := by
  intro kind literal h span
  rcases readFraction_cases whole fraction with ⟨hx, hfinite⟩ | ⟨hfault, -⟩
  · cases hx.symm.trans h
    exact ⟨hfinite, whole, fraction, hne, rfl⟩
  · cases hfault.symm.trans h

theorem Formed.legible {m : Lexeme} (h : m.Formed) : m.Legible := by
  cases h with
  | @quoted content _ hcontent =>
      intro kind literal h span
      cases h
      show '"' ∉ (String.ofList content).toList
      rwa [String.toList_ofList]
  | unterminated => exact nofun
  | @word c cs _ _ hc hcs _ hkind =>
      refine legible_word ?_ hkind _
      rw [IsWord, String.toList_ofList]
      exact ⟨hc, List.all_eq_true.mpr hcs⟩
  | whole => exact legible_readWhole _ _ _
  | fraction _ _ hne => exact legible_readFraction hne _ _ _
  | @mark cs _ kind hmem _ =>
      intro kind' literal h span
      obtain ⟨rfl, rfl⟩ := Reading.token.inj h
      have hmem : ((String.ofList cs).toList, kind) ∈ spellings := by rwa [String.toList_ofList]
      rw [Token.word]
      split
      · exact .inr hmem
      · exact .inr hmem
  | stray => exact nofun

end Lexeme

/-- Every token in front of the end of a text has a word that can be read. -/
theorem legible_of_tokenize {text : String} {tokens : List Token}
    (h : tokenize text = .ok tokens) {t : Token} (ht : t ∈ tokens) (hend : t.kind ≠ .endOfInput) :
    t.word.Legible := by
  obtain ⟨l, hnext⟩ := exists_next_of_mem_tokenize h ht
  unfold Lexer.next at hnext
  dsimp only at hnext
  split at hnext
  · cases hnext
    exact absurd rfl hend
  · rename_i c cs _
    unfold Lexer.item at hnext
    split at hnext
    · rename_i hreading
      cases hnext
      exact (Lexeme.formed_ofText c cs).1.legible _ _ hreading _
    · cases hnext

/-- All words of an accepted program can be read. -/
theorem legible_words {text : String} {tokens : List Token} {p : Parsed}
    (htext : tokenize text = .ok tokens) (h : parseTokens tokens = .ok p) :
    ∀ w ∈ wordsOfItems p.items, w.Legible := by
  obtain ⟨s', -, -, hread⟩ := read_parseTokens h
  obtain ⟨read, hpass, hwords⟩ := hread.writes (ParseState.ofTokens_closed tokens)
  intro w hw
  have hw' : w ∈ wordsRead read := hwords ▸ hw
  obtain ⟨t, ht, rfl⟩ := List.mem_map.mp hw'
  have hmem := List.mem_of_mem_filter ht
  have htokens : t ∈ tokens := by
    have hrest : t ∈ (ParseState.ofTokens tokens).rest := by
      rw [hpass.rest]
      exact List.mem_append_left _ hmem
    rcases ParseState.ofTokens_cases tokens with hall | hall
    · exact hall ▸ hrest
    · rw [hall]
      exact List.mem_append_left _ hrest
  rw [← t.word_eq_word_respelled_iff.mpr (spelled_of_tokenize htext htokens)]
  exact legible_of_tokenize htext htokens (hpass.noEnd t hmem)

end BlockLang
