/-
  BlockLang.Proofs.WordsKept

  Parsing loses no word, makes none up and leaves all in their order.

  The words of an accepted tree are those of the tokens in front of the first end of
  input, semicolons left out.  Names, types, operators and literals are in the tree as they
  were written.  Marks and the keywords around blocks are not, so they come out in their
  usual spelling, which is the one that they have in every text.
-/
import BlockLang.Proofs.Token.Form
import BlockLang.Proofs.Parser.Words
import BlockLang.Proofs.Parser.Acceptance

namespace BlockLang

/-! ## Spelling -/

/-- A token has the word of its usual spelling exactly when it is spelled so. -/
theorem Token.word_eq_word_respelled_iff (t : Token) : t.word = t.respelled.word ↔ t.Spelled := by
  cases hspelling : t.kind.spelling? with
  | none =>
      have hsame : t.respelled = t := by
        rw [respelled, hspelling, Option.getD_none]
      rw [hsame]
      refine ⟨fun _ spelling h => ?_, fun _ => rfl⟩
      rw [hspelling] at h
      cases h
  | some spelling =>
      have hliteral : t.kind ∉ literalKinds := TokenKind.not_mem_literalKinds hspelling
      have hword : t.word = .written t.kind t.lexeme := if_neg hliteral
      rw [hword, word_respelled hliteral, hspelling, Option.getD_some]
      constructor
      · intro h spelling' hspelling'
        rw [hspelling] at hspelling'
        cases hspelling'
        exact (Word.written.inj h).2
      · intro h
        rw [h spelling hspelling]

namespace Lexeme

/-- Whether a lexeme is spelled as its kind is. -/
def Spelled (m : Lexeme) : Prop := ∀ kind literal spelling, m.reading = .token kind literal →
  kind.spelling? = some spelling → String.ofList m.taken = spelling

/-- Lexemes of kinds that are not spelled in one way only. -/
theorem spelled_of_none {m : Lexeme}
    (h : ∀ kind literal, m.reading = .token kind literal → kind.spelling? = none) : m.Spelled := by
  intro kind literal spelling hreading hspelling
  rw [h kind literal hreading] at hspelling
  cases hspelling

/-- A word that is spelled as a kind is, is a word of that kind. -/
theorem eq_spelling_of_ofWord {text spelling : String}
    (h : (TokenKind.ofWord text).spelling? = some spelling) : text = spelling := by
  have hkeywords : ∀ entry ∈ keywords, ∀ spelling, entry.2.spelling? = some spelling →
      entry.1 = spelling := by decide
  rcases TokenKind.ofWord_cases text with ⟨hidentifier, -⟩ | hmem
  · rw [hidentifier] at h
    cases h
  · exact hkeywords _ hmem spelling h

theorem spelling_readWhole {digits : List Char} {kind : TokenKind} {literal : Option Value}
    (h : readWhole digits = .token kind literal) : kind.spelling? = none := by
  rcases readWhole_cases digits with ⟨n, hn, -⟩ | ⟨hfault, -⟩
  · cases hn.symm.trans h
    rfl
  · cases hfault.symm.trans h

theorem spelling_readFraction {whole fraction : List Char} {kind : TokenKind}
    {literal : Option Value} (h : readFraction whole fraction = .token kind literal) :
    kind.spelling? = none := by
  rcases readFraction_cases whole fraction with ⟨hx, -⟩ | ⟨hfault, -⟩
  · cases hx.symm.trans h
    rfl
  · cases hfault.symm.trans h

theorem Formed.spelled {m : Lexeme} (h : m.Formed) : m.Spelled := by
  cases h with
  | quoted =>
      refine spelled_of_none fun kind literal h => ?_
      cases h
      rfl
  | unterminated => exact spelled_of_none fun _ _ h => nomatch h
  | word _ _ _ hkind =>
      intro kind' literal spelling hreading hspelling
      obtain ⟨rfl, -⟩ := Reading.token.inj hreading
      exact eq_spelling_of_ofWord (hkind ▸ hspelling)
  | whole => exact spelled_of_none fun _ _ => spelling_readWhole
  | fraction => exact spelled_of_none fun _ _ => spelling_readFraction
  | mark hmem =>
      have hspellings : ∀ entry ∈ spellings, ∀ spelling, entry.2.spelling? = some spelling →
          String.ofList entry.1 = spelling := by decide
      intro kind' literal spelling hreading hspelling
      obtain ⟨rfl, -⟩ := Reading.token.inj hreading
      exact hspellings _ hmem spelling hspelling
  | stray => exact spelled_of_none fun _ _ h => nomatch h

end Lexeme

namespace Lexer

/-- What a step yields is spelled as usual. -/
theorem spelled_next {l : Lexer} {t : Token} (h : l.next.1 = .ok t) : t.Spelled := by
  unfold next at h
  dsimp only at h
  split at h
  · cases h
    intro spelling hspelling
    cases hspelling
  · rename_i c cs _
    unfold item at h
    split at h
    · rename_i kind literal hreading
      cases h
      exact fun spelling hspelling =>
        (Lexeme.formed_ofText c cs).1.spelled kind literal spelling hreading hspelling
    · cases h

theorem exists_next_of_mem_stepsWithin {budget : Nat} {l : Lexer}
    {step : Except LexError Token × Lexer} (h : step ∈ stepsWithin budget l) :
    ∃ l' : Lexer, step = l'.next := by
  induction budget generalizing l with
  | zero => exact ⟨l, List.mem_singleton.mp h⟩
  | succ budget ih =>
      rw [stepsWithin] at h
      split at h
      · exact ⟨l, List.mem_singleton.mp h⟩
      · rcases List.mem_cons.mp h with h | h
        · exact ⟨l, h⟩
        · exact ih h

end Lexer

/-- Every token of a text is what some step through it yields. -/
theorem exists_next_of_mem_tokenize {text : String} {tokens : List Token}
    (h : tokenize text = .ok tokens) {t : Token} (ht : t ∈ tokens) :
    ∃ l : Lexer, l.next.1 = .ok t := by
  have hscan : (scan text).1 = tokens := by
    unfold tokenize at h
    split at h
    · rename_i hscan
      rw [hscan]
      exact Except.ok.inj h
    · cases h
  rw [← hscan] at ht
  obtain ⟨item, hitem, hok⟩ := List.mem_filterMap.mp ht
  obtain ⟨step, hstep, rfl⟩ := List.mem_map.mp hitem
  obtain ⟨l, rfl⟩ := Lexer.exists_next_of_mem_stepsWithin hstep
  refine ⟨l, ?_⟩
  cases hnext : l.next.1 with
  | error e =>
      rw [hnext] at hok
      cases hok
  | ok t' =>
      rw [hnext] at hok
      cases hok
      rfl

/-- All tokens of a text are spelled as usual. -/
theorem spelled_of_tokenize {text : String} {tokens : List Token}
    (h : tokenize text = .ok tokens) {t : Token} (ht : t ∈ tokens) : t.Spelled := by
  obtain ⟨l, hnext⟩ := exists_next_of_mem_tokenize h ht
  exact Lexer.spelled_next hnext

/-! ## Accepted programs -/

/-- The tokens that are words of a program: those in front of the first end of input,
    without semicolons. -/
def wordTokens (tokens : List Token) : List Token :=
  (tokens.takeWhile (·.kind != .endOfInput)).filter (·.kind != .semicolon)

/-- The tree of an accepted program is written with the words of its tokens, in their order
    and in their usual spelling.  With the spelling that the tokens have, it is so exactly
    when each mark and each keyword around a block is spelled as usual, as all of them are in
    every text. -/
theorem accepted_words_kept {tokens : List Token} {p : Parsed} (h : parseTokens tokens = .ok p) :
    (wordTokens tokens).map (·.respelled.word) = wordsOfItems p.items ∧
      ((wordTokens tokens).map Token.word = wordsOfItems p.items ↔
        ∀ t ∈ wordTokens tokens, t.Spelled) ∧
      ∀ text, tokenize text = .ok tokens →
        (wordTokens tokens).map Token.word = wordsOfItems p.items := by
  obtain ⟨s', hrun, -, hread⟩ := read_parseTokens h
  have hclosed := ParseState.ofTokens_closed tokens
  obtain ⟨read, hpass, hwords⟩ := hread.writes hclosed
  -- Outside of blocks reading stops only at the end, so all tokens in front of it are passed.
  have hend : s'.atEnd := by
    have hstops := parseItems_stops tokens.length false (.ofTokens tokens) hclosed
      (ParseState.length_ofTokens_le tokens)
    rw [hrun] at hstops
    simpa using hstops
  rw [hpass.eq_takeWhile hend] at hwords
  have hrespelled : (wordTokens tokens).map (·.respelled.word) = wordsOfItems p.items := hwords
  have hspelled : (wordTokens tokens).map Token.word = wordsOfItems p.items ↔
      ∀ t ∈ wordTokens tokens, t.Spelled := by
    rw [← hrespelled, List.map_inj_left]
    exact forall₂_congr fun t _ => t.word_eq_word_respelled_iff
  refine ⟨hrespelled, hspelled, fun text htext => hspelled.mpr fun t ht => ?_⟩
  have hmem := (List.takeWhile_sublist _).subset (List.mem_of_mem_filter ht)
  exact spelled_of_tokenize htext hmem

/-- A declaration and a statement with semicolons behind them, and a call without one. -/
def semicolonText : String := "x :: Int;\nx = -(1 + 2);\nprint(x)\n"

/-- The tree of `semicolonText`. -/
def semicolonItems : List Item :=
  [ .varDecl ⟨"x", 1⟩ "Int",
    .assign ⟨"x", 2⟩ (.unary ⟨.minus, "-", 2⟩ (.grouping
      (.binary .addition (.literal (.integer 1)) ⟨.plus, "+", 2⟩ (.literal (.integer 2))))),
    .call ⟨⟨"print", 3⟩, .builtin .print⟩ [.name ⟨"x", 3⟩] ]

theorem semicolon_words_kept :
    ∃ tokens table, tokenize semicolonText = .ok tokens ∧
      parseTokens tokens = .ok ⟨semicolonItems, table⟩ ∧
      (wordTokens tokens).map Token.word = wordsOfItems semicolonItems := by
  have htokens : tokenize semicolonText = .ok (scan semicolonText).1 := by cbv
  have hparse : parseTokens (scan semicolonText).1 = .ok ⟨semicolonItems,
      { vars := #[⟨"x", none, none, none⟩], global := { vars := [0] } }⟩ := by cbv
  exact ⟨_, _, htokens, hparse, (accepted_words_kept hparse).2.2 _ htokens⟩

/-- A class whose keyword is spelled in another way than in texts. -/
def oddlySpelledTokens : List Token :=
  [ ⟨.kwClass, "klass", none, ⟨0, 5, 1, 1⟩⟩, ⟨.identifier, "A", none, ⟨6, 7, 1, 7⟩⟩,
    ⟨.kwEnd, "end", none, ⟨8, 11, 1, 9⟩⟩, ⟨.endOfInput, "", none, ⟨11, 11, 1, 12⟩⟩ ]

/-- The parser looks at the kind of a keyword only, and the tree does not keep the way in
    which it is spelled. -/
theorem odd_spelling_lost :
    ∃ p, parseTokens oddlySpelledTokens = .ok p ∧
      (wordTokens oddlySpelledTokens).map Token.word ≠ wordsOfItems p.items := by
  refine ⟨⟨[.classDecl ⟨"A", 1⟩ []],
    { classes := #[⟨"A", none, {}⟩], global := { classes := [0] } }⟩, ?_, ?_⟩
  · cbv
  · decide

end BlockLang
