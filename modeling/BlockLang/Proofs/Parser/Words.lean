/-
  BlockLang.Proofs.Parser.Words

  What is read is written in the tree.

  The words of a phrase are those of the tokens that were passed to read it, in their usual
  spelling and without semicolons: each production passes its own tokens between the parts
  at the places where the words of the phrase have them.
-/
import BlockLang.Proofs.Parser.Production
import BlockLang.Proofs.Parser.Conduct

namespace BlockLang

/-- The words of tokens in their usual spelling.  Semicolons are no words. -/
def wordsRead (tokens : List Token) : List Word :=
  (tokens.filter (·.kind != .semicolon)).map fun t => t.respelled.word

/-- The tokens between two states of a program have these words. -/
def ParseState.Writes (s : ParseState) (words : List Word) (s' : ParseState) : Prop :=
  s.Closed → ∃ read, s.Passes read s' ∧ wordsRead read = words

namespace ParseState.Writes

variable {s s₁ s₂ s' : ParseState} {words words' : List Word}

theorem refl (s : ParseState) : s.Writes [] s := fun _ => ⟨[], .refl s, rfl⟩

theorem append (h : s.Writes words s₁) (h' : s₁.Writes words' s₂) :
    s.Writes (words ++ words') s₂ := by
  intro hs
  obtain ⟨read, hread, rfl⟩ := h hs
  obtain ⟨read', hread', rfl⟩ := h' (hread.closed hs)
  refine ⟨read ++ read', hread.trans hread', ?_⟩
  rw [wordsRead, List.filter_append, List.map_append]
  rfl

/-- Only the tokens of the states matter. -/
theorem of_eq {t t' : ParseState} (h : s.Writes words s') (hrest : t.rest = s.rest)
    (hclosing : t.closing = s.closing) (hrest' : t'.rest = s'.rest)
    (hclosing' : t'.closing = s'.closing) : t.Writes words t' := by
  intro ht
  obtain ⟨read, hread, hwords⟩ := h (by rw [Closed, ← hclosing]; exact ht)
  refine ⟨read, ⟨?_, hread.noEnd, ?_⟩, hwords⟩
  · rw [hrest, hrest', hread.rest]
  · rw [hclosing, hclosing', hread.closing]

end ParseState.Writes

/-! ### Single tokens -/

namespace ParseState

variable {s : ParseState}

/-- A token that is no semicolon writes one word. -/
theorem writes_one {kind : TokenKind} (h : s.check kind) (hend : kind ≠ .endOfInput)
    (hsemicolon : kind ≠ .semicolon) : s.Writes [s.current.respelled.word] s.advance := by
  intro hs
  have hkind : s.current.kind = kind := by simpa [check] using h
  refine ⟨[s.current], passes_of_check hs h hend, ?_⟩
  simp [wordsRead, hkind, hsemicolon]

theorem writes_mark {kind : TokenKind} (h : s.check kind) (hspelling : kind.spelling?.isSome) :
    s.Writes [.mark kind] s.advance := by
  have hkind : s.current.kind = kind := by simpa [check] using h
  obtain ⟨spelling, hspelling⟩ := Option.isSome_iff_exists.mp hspelling
  have hword : s.current.respelled.word = .mark kind := by
    have hliteral := TokenKind.not_mem_literalKinds hspelling
    rw [Token.word_respelled (hkind ▸ hliteral), hkind, hspelling, Word.mark, hspelling]
    rfl
  rw [← hword]
  refine writes_one h ?_ ?_
  · rintro rfl
    cases hspelling
  · rintro rfl
    cases hspelling

/-- A word whose lexeme the tree holds. -/
theorem writes_held {kind : TokenKind} (h : s.check kind) (hend : kind ≠ .endOfInput)
    (hsemicolon : kind ≠ .semicolon) (hliteral : kind ∉ literalKinds)
    (hspelling : kind.spelling? = none) :
    s.Writes [.written s.current.kind s.current.lexeme] s.advance := by
  have hkind : s.current.kind = kind := by simpa [check] using h
  have hword := Token.word_respelled (t := s.current) (hkind ▸ hliteral)
  rw [hkind, hspelling, Option.getD_none, ← hkind] at hword
  rw [← hword]
  exact writes_one h hend hsemicolon

theorem writes_name (h : s.check .identifier) : s.Writes [.name s.current.lexeme] s.advance := by
  have hkind : s.current.kind = .identifier := by simpa [check] using h
  have hheld := writes_held h (by decide) (by decide) (by decide) rfl
  rw [hkind] at hheld
  exact hheld

theorem writes_blockStart (h : s.current.isDo) : s.Writes [.blockStart] s.advance := by
  simp only [Token.isDo, Bool.and_eq_true, decide_eq_true_eq] at h
  have hname := writes_name (s := s) (by simpa [check] using h.1)
  rw [h.2] at hname
  exact hname

theorem writes_literal {value : Value} (h : s.current.kind ∈ literalKinds)
    (hvalue : s.current.literal = some value) : s.Writes [.literal value] s.advance := by
  have hcheck : s.check s.current.kind := by simp [check]
  rw [← Token.word_respelled_of_literal h hvalue]
  refine writes_one hcheck ?_ ?_
  · intro hkind
    rw [hkind] at h
    exact absurd h (by decide)
  · intro hkind
    rw [hkind] at h
    exact absurd h (by decide)

theorem writes_operator {level : Level} (h : s.current.kind ∈ level.operators) :
    s.Writes [(Operator.ofToken s.current).word] s.advance := by
  have hcheck : s.check s.current.kind := by simp [check]
  have hkinds : ∀ level : Level, ∀ kind ∈ level.operators, kind ≠ .endOfInput ∧
      kind ≠ .semicolon ∧ kind ∉ literalKinds ∧ kind.spelling? = none := by
    intro level
    cases level <;> decide
  obtain ⟨hend, hsemicolon, hliteral, hspelling⟩ := hkinds level _ h
  exact writes_held hcheck hend hsemicolon hliteral hspelling

theorem writes_sign (h : s.check .bang ∨ s.check .minus) :
    s.Writes [(Operator.ofToken s.current).word] s.advance := by
  rcases h with h | h
  · exact writes_held h (by decide) (by decide) (by decide) rfl
  · exact writes_held h (by decide) (by decide) (by decide) rfl

theorem writes_callee {callee : Callee} (h : s.AtCallee callee) :
    s.Writes [callee.word] s.advance := by
  cases h with
  | builtin hprint =>
      have hkind : s.current.kind = .kwPrint := by simpa [check] using hprint
      have hheld := writes_held hprint (by decide) (by decide) (by decide) rfl
      rw [hkind] at hheld
      exact hheld
  | method hname _ => exact writes_name hname

/-- A semicolon that may stand here is no word. -/
theorem writes_semicolon (s : ParseState) : s.Writes [] (s.pass .semicolon) := by
  intro hs
  unfold pass
  split
  · rename_i h
    have hkind : s.current.kind = .semicolon := by simpa [check] using h
    exact ⟨[s.current], passes_of_check hs h (by decide), by simp [wordsRead, hkind]⟩
  · exact ⟨[], .refl s, rfl⟩

theorem Writes.trailing {s₁ : ParseState} {words : List Word} (h : s.Writes words s₁) :
    s.Writes words (s₁.pass .semicolon) := by
  have hall := h.append (writes_semicolon s₁)
  rw [List.append_nil] at hall
  exact hall

theorem writes_block {s₁ : ParseState} {content : List Word} (hdo : s.current.isDo)
    (hcontent : s.advance.Writes content s₁) (hend : s₁.check .kwEnd) :
    s.Writes (.blockStart :: inBlock content) s₁.advance :=
  (writes_blockStart hdo).append (hcontent.append (writes_mark hend rfl))

end ParseState

/-! ## Productions -/

open ParseState in
/-- A production writes its own words around those of its parts. -/
theorem Production.writes {φ : Phrase} {s s' : ParseState} {parts : List Passage}
    (h : Production φ s parts s')
    (hparts : ∀ σ ∈ parts, σ.before.Writes σ.phrase.words σ.after) : s.Writes φ.words s' := by
  have hfirst {σ : Passage} {rest : List Passage} : σ ∈ σ :: rest := List.mem_cons_self
  have hlast {σ τ : Passage} : τ ∈ [σ, τ] := List.mem_cons_of_mem σ List.mem_cons_self
  -- In each case the words are put together in the order in which the tokens stand.
  induction h with
  | name hname _ => exact writes_name hname
  | literal hkind hvalue => exact writes_literal hkind hvalue
  | grouping hopen hclose =>
      exact (writes_mark hopen rfl).append ((hparts _ hfirst).append (writes_mark hclose rfl))
  | unary hsign => exact (writes_sign hsign).append (hparts _ hfirst)
  | binary hop => exact (hparts _ hfirst).append ((writes_operator hop).append (hparts _ hlast))
  | assign hname _ hequal =>
      exact (writes_name hname).append ((writes_mark hequal rfl).append (hparts _ hfirst))
  | call hcallee hopen hclose =>
      have hargs := (hparts _ hfirst).append (writes_mark hclose rfl)
      exact (writes_callee hcallee).append ((writes_mark hopen rfl).append hargs)
  | noArguments => exact .refl _
  | lastArgument =>
      rw [Phrase.words, wordsOfEach, wordsOfEach, commaed_singleton]
      exact hparts _ hfirst
  | argument hcomma =>
      rw [Phrase.words, wordsOfEach, wordsOfEach, commaed_cons_cons]
      exact (hparts _ hfirst).append ((writes_mark hcomma rfl).append (hparts _ hlast))
  | lastType hname =>
      rw [Phrase.words, List.map_singleton, commaed_singleton]
      exact writes_name hname
  | type hname hcomma =>
      rw [Phrase.words, List.map_cons, List.map_cons, commaed_cons_cons]
      exact (writes_name hname).append ((writes_mark hcomma rfl).append (hparts _ hfirst))
  | @binding s m hname => exact (writes_name hname).of_eq rfl rfl rfl rfl
  | value _ => exact hparts _ hfirst
  | noPatterns => exact .refl _
  | lastPattern =>
      rw [Phrase.words, List.map_singleton, commaed_singleton]
      exact hparts _ hfirst
  | pattern hcomma =>
      rw [Phrase.words, List.map_cons, List.map_cons, commaed_cons_cons]
      exact (hparts _ hfirst).append ((writes_mark hcomma rfl).append (hparts _ hlast))
  | @classDecl s s₁ id scopes body hclass hname _ hend =>
      -- The declaration changes the table and the place, which no token sees.
      have hopen := (writes_mark hclass rfl).append (writes_name hname)
      have hbody := (hparts _ hfirst).append (writes_mark hend rfl)
      exact hopen.append (hbody.of_eq rfl rfl rfl rfl)
  | @methodDecl s s₁ id scopes types hname hsep htype harrow _ =>
      have hopen := (writes_name hname).append
        ((writes_mark hsep rfl).append ((writes_name htype).append (writes_mark harrow rfl)))
      have htypes := hopen.append (hparts _ hfirst)
      have hdecl : s.Writes _ { s₁ with scopes } := htypes.of_eq rfl rfl rfl rfl
      exact hdecl.trailing
  | @varDecl s id scopes hname hsep htype _ =>
      have hwords := (writes_name hname).append ((writes_mark hsep rfl).append (writes_name htype))
      have hdecl : s.Writes _ { s.advance.advance.advance with scopes } :=
        hwords.of_eq rfl rfl rfl rfl
      exact hdecl.trailing
  | assignItem _ ih => exact (ih hparts).trailing
  | callItem _ ih => exact (ih hparts).trailing
  | exprItem => exact (hparts _ hfirst).trailing
  | ifThen hif hdo hend =>
      have hblock := writes_block hdo (hparts _ hlast) hend
      exact ((writes_mark hif rfl).append ((hparts _ hfirst).append hblock)).trailing
  | whileLoop hwhile hdo hend =>
      have hblock := writes_block hdo (hparts _ hlast) hend
      exact ((writes_mark hwhile rfl).append ((hparts _ hfirst).append hblock)).trailing
  | @methodBody s s₁ s₂ m ps body hname _ hopen hclose hdo hend =>
      have hname' : s.Writes _ { s.advance with cursor := s.scopes.bodyCursor m } :=
        (writes_name hname).of_eq rfl rfl rfl rfl
      have hpatterns := (writes_mark (s := { s.advance with cursor := s.scopes.bodyCursor m })
        hopen rfl).append ((hparts _ hfirst).append (writes_mark hclose rfl))
      have hblock := writes_block hdo (hparts _ hlast) hend
      have hall : s.Writes _ { s₂.advance with
          scopes := (s₂.scopes.addImplementation m).2, cursor := s.cursor } :=
        (hname'.append (hpatterns.append hblock)).of_eq rfl rfl rfl rfl
      exact hall.trailing
  | noItems => exact .refl _
  | items => exact (hparts _ hfirst).append (hparts _ hlast)

/-- The tokens of a passage that is read have the words of its phrase. -/
theorem Passage.Read.writes {ρ : Passage} (h : ρ.Read) :
    ρ.before.Writes ρ.phrase.words ρ.after := by
  induction h with
  | intro hprod _ ih => exact hprod.writes ih

end BlockLang
