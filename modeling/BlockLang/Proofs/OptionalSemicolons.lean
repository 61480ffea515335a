/-
  BlockLang.Proofs.OptionalSemicolons

  Semicolons make no difference.

  Where a declaration or a statement of an accepted program ends without a semicolon, at any
  depth, one can be added: the program stays accepted, with the same tree and the same table.
-/
import BlockLang.Proofs.Parser.Absorption
import BlockLang.Proofs.Parser.Agreement

namespace BlockLang

/-! ## Arrows -/

/-- Tokens whose arrows each follow a `::` and a type. -/
inductive TypedArrows : List Token → Prop where
  | nil : TypedArrows []
  | other {t ts} : t.kind ≠ .arrow → TypedArrows ts → TypedArrows (t :: ts)
  | arrow {separator type arrow ts} : separator.kind = .typeSeparator → type.kind = .identifier →
      TypedArrows ts → TypedArrows (separator :: type :: arrow :: ts)

namespace TypedArrows

variable {ts us : List Token} {t : Token}

theorem append (h : TypedArrows ts) (h' : TypedArrows us) : TypedArrows (ts ++ us) := by
  induction h with
  | nil => exact h'
  | other ht _ ih => exact .other ht ih
  | arrow hseparator htype _ ih => exact .arrow hseparator htype ih

theorem of_kind {kind : TokenKind} (ht : t.kind = kind) (hkind : kind ≠ .arrow)
    (h : TypedArrows ts) : TypedArrows (t :: ts) :=
  .other (ht ▸ hkind) h

theorem of_isDo (ht : t.isDo) (h : TypedArrows ts) : TypedArrows (t :: ts) := by
  simp only [Token.isDo, Bool.and_eq_true, decide_eq_true_eq] at ht
  exact of_kind ht.1 (by decide) h

theorem semicolon (h : OptionalSemicolon ts) : TypedArrows ts := by
  cases h with
  | absent => exact .nil
  | present hkind => exact of_kind hkind (by decide) .nil

/-- Where an arrow is, there are two tokens in front of it. -/
theorem getElem? (h : TypedArrows ts) {k : Nat} {arrow : Token} (harrow : ts[k]? = some arrow)
    (hkind : arrow.kind = .arrow) :
    ∃ j separator, k = j + 2 ∧ ts[j]? = some separator ∧ separator.kind = .typeSeparator := by
  induction h generalizing k with
  | nil => cases harrow
  | @other t ts ht _ ih =>
      cases k with
      | zero =>
          cases harrow
          exact absurd hkind ht
      | succ k =>
          obtain ⟨j, separator, rfl, hj, hseparator⟩ := ih harrow
          exact ⟨j + 1, separator, rfl, hj, hseparator⟩
  | @arrow separator type arrow' ts hseparator htype _ ih =>
      match k with
      | 0 =>
          cases harrow
          exact absurd (hseparator.symm.trans hkind) (by decide)
      | 1 =>
          cases harrow
          exact absurd (htype.symm.trans hkind) (by decide)
      | 2 => exact ⟨0, separator, rfl, rfl, hseparator⟩
      | k + 3 =>
          obtain ⟨j, separator, rfl, hj, hseparator⟩ := ih harrow
          exact ⟨j + 3, separator, rfl, hj, hseparator⟩

theorem arrowsTyped (h : TypedArrows ts) : ArrowsTyped ts := by
  intro k arrow harrow hkind
  obtain ⟨j, separator, hk, hj, hseparator⟩ := h.getElem? harrow hkind
  obtain rfl : k = j := by omega
  exact ⟨separator, hj, hseparator⟩

end TypedArrows

open TypedArrows in
/-- Only declarations of methods have arrows. -/
theorem Phrase.SpelledBy.typedArrows {φ : Phrase} {tokens : List Token} (h : φ.SpelledBy tokens) :
    TypedArrows tokens := by
  induction h with
  | name hname => exact of_kind hname (by decide) .nil
  | literal hkind =>
      have hkinds : ∀ kind ∈ literalKinds, kind ≠ .arrow := by decide
      exact .other (hkinds _ hkind) .nil
  | grouping hopen _ hclose ih =>
      exact of_kind hopen (by decide) (ih.append (of_kind hclose (by decide) .nil))
  | unary hsign _ ih =>
      rcases hsign with hsign | hsign
      · exact of_kind hsign (by decide) ih
      · exact of_kind hsign (by decide) ih
  | @binary _ _ _ level _ _ _ hop _ ih ih' =>
      have hkinds : ∀ kind ∈ level.operators, kind ≠ .arrow := by cases level <;> decide
      exact ih.append (.other (hkinds _ hop) ih')
  | assign hname hequal _ ih => exact of_kind hname (by decide) (of_kind hequal (by decide) ih)
  | call hcallee hopen _ hclose ih =>
      have hargs := of_kind hopen (by decide) (ih.append (of_kind hclose (by decide) .nil))
      cases hcallee with
      | builtin hprint => exact of_kind hprint (by decide) hargs
      | method hname => exact of_kind hname (by decide) hargs
  | noArguments => exact .nil
  | lastArgument _ ih => exact ih
  | argument _ hcomma _ ih ih' => exact ih.append (of_kind hcomma (by decide) ih')
  | lastType hname => exact of_kind hname (by decide) .nil
  | type hname hcomma _ ih => exact of_kind hname (by decide) (of_kind hcomma (by decide) ih)
  | binding hname => exact of_kind hname (by decide) .nil
  | value _ ih => exact ih
  | noPatterns => exact .nil
  | lastPattern _ ih => exact ih
  | pattern _ hcomma _ ih ih' => exact ih.append (of_kind hcomma (by decide) ih')
  | classDecl hkeyword hname _ hlast ih =>
      exact of_kind hkeyword (by decide)
        (of_kind hname (by decide) (ih.append (of_kind hlast (by decide) .nil)))
  | methodDecl hname hseparator htype _ _ hsemis ih =>
      exact of_kind hname (by decide) (.arrow hseparator htype (ih.append (semicolon hsemis)))
  | varDecl hname hseparator htype hsemis =>
      exact of_kind hname (by decide)
        (of_kind hseparator (by decide) (of_kind htype (by decide) (semicolon hsemis)))
  | assignItem _ hsemis ih => exact ih.append (semicolon hsemis)
  | callItem _ hsemis ih => exact ih.append (semicolon hsemis)
  | exprItem _ hsemis ih => exact ih.append (semicolon hsemis)
  | ifThen hkeyword _ hstart _ hlast hsemis ih ih' =>
      have hblock := ih'.append (of_kind hlast (by decide) (semicolon hsemis))
      exact of_kind hkeyword (by decide) (ih.append (of_isDo hstart hblock))
  | whileLoop hkeyword _ hstart _ hlast hsemis ih ih' =>
      have hblock := ih'.append (of_kind hlast (by decide) (semicolon hsemis))
      exact of_kind hkeyword (by decide) (ih.append (of_isDo hstart hblock))
  | methodBody hname hopen _ hclose hstart _ hlast hsemis ih ih' =>
      have hblock := ih'.append (of_kind hlast (by decide) (semicolon hsemis))
      have hbody := ih.append (of_kind hclose (by decide) (of_isDo hstart hblock))
      exact of_kind hname (by decide) (of_kind hopen (by decide) hbody)
  | noItems => exact .nil
  | items _ _ ih ih' => exact ih.append ih'

/-! ## Accepted programs -/

namespace ParseState

theorem ofTokens_eq (tokens : List Token) {eof : Token} (h : eof.kind = .endOfInput) :
    ofTokens (tokens ++ [eof]) = { rest := tokens, closing := eof } := by
  simp [ofTokens, h]

end ParseState

/-- The tokens of an accepted program are all passed, with every budget that there is for
    them, and their arrows follow their types. -/
theorem passes_of_parseTokens {tokens : List Token} {eof : Token} {p : Parsed}
    (heof : eof.kind = .endOfInput) (hinner : ∀ t ∈ tokens, t.kind ≠ .endOfInput)
    (h : parseTokens (tokens ++ [eof]) = .ok p) :
    ∃ s', (∀ budget, tokens.length ≤ budget →
        (parseItems budget false).run (.ofTokens (tokens ++ [eof])) = (p.items, s')) ∧
      s'.scopes = p.scopes ∧ s'.errors = [] ∧ s'.rest = [] ∧
      (ParseState.ofTokens (tokens ++ [eof])).Passes tokens s' ∧ ArrowsTyped tokens := by
  obtain ⟨s', hrun, hscopes, herrors⟩ := parseTokens_eq_ok_iff.mp h
  rw [List.length_append, List.length_singleton] at hrun
  have hs := ParseState.ofTokens_closed (tokens ++ [eof])
  have hall : (ParseState.ofTokens (tokens ++ [eof])).rest = tokens := by
    rw [ParseState.ofTokens_eq tokens heof]
  generalize ParseState.ofTokens (tokens ++ [eof]) = s at hrun hs hall
  have hstops := parseItems_stops (tokens.length + 1) false s hs (by rw [hall]; omega)
  have hitems := read_parseItems (tokens.length + 1) false s (by rw [hrun]; exact herrors)
  rw [hrun] at hstops hitems
  obtain ⟨read, hread, hspelled⟩ := hitems.spells hs
  have hrest : s'.rest = [] := by
    cases hrest : s'.rest with
    | nil => rfl
    | cons t rest =>
        -- Reading would have stopped at an end of input among the tokens.
        have hmem : t ∈ tokens := by
          rw [← hall, hread.rest, hrest]
          exact List.mem_append_right _ List.mem_cons_self
        have hend : t.kind = .endOfInput := by
          simpa [ParseState.atEnd, ParseState.check, ParseState.current_of_rest hrest] using hstops
        exact absurd hend (hinner t hmem)
  have hread' : read = tokens := by
    have hread' := hread.rest
    rwa [hall, hrest, List.append_nil, eq_comm] at hread'
  subst hread'
  have hbudgets (budget : Nat) (hbudget : read.length ≤ budget) :
      (parseItems budget false).run s = (p.items, s') := by
    rw [agree_parseItems hbudget (Nat.le_succ _) false hs (by rw [hall]; exact Nat.lt_succ_self _),
      hrun]
  exact ⟨s', hbudgets, hscopes, herrors, hrest, hread, hspelled.typedArrows.arrowsTyped⟩

/-- A semicolon behind a declaration or a statement, at any depth, that has none behind it
    yet makes no difference: the tokens are accepted as before, with the same tree and table. -/
theorem optional_semicolon_neutral {front back : List Token} {eof semi : Token} {p : Parsed}
    (heof : eof.kind = .endOfInput) (hinner : ∀ t ∈ front ++ back, t.kind ≠ .endOfInput)
    (hp : parseTokens (front ++ back ++ [eof]) = .ok p)
    (hending : Ending p.items (wordsRead back).length) (hplace : Unseparated front back)
    (hsemi : semi.kind = .semicolon) :
    parseTokens (front ++ semi :: back ++ [eof]) = .ok p := by
  obtain ⟨s', hrun, hscopes, herrors, hrest, hpass, htyped⟩ := passes_of_parseTokens heof hinner hp
  rw [ParseState.ofTokens_eq _ heof] at hrun hpass
  -- The budget is that of the longer list, for both.
  have hbudget : (front ++ back).length ≤ (front ++ semi :: back ++ [eof]).length := by
    simp only [List.length_append, List.length_cons]
    omega
  have hout := ParseM.outcome_lift_ok.mpr (hrun _ hbudget)
  have habsorbs := (ParseM.absorbs_parseItems (front ++ semi :: back ++ [eof]).length false).absorbs
    { rest := front ++ back, closing := eof } heof htyped
  obtain ⟨line, hout'⟩ := habsorbs.absorbs hout hpass herrors hending
    (by rwa [hrest, List.append_nil]) hsemi 0
  rw [hrest, List.append_nil] at hout'
  refine parseTokens_eq_ok_iff.mpr ⟨s'.inFrontOf [] line, ?_, hscopes, herrors⟩
  rw [ParseState.ofTokens_eq _ heof]
  exact ParseM.outcome_lift_ok.mp hout'

/-- A token of a text on one line. -/
def plainToken (kind : TokenKind) (lexeme : String) : Token := ⟨kind, lexeme, none, ⟨0, 0, 1, 1⟩⟩

/-- The tokens of `class A x :: Int m :: Int <- Int m(n) do x`. -/
def bodyFront : List Token :=
  [ plainToken .kwClass "class", plainToken .identifier "A",
    plainToken .identifier "x", plainToken .typeSeparator "::", plainToken .identifier "Int",
    plainToken .identifier "m", plainToken .typeSeparator "::", plainToken .identifier "Int",
    plainToken .arrow "<-", plainToken .identifier "Int",
    plainToken .identifier "m", plainToken .leftParen "(", plainToken .identifier "n",
    plainToken .rightParen ")", plainToken .identifier "do", plainToken .identifier "x" ]

/-- The tokens of `print(n) end end`. -/
def bodyBack : List Token :=
  [ plainToken .kwPrint "print", plainToken .leftParen "(", plainToken .identifier "n",
    plainToken .rightParen ")", plainToken .kwEnd "end", plainToken .kwEnd "end" ]

/-- The program of `bodyFront` and `bodyBack`. -/
def bodyProgram : Parsed where
  items := [ .classDecl ⟨"A", 1⟩
    [ .varDecl ⟨"x", 1⟩ "Int", .methodDecl ⟨"m", 1⟩ "Int" ["Int"],
      .methodBody ⟨0, 0, ⟨"m", 1⟩, [.binding ⟨"n", 1⟩]⟩
        [ .expr (.name ⟨"x", 1⟩), .call ⟨⟨"print", 1⟩, .builtin .print⟩ [.name ⟨"n", 1⟩] ] ] ]
  scopes :=
    { classes := #[⟨"A", none, { methods := [0], vars := [0] }⟩]
      methods := #[⟨"m", "Int", ["Int"], some 0, none, { vars := [1] }, [0]⟩]
      vars := #[⟨"x", none, some 0, none⟩, ⟨"n", none, some 0, some 0⟩]
      global := { classes := [0] }
      bodyCount := 1 }

/-- Between two statements of a method body in a class. -/
theorem semicolon_in_body_neutral :
    parseTokens (bodyFront ++ bodyBack ++ [plainToken .endOfInput ""]) = .ok bodyProgram ∧
      Ending bodyProgram.items (wordsRead bodyBack).length ∧ Unseparated bodyFront bodyBack ∧
      parseTokens (bodyFront ++ plainToken .semicolon ";" :: bodyBack ++
        [plainToken .endOfInput ""]) = .ok bodyProgram := by
  have hparse : parseTokens (bodyFront ++ bodyBack ++ [plainToken .endOfInput ""]) =
      .ok bodyProgram := by cbv
  have hwords : (wordsRead bodyBack).length = 4 + 1 + 0 + 1 + 0 := by decide
  have hending : Ending bodyProgram.items (4 + 1 + 0 + 1 + 0) :=
    .inBlock (.later (.later (.inBlock (.here rfl))))
  rw [← hwords] at hending
  have hplace : Unseparated bodyFront bodyBack :=
    ⟨by simp [bodyFront, plainToken], by simp [bodyBack, plainToken]⟩
  exact ⟨hparse, hending, hplace,
    optional_semicolon_neutral rfl (by decide) hparse hending hplace rfl⟩

end BlockLang
