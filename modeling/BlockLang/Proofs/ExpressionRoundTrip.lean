/-
  BlockLang.Proofs.ExpressionRoundTrip

  Rendered expressions are read back.

  A rendered expression reads as the words of its tree.  Tokens with these words are the
  tokens of a tree that differs in lines only, so it is stratified like the first one and
  names the same things; reading it where the first one was read yields it.
-/
import BlockLang.Proofs.PrecedenceGrammar
import BlockLang.Proofs.Parser.Scoping
import BlockLang.Proofs.Rendering.Words

namespace BlockLang

/-! ## Trees from words -/

/-- A token that reads as a written word has its kind and its lexeme. -/
theorem Token.eq_of_piece_written {t : Token} {kind : TokenKind} {lexeme : String}
    (h : t.piece = (Word.written kind lexeme).piece) : t.kind = kind ∧ t.lexeme = lexeme := by
  obtain ⟨hkind, hlexeme, -⟩ := Piece.token.inj h
  exact ⟨hkind, hlexeme⟩

/-- A token that reads as a literal has its value. -/
theorem Token.eq_of_piece_literal {t : Token} {v : Value}
    (h : t.piece = (Word.literal v).piece) : t.kind ∈ literalKinds ∧ t.literal = some v := by
  cases v with
  | boolean b =>
      obtain ⟨hkind, -, hliteral⟩ := Piece.token.inj h
      rw [hkind, hliteral]
      cases b <;> decide
  | null =>
      obtain ⟨hkind, -, hliteral⟩ := Piece.token.inj h
      rw [hkind, hliteral]
      decide
  | _ =>
      obtain ⟨hkind, -, hliteral⟩ := Piece.token.inj h
      exact ⟨hkind ▸ by decide, hliteral⟩

theorem Token.ident_of_piece {t : Token} {id : Ident}
    (h : t.piece = (Word.name id.name).piece) :
    t.kind = .identifier ∧ (Ident.ofToken t).unlined = id.unlined := by
  obtain ⟨hkind, hlexeme⟩ := eq_of_piece_written h
  exact ⟨hkind, congrArg (Ident.mk · 0) hlexeme⟩

theorem Token.operator_of_piece {t : Token} {op : Operator} (h : t.piece = op.word.piece) :
    (Operator.ofToken t).unlined = op.unlined := by
  obtain ⟨hkind, hlexeme⟩ := eq_of_piece_written h
  rw [Operator.unlined, Operator.unlined, Operator.ofToken, hkind, hlexeme]

theorem Token.callee_of_piece {t : Token} {callee : Callee} (h : t.piece = callee.word.piece) :
    ∃ callee' : Callee, callee'.WrittenBy t ∧ callee'.unlined = callee.unlined := by
  obtain ⟨name, f | id⟩ := callee
  · obtain ⟨hkind, hlexeme⟩ := eq_of_piece_written h
    cases f
    exact ⟨_, .builtin hkind, congrArg (fun n => Callee.mk ⟨n, 0⟩ _) hlexeme⟩
  · obtain ⟨hkind, hname⟩ := ident_of_piece h
    exact ⟨_, .method hkind, congrArg (Callee.mk · _) hname⟩

theorem Token.kind_of_piece_mark {t : Token} {kind : TokenKind}
    (h : t.piece = (Word.mark kind).piece) : t.kind = kind :=
  (eq_of_piece_written h).1

/-- Tokens that read as words in parentheses. -/
theorem exists_parens {ts : List Token} {words : List Word}
    (h : ts.map Token.piece = (parenthesized words).map Word.piece) :
    ∃ opening inner closing, ts = opening :: (inner ++ [closing]) ∧ opening.kind = .leftParen ∧
      closing.kind = .rightParen ∧ inner.map Token.piece = words.map Word.piece := by
  rw [parenthesized, List.map_cons, List.map_append] at h
  obtain ⟨opening, rest, rfl, hopen, hrest⟩ := List.map_eq_cons_iff.mp h
  obtain ⟨inner, last, rfl, hinner, hlast⟩ := List.map_eq_append_iff.mp hrest
  obtain ⟨closing, none, rfl, hclose, hnone⟩ := List.map_eq_cons_iff.mp hlast
  obtain rfl := List.map_eq_nil_iff.mp hnone
  exact ⟨opening, inner, closing, rfl, Token.kind_of_piece_mark hopen,
    Token.kind_of_piece_mark hclose, hinner⟩

mutual

/-- Tokens that read as the words of an expression are those of one that differs from it in
    lines only. -/
theorem Expr.exists_writtenBy : ∀ (e : Expr) {ts : List Token},
    ts.map Token.piece = e.words.map Word.piece →
      ∃ e' : Expr, e'.WrittenBy ts ∧ e'.unlined = e.unlined
  | .assign target value, ts, h => by
      rw [Expr.words, List.map_cons, List.map_cons] at h
      obtain ⟨t, rest, rfl, ht, hrest⟩ := List.map_eq_cons_iff.mp h
      obtain ⟨equal, ts, rfl, hequal, hts⟩ := List.map_eq_cons_iff.mp hrest
      obtain ⟨hkind, htarget⟩ := Token.ident_of_piece ht
      obtain ⟨value', hwritten, hvalue⟩ := value.exists_writtenBy hts
      refine ⟨_, .assign hkind (Token.kind_of_piece_mark hequal) hwritten, ?_⟩
      rw [Expr.unlined, Expr.unlined, htarget, hvalue]
  | .binary level left op right, ts, h => by
      rw [Expr.words, List.map_append, List.map_cons] at h
      obtain ⟨ls, rest, rfl, hls, hrest⟩ := List.map_eq_append_iff.mp h
      obtain ⟨t, rs, rfl, ht, hrs⟩ := List.map_eq_cons_iff.mp hrest
      obtain ⟨left', hwrittenLeft, hleft⟩ := left.exists_writtenBy hls
      obtain ⟨right', hwrittenRight, hright⟩ := right.exists_writtenBy hrs
      refine ⟨.binary level left' (.ofToken t) right', .binary hwrittenLeft hwrittenRight, ?_⟩
      rw [Expr.unlined, Expr.unlined, hleft, hright, Token.operator_of_piece ht]
  | .unary op operand, ts, h => by
      rw [Expr.words, List.map_cons] at h
      obtain ⟨t, ts, rfl, ht, hts⟩ := List.map_eq_cons_iff.mp h
      obtain ⟨operand', hwritten, hoperand⟩ := operand.exists_writtenBy hts
      refine ⟨_, .unary hwritten, ?_⟩
      rw [Expr.unlined, Expr.unlined, hoperand, Token.operator_of_piece ht]
  | .grouping inner, ts, h => by
      obtain ⟨opening, ts, closing, rfl, hopen, hclose, hts⟩ := exists_parens h
      obtain ⟨inner', hwritten, hinner⟩ := inner.exists_writtenBy hts
      refine ⟨_, .grouping hopen hclose hwritten, ?_⟩
      rw [Expr.unlined, Expr.unlined, hinner]
  | .literal v, ts, h => by
      obtain ⟨t, none, rfl, ht, hnone⟩ := List.map_eq_cons_iff.mp h
      obtain rfl := List.map_eq_nil_iff.mp hnone
      obtain ⟨hkind, hvalue⟩ := Token.eq_of_piece_literal ht
      exact ⟨_, .literal hkind hvalue, rfl⟩
  | .name id, ts, h => by
      obtain ⟨t, none, rfl, ht, hnone⟩ := List.map_eq_cons_iff.mp h
      obtain rfl := List.map_eq_nil_iff.mp hnone
      obtain ⟨hkind, hid⟩ := Token.ident_of_piece ht
      exact ⟨_, .name hkind, congrArg Expr.name hid⟩
  | .call callee arguments, ts, h => by
      rw [Expr.words, List.map_cons] at h
      obtain ⟨t, rest, rfl, ht, hrest⟩ := List.map_eq_cons_iff.mp h
      obtain ⟨opening, ts, closing, rfl, hopen, hclose, hts⟩ := exists_parens hrest
      obtain ⟨callee', hname, hcallee⟩ := Token.callee_of_piece ht
      obtain ⟨arguments', hwritten, harguments⟩ := exists_writtenBy_arguments arguments hts
      refine ⟨_, .call hname hopen hclose hwritten, ?_⟩
      rw [Expr.unlined, Expr.unlined, hcallee, harguments]

theorem exists_writtenBy_arguments : ∀ (es : List Expr) {ts : List Token},
    ts.map Token.piece = (commaed (wordsOfEach es)).map Word.piece →
      ∃ es' : List Expr, (Phrase.arguments es').WrittenBy ts ∧ unlinedExprs es' = unlinedExprs es
  | [], ts, h => by
      obtain rfl := List.map_eq_nil_iff.mp h
      exact ⟨[], .noArguments, rfl⟩
  | [e], ts, h => by
      rw [wordsOfEach, wordsOfEach, commaed_singleton] at h
      obtain ⟨e', hwritten, he⟩ := e.exists_writtenBy h
      refine ⟨[e'], .lastArgument hwritten, ?_⟩
      rw [unlinedExprs, unlinedExprs, unlinedExprs, he]
      rfl
  | e :: next :: es, ts, h => by
      rw [wordsOfEach, wordsOfEach, commaed_cons_cons, List.map_append, List.map_cons] at h
      obtain ⟨ts, rest, rfl, hts, hrest⟩ := List.map_eq_append_iff.mp h
      obtain ⟨comma, more, rfl, hcomma, hmore⟩ := List.map_eq_cons_iff.mp hrest
      obtain ⟨e', hwritten, he⟩ := e.exists_writtenBy hts
      obtain ⟨es', hwrittenMore, hes⟩ := exists_writtenBy_arguments (next :: es) hmore
      -- There are as many arguments as before, so one follows the comma.
      cases es' with
      | nil => cases hes
      | cons next' es' =>
          refine ⟨_, .argument (Token.kind_of_piece_mark hcomma) hwritten hwrittenMore, ?_⟩
          show e'.unlined :: unlinedExprs (next' :: es') = e.unlined :: unlinedExprs (next :: es)
          rw [he, hes]

end

/-! ## Trees that differ in lines -/

mutual

/-- What does not depend on lines holds everywhere in an expression when it does once all
    lines are left out. -/
theorem Expr.each_unlined {P : Expr → Prop} (hP : ∀ e : Expr, P e.unlined ↔ P e) :
    ∀ e : Expr, (Phrase.expr e.unlined).Each P ↔ (Phrase.expr e).Each P
  | .assign target value => by
      rw [Phrase.each_expr_iff, Phrase.each_expr_iff, hP]
      simp [Expr.unlined, Phrase.parts, value.each_unlined hP]
  | .binary level left op right => by
      rw [Phrase.each_expr_iff, Phrase.each_expr_iff, hP]
      simp [Expr.unlined, Phrase.parts, left.each_unlined hP, right.each_unlined hP]
  | .unary op operand => by
      rw [Phrase.each_expr_iff, Phrase.each_expr_iff, hP]
      simp [Expr.unlined, Phrase.parts, operand.each_unlined hP]
  | .grouping inner => by
      rw [Phrase.each_expr_iff, Phrase.each_expr_iff, hP]
      simp [Expr.unlined, Phrase.parts, inner.each_unlined hP]
  | .literal v => by
      rw [Phrase.each_expr_iff, Phrase.each_expr_iff, hP]
      simp [Expr.unlined, Phrase.parts]
  | .name id => by
      rw [Phrase.each_expr_iff, Phrase.each_expr_iff, hP]
      simp [Expr.unlined, Phrase.parts]
  | .call callee arguments => by
      rw [Phrase.each_expr_iff, Phrase.each_expr_iff, hP]
      simp [Expr.unlined, Phrase.parts, each_unlinedExprs hP arguments]

theorem each_unlinedExprs {P : Expr → Prop} (hP : ∀ e : Expr, P e.unlined ↔ P e) :
    ∀ es : List Expr, (Phrase.arguments (unlinedExprs es)).Each P ↔ (Phrase.arguments es).Each P
  | [] => Iff.rfl
  | e :: es => by
      have hmore := each_unlinedExprs hP es
      rw [Phrase.each_arguments, Phrase.each_arguments] at hmore ⊢
      rw [unlinedExprs, List.forall_mem_cons, List.forall_mem_cons, e.each_unlined hP, hmore]

end

/-- What does not depend on lines holds in two expressions alike that differ in lines only. -/
theorem Expr.each_of_unlined_eq {P : Expr → Prop} (hP : ∀ e : Expr, P e.unlined ↔ P e)
    {e e' : Expr} (h : e'.unlined = e.unlined) (he : (Phrase.expr e).Each P) :
    (Phrase.expr e').Each P := by
  rw [← e'.each_unlined hP, h, e.each_unlined hP]
  exact he

namespace Expr

theorem tightness_unlined (e : Expr) : e.unlined.tightness = e.tightness := by
  cases e <;> rfl

theorem layered_unlined (e : Expr) : e.unlined.Layered ↔ e.Layered := by
  cases e with
  | binary level left op right =>
      rw [unlined, Layered, Layered, tightness_unlined, tightness_unlined]
      rfl
  | unary op operand =>
      rw [unlined, Layered, Layered, tightness_unlined]
      rfl
  | _ => rfl

theorem refers_unlined (t : ScopeTable) (c : Cursor) (e : Expr) :
    e.unlined.Refers t c ↔ e.Refers t c := by
  cases e with
  | call callee es =>
      obtain ⟨name, _ | id⟩ := callee
      · rfl
      · rfl
  | _ => rfl

end Expr

/-! ## States inside a program -/

namespace ParseState

@[simp] theorem advance_closing (s : ParseState) : s.advance.closing = s.closing := by
  unfold advance
  split
  · rfl
  · split <;> rfl

@[simp] theorem pass_closing (s : ParseState) (kind : TokenKind) :
    (s.pass kind).closing = s.closing := by
  unfold pass
  split
  · exact s.advance_closing
  · rfl

/-- The same tokens, with a table and a place of another program. -/
def placedAt (s : ParseState) (scopes : ScopeTable) (cursor : Cursor) : ParseState :=
  { s with scopes, cursor }

/-- Tokens that end with an end of input. -/
theorem ofTokens_concat (ts : List Token) {last : Token} (h : last.kind = .endOfInput) :
    (ofTokens (ts ++ [last])).rest = ts := by
  have hlast : (ts ++ [last]).getLast? = some last := List.getLast?_concat
  simp [ofTokens, hlast, h]

end ParseState

/-- The end of the program stays the same. -/
theorem Passage.Read.closing {ρ : Passage} (h : ρ.Read) :
    ρ.after.closing = ρ.before.closing := by
  induction h with
  | intro hprod _ ih =>
      induction hprod with
      | _ => simp_all

theorem Production.closing {φ : Phrase} {s s' : ParseState} {parts : List Passage}
    (h : Production φ s parts s') (hparts : ∀ σ ∈ parts, σ.after.closing = σ.before.closing) :
    ∀ σ ∈ parts, σ.before.closing = s.closing := by
  induction h with
  | _ => simp_all

theorem Passage.At.closed {ρ τ : Passage} {path : Path} (h : ρ.At path τ)
    (hρ : ρ.before.Closed) : τ.before.Closed := by
  induction h with
  | here ρ => exact hρ
  | part hprod hparts hk _ ih =>
      refine ih ?_
      unfold ParseState.Closed
      rw [hprod.closing (fun σ hσ => (hparts σ hσ).closing) _ (List.mem_of_getElem? hk)]
      exact hρ

/-! ## The round trip -/

/-- A rendered expression of an accepted text has no lexical errors, and its tokens are those
    of an expression that differs in lines only. -/
theorem Expr.Readable.exists_tokens {e : Expr} (h : e.Readable) :
    ∃ ts last, tokenize e.render = .ok (ts ++ [last]) ∧ last.kind = .endOfInput ∧
      ∃ e' : Expr, e'.WrittenBy ts ∧ e'.unlined = e.unlined := by
  obtain ⟨tokens, htokens, hpieces⟩ := (h.reads.scans .nil).exists_tokenize (faults_words e.words)
  obtain ⟨ts, rest, rfl, hts, hrest⟩ := List.map_eq_append_iff.mp hpieces
  obtain ⟨last, none, rfl, hlast, hnone⟩ := List.map_eq_cons_iff.mp hrest
  obtain rfl := List.map_eq_nil_iff.mp hnone
  exact ⟨ts, last, htokens, (Piece.token.inj hlast).1, e.exists_writtenBy hts⟩

/-- The tokens of an expression in front of an end of input are read as that expression, and
    none of them is left. -/
theorem Expr.WrittenBy.outcome_ofTokens {e : Expr} {ts : List Token} (h : e.WrittenBy ts)
    {last : Token} (hlast : last.kind = .endOfInput) {scopes : ScopeTable} {cursor : Cursor}
    (he : e.Stratified) (hresolves : e.Resolves scopes cursor) {budget : Nat}
    (hbudget : (ts ++ [last]).length ≤ budget) :
    ∃ s', (ParseM.expression budget).outcome
        ((ParseState.ofTokens (ts ++ [last])).placedAt scopes cursor) = (.ok e, s') ∧
      s'.rest = [] ∧ s'.atEnd := by
  have hrest := ParseState.ofTokens_concat ts hlast
  have hclosed := ParseState.ofTokens_closed (ts ++ [last])
  generalize ParseState.ofTokens (ts ++ [last]) = s at hrest hclosed
  have hrest' : (s.placedAt scopes cursor).rest = ts ++ [] := by rw [List.append_nil, ← hrest]; rfl
  have hlength : (s.placedAt scopes cursor).rest.length ≤ budget := by
    rw [hrest']
    simp only [List.length_append, List.length_nil, List.length_singleton] at hbudget ⊢
    omega
  have hend : s.closing.kind.EndsExpression := by
    have hkind : s.closing.kind = .endOfInput := hclosed
    rw [hkind]
    decide
  obtain ⟨s', houtcome, hsteps⟩ :=
    h.outcome_expression (s := s.placedAt scopes cursor) hclosed hrest' hlength hend he hresolves
  have hnone : s'.rest = [] := by
    have hsplit := hsteps.passes.rest
    rw [hrest'] at hsplit
    exact (List.append_cancel_left hsplit).symm
  exact ⟨s', houtcome, hnone, ParseState.atEnd_of_rest_nil (hsteps.passes.closed hclosed) hnone⟩

/-- Rendering an expression of an accepted text gives a text without lexical errors.  Where
    the parser read the expression, it reads one from the tokens of that text which differs in
    lines only, and none of the tokens is left. -/
theorem rendered_expression_reads_back {text : String} {p : Parsed} (hp : parse text = .ok p)
    {path : Path} {e : Expr} (he : (Phrase.items p.items).at? path = some (.expr e)) :
    ∃ tokens, tokenize e.render = .ok tokens ∧
      (∃ root τ, ReadsText text p root ∧ root.At path τ) ∧
      ∀ root τ, ReadsText text p root → root.At path τ → τ.phrase = .expr e ∧
        ∀ budget, tokens.length ≤ budget → ∃ e' s',
          (ParseM.expression budget).outcome
            ((ParseState.ofTokens tokens).placedAt τ.before.scopes τ.before.cursor) = (.ok e', s') ∧
          e'.unlined = e.unlined ∧ s'.rest = [] ∧ s'.atEnd := by
  have hstratified := (layered_of_parse hp).at_path he
  have hreadable : e.Readable := ((legible_of_parse hp).at_path he).readable hstratified
  obtain ⟨ts, last, htokens, hlast, e', hwritten, hsame⟩ := hreadable.exists_tokens
  refine ⟨_, htokens, (readAt_of_at? hp he).reads, fun root τ hroot hτ => ?_⟩
  have hphrase := hroot.phrase_at hτ he
  refine ⟨hphrase, fun budget hbudget => ?_⟩
  -- What the expression names is found where it was read, and the other one names the same.
  have hclosed : τ.before.Closed := by
    obtain ⟨tokens, -, hbefore⟩ := hroot.before
    exact hτ.closed (hbefore ▸ ParseState.ofTokens_closed tokens)
  have hrefers := ((hτ.read hroot.read).writtenBy hclosed (hphrase ▸ trivial)).2
  rw [hphrase] at hrefers
  obtain ⟨s', houtcome, hrest, hend⟩ := hwritten.outcome_ofTokens hlast
    (Expr.each_of_unlined_eq Expr.layered_unlined hsame hstratified)
    (Expr.each_of_unlined_eq (Expr.refers_unlined _ _) hsame hrefers) hbudget
  exact ⟨e', s', houtcome, hsame, hrest, hend⟩

/-- Two signs in a row, a sign behind an operator, an assignment as an argument, a number with
    a fraction and a string over two lines. -/
def signsText : String :=
  "f :: Int <- Int, Str\nx :: Int\nx = - -1 < -f(x = 2.50, \"a\n\")\n"

/-- The text of a phrase that is an expression. -/
def Phrase.rendered? : Phrase → Option String
  | expr e => some e.render
  | _ => none

theorem signs_read_back :
    ∃ p e, parse signsText = .ok p ∧ (Phrase.items p.items).at? [1, 1, 0, 0] = some (.expr e) ∧
      e.render = "- -1 < -f(x = 2.5, \"a\n\")" ∧
      ∃ tokens root τ, tokenize e.render = .ok tokens ∧ ReadsText signsText p root ∧
        root.At [1, 1, 0, 0] τ ∧ ∃ e' s',
          (ParseM.expression tokens.length).outcome
            ((ParseState.ofTokens tokens).placedAt τ.before.scopes τ.before.cursor) = (.ok e', s') ∧
          e'.unlined = e.unlined ∧ s'.rest = [] := by
  have hrendered : ((parse signsText).toOption.bind fun p =>
      ((Phrase.items p.items).at? [1, 1, 0, 0]).bind Phrase.rendered?) =
        some "- -1 < -f(x = 2.5, \"a\n\")" := by decide +kernel
  obtain ⟨p, hp, hrendered⟩ := Option.bind_eq_some_iff.mp hrendered
  obtain ⟨φ, hφ, hrendered⟩ := Option.bind_eq_some_iff.mp hrendered
  have hparse := eq_ok_of_toOption hp
  cases φ with
  | expr e =>
      obtain ⟨tokens, htokens, ⟨root, τ, hroot, hτ⟩, hreads⟩ :=
        rendered_expression_reads_back hparse hφ
      obtain ⟨-, hbudget⟩ := hreads root τ hroot hτ
      obtain ⟨e', s', houtcome, hsame, hrest, -⟩ := hbudget tokens.length (Nat.le_refl _)
      exact ⟨p, e, hparse, hφ, Option.some.inj hrendered, tokens, root, τ, htokens, hroot, hτ,
        e', s', houtcome, hsame, hrest⟩
  | _ => cases hrendered

end BlockLang
