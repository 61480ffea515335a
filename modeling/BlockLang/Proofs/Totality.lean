/-
  BlockLang.Proofs.Totality

  Every list of tokens can be read to its end.

  Reading never depends on itself at the same place, so it comes to an end; it stays in
  front of the first end-of-input token and gets on with every round.  The brackets that it
  counts on the way never close more often than they opened.  It finds no more errors than
  tokens, each on the line of a token.
-/
import BlockLang.Proofs.Parser.Recursion

namespace BlockLang

/-! ## Counting brackets -/

/-- What opens and what closes. -/
structure Brackets where
  opens : Token → Bool
  closes : Token → Bool

namespace Brackets

/-- Parentheses. -/
def parens : Brackets := ⟨(·.kind = .leftParen), (·.kind = .rightParen)⟩

/-- Blocks, each with the `end` that closes it. -/
def blocks : Brackets := ⟨fun t => t.kind = .kwClass || t.isDo, (·.kind = .kwEnd)⟩

/-- The tokens behind the bracket that closes the last open one, or those in front of which
    the program ends, where `depth` brackets are open.  There is no result if a bracket
    closes while none is open. -/
def behind? (b : Brackets) (depth : Nat) : List Token → Option (List Token)
  | [] => some []
  | t :: ts =>
    if t.kind = .endOfInput then some (t :: ts)
    else if b.opens t then b.behind? (depth + 1) ts
    else if b.closes t then
      if depth = 0 then none
      else if depth - 1 = 0 then some ts
      else b.behind? (depth - 1) ts
    else b.behind? depth ts

theorem behind?_cons_of_opens {b : Brackets} {depth : Nat} {t : Token} {ts : List Token}
    (hend : t.kind ≠ .endOfInput) (h : b.opens t) :
    b.behind? depth (t :: ts) = b.behind? (depth + 1) ts := by
  rw [behind?, if_neg hend, if_pos h]

/-- A function of the tokens that counts brackets while at least one is open, and makes its
    result from the tokens at which it stops.  It may take notes on the way. -/
structure Counts (b : Brackets) {σ β : Type} (f : Nat → σ → List Token → β)
    (result : List Token → β) : Prop where
  nil : ∀ depth n, f (depth + 1) n [] = result []
  stop : ∀ depth n t ts, t.kind = .endOfInput → f (depth + 1) n (t :: ts) = result (t :: ts)
  opening : ∀ depth n t ts, t.kind ≠ .endOfInput → b.opens t →
    ∃ n', f (depth + 1) n (t :: ts) = f (depth + 2) n' ts
  last : ∀ n t ts, t.kind ≠ .endOfInput → ¬b.opens t → b.closes t → f 1 n (t :: ts) = result ts
  closing : ∀ depth n t ts, t.kind ≠ .endOfInput → ¬b.opens t → b.closes t →
    ∃ n', f (depth + 2) n (t :: ts) = f (depth + 1) n' ts
  other : ∀ depth n t ts, t.kind ≠ .endOfInput → ¬b.opens t → ¬b.closes t →
    ∃ n', f (depth + 1) n (t :: ts) = f (depth + 1) n' ts

/-- While a bracket is open, none closes too much. -/
theorem Counts.behind?_eq {b : Brackets} {σ β : Type} {f : Nat → σ → List Token → β}
    {result : List Token → β} (h : Counts b f result) (depth : Nat) (n : σ) (ts : List Token) :
    (b.behind? (depth + 1) ts).map result = some (f (depth + 1) n ts) := by
  induction ts generalizing depth n with
  | nil => exact congrArg some (h.nil depth n).symm
  | cons t ts ih =>
      rw [behind?]
      by_cases hend : t.kind = .endOfInput
      · rw [if_pos hend, h.stop depth n t ts hend]
        rfl
      · rw [if_neg hend]
        by_cases hopen : b.opens t
        · obtain ⟨n', hn'⟩ := h.opening depth n t ts hend hopen
          rw [if_pos hopen, hn']
          exact ih (depth + 1) n'
        · rw [if_neg hopen]
          by_cases hclose : b.closes t
          · -- The bracket that would bring the count to zero is the one that ends it.
            rw [if_pos hclose, if_neg (Nat.succ_ne_zero depth), Nat.add_sub_cancel]
            cases depth with
            | zero =>
                rw [if_pos rfl, h.last n t ts hend hopen hclose]
                rfl
            | succ depth =>
                obtain ⟨n', hn'⟩ := h.closing depth n t ts hend hopen hclose
                rw [if_neg (Nat.succ_ne_zero depth), hn']
                exact ih depth n'
          · obtain ⟨n', hn'⟩ := h.other depth n t ts hend hopen hclose
            rw [if_neg hclose, hn']
            exact ih depth n'

end Brackets

namespace ParseState

open Brackets

theorem counts_skipBlock :
    Counts blocks (fun depth s ts => (skipBlock (depth - 1) s ts).rest) id where
  nil _ _ := rfl
  stop _ _ t ts hend := by simp [skipBlock, hend]
  opening depth s t ts hend hopen := by
    refine ⟨{ s with lastLine := t.line }, ?_⟩
    simp_all [skipBlock, blocks]
  last s t ts hend hopen hclose := by simp_all [skipBlock, blocks]
  closing depth s t ts hend hopen hclose := by
    refine ⟨{ s with lastLine := t.line }, ?_⟩
    simp_all [skipBlock, blocks]
  other depth s t ts hend hopen hclose := by
    refine ⟨{ s with lastLine := t.line }, ?_⟩
    simp_all [skipBlock, blocks]

theorem counts_skipParens :
    Counts parens (fun depth s ts => (skipParens depth s ts).rest) id where
  nil _ _ := rfl
  stop _ _ t ts hend := by simp [skipParens, hend]
  opening depth s t ts hend hopen := by
    refine ⟨{ s with lastLine := t.line }, ?_⟩
    simp_all [skipParens, parens]
  last s t ts hend hopen hclose := by simp_all [skipParens, parens]
  closing depth s t ts hend hopen hclose := by
    refine ⟨{ s with lastLine := t.line }, ?_⟩
    simp_all [skipParens, parens]
  other depth s t ts hend hopen hclose := by
    refine ⟨{ s with lastLine := t.line }, ?_⟩
    simp_all [skipParens, parens]

/-- Whether `do` is the first of some tokens. -/
def startsWithDo (ts : List Token) : Bool := (ts.head?.map Token.isDo).getD false

theorem counts_closesBeforeDo :
    Counts parens (fun depth (_ : Unit) ts => closesBeforeDo depth ts) startsWithDo where
  nil _ _ := rfl
  stop _ _ t ts hend := by simp [closesBeforeDo, startsWithDo, Token.isDo, hend]
  opening depth _ t ts hend hopen := by
    refine ⟨(), ?_⟩
    simp_all [closesBeforeDo, parens]
  last _ t ts hend hopen hclose := by simp_all [closesBeforeDo, startsWithDo, parens]
  closing depth _ t ts hend hopen hclose := by
    refine ⟨(), ?_⟩
    simp_all [closesBeforeDo, parens]
  other depth _ t ts hend hopen hclose := by
    refine ⟨(), ?_⟩
    simp_all [closesBeforeDo, parens]

/-- A parenthesis that is seen behind the next token is among the tokens. -/
theorem drop_one_of_peekAt {s : ParseState} (hs : s.Closed) (h : (s.peekAt 1).kind = .leftParen) :
    ∃ t ts, s.rest.drop 1 = t :: ts ∧ t.kind = .leftParen := by
  rcases hrest : s.rest with _ | ⟨t, _ | ⟨t', ts⟩⟩
  · rw [peekAt, hrest] at h
    exact absurd (h.symm.trans hs) (by decide)
  · rw [peekAt, hrest] at h
    exact absurd (h.symm.trans hs) (by decide)
  · rw [peekAt, hrest] at h
    exact ⟨t', ts, rfl, h⟩

/-- The closing token is no `do`. -/
theorem isDo_current {s : ParseState} (hs : s.Closed) : s.current.isDo = startsWithDo s.rest := by
  cases hrest : s.rest with
  | nil =>
      unfold Closed at hs
      simp [current, peekAt, startsWithDo, Token.isDo, hrest, hs]
  | cons t ts => simp [current_of_rest hrest, startsWithDo]

theorem rest_advance {s : ParseState} (hs : s.Closed) (hend : s.atEnd = false) :
    s.advance.rest = s.rest.drop 1 := by
  rw [(passes_advance hs hend).rest]
  rfl

/-- Where parentheses open, they are counted from none on. -/
theorem behind?_atMethodBody {s : ParseState} (hs : s.Closed)
    (hparen : (s.peekAt 1).kind = .leftParen) :
    (parens.behind? 0 (s.rest.drop 1)).map startsWithDo = some s.atMethodBody := by
  obtain ⟨t, ts, hrest, hkind⟩ := drop_one_of_peekAt hs hparen
  have hend : t.kind ≠ .endOfInput := by rw [hkind]; decide
  have hatBody : s.atMethodBody = closesBeforeDo 1 ts := by
    rw [atMethodBody, hrest, closesBeforeDo, if_neg hend, if_pos hkind]
  rw [hrest, behind?_cons_of_opens hend (decide_eq_true hkind), hatBody]
  exact counts_closesBeforeDo.behind?_eq 0 () ts

theorem behind?_skipParens {s : ParseState} {t : Token} {ts : List Token} (hrest : s.rest = t :: ts)
    (hkind : t.kind = .leftParen) :
    parens.behind? 0 s.rest = some (s.skipParens 0 s.rest).rest := by
  have hend : t.kind ≠ .endOfInput := by rw [hkind]; decide
  rw [hrest, behind?_cons_of_opens hend (decide_eq_true hkind), skipParens, if_neg hend,
    if_pos hkind]
  simpa using counts_skipParens.behind?_eq 0 _ ts

theorem behind?_skipBlock (s : ParseState) :
    blocks.behind? 1 s.rest = some (s.skipBlock 0 s.rest).rest := by
  simpa using counts_skipBlock.behind?_eq 0 s s.rest

/-- Passing over a body is passing its parentheses, its `do` if it has one, and its block. -/
theorem behind?_skipMethodBody {s : ParseState} (hs : s.Closed) {behind : List Token}
    (h : (s.skipParens 0 s.rest).rest = behind) :
    blocks.behind? 1 (if startsWithDo behind then behind.tail else behind) =
      some s.skipMethodBody.rest := by
  -- The closing token stays the same, so a `do` that is seen is among the tokens.
  have hclosed : (s.skipParens 0 s.rest).Closed := (Plain.skipParens s).closed hs
  subst h
  rw [skipMethodBody, ← isDo_current hclosed]
  split
  · rename_i hdo
    have hend : (s.skipParens 0 s.rest).atEnd = false := by
      simp only [Token.isDo, Bool.and_eq_true, decide_eq_true_eq] at hdo
      exact atEnd_of_kind hdo.1 (by decide)
    rw [← List.drop_one, ← rest_advance hclosed hend]
    exact behind?_skipBlock _
  · exact behind?_skipBlock _

end ParseState

/-- A body of a method that is not visible is passed over. -/
theorem ParseM.outcome_methodBody_of_unknown {s : ParseState}
    (hnone : s.scopes.resolveMethod s.current.lexeme s.cursor = none) (budget : Nat)
    (content : StateM ParseState (List Item)) :
    (methodBody budget content).outcome s =
      (.error (.scope (.undeclared .method s.current.lexeme) s.current.line),
        s.advance.skipMethodBody) := by
  rw [methodBody, outcome_bind, outcome_next]
  dsimp only
  rw [outcome_bind, outcome_get]
  simp only [Ident.ofToken, ParseState.advance_scopes, ParseState.advance_cursor, hnone]
  rfl

open Brackets ParseState in
/-- Wherever the parser counts brackets, none closes while none is open. -/
structure CountsSafely : Prop where
  /-- Looking for the `do` behind the parentheses that follow a name, which tells a body from
      a call. -/
  lookahead : ∀ (s : ParseState) budget content, s.Closed → s.current.kind = .identifier →
    (s.peekAt 1).kind = .leftParen →
    ∃ behind, parens.behind? 0 (s.rest.drop 1) = some behind ∧
      (ParseM.bareStatement budget content).outcome s =
        (if startsWithDo behind then ParseM.methodBody budget content
          else ParseM.callStatement budget).outcome s
  /-- Passing over the body of a method that is unknown. -/
  methodBody : ∀ (s : ParseState) budget content, s.Closed → s.current.kind = .identifier →
    (s.peekAt 1).kind = .leftParen → s.scopes.resolveMethod s.current.lexeme s.cursor = none →
    ∃ behind, parens.behind? 0 s.advance.rest = some behind ∧
      blocks.behind? 1 (if startsWithDo behind then behind.tail else behind) =
        some ((ParseM.methodBody budget content).outcome s).2.rest
  /-- Passing over what is left of a block. -/
  block : ∀ s : ParseState, blocks.behind? 1 s.rest = some (s.skipBlock 0 s.rest).rest

theorem countsSafely : CountsSafely where
  lookahead s budget content hs hname hparen := by
    obtain ⟨behind, hbehind, hdo⟩ :=
      Option.map_eq_some_iff.mp (ParseState.behind?_atMethodBody hs hparen)
    refine ⟨behind, hbehind, ?_⟩
    rw [hdo, ParseM.bareStatement, ParseM.outcome_bind, ParseM.outcome_get]
    simp only [hname, hparen, if_true]
  methodBody s budget content hs hname hparen hnone := by
    have hend := ParseState.atEnd_of_kind hname (by decide)
    have hclosed := (ParseState.passes_advance hs hend).closed hs
    obtain ⟨t, ts, hrest, hkind⟩ := ParseState.drop_one_of_peekAt hs hparen
    rw [← ParseState.rest_advance hs hend] at hrest
    rw [ParseM.outcome_methodBody_of_unknown hnone]
    exact ⟨_, ParseState.behind?_skipParens hrest hkind,
      ParseState.behind?_skipMethodBody hclosed rfl⟩
  block := ParseState.behind?_skipBlock

/-! ## Positions -/

/-- The tokens with the closing one behind them. -/
def framed (tokens : List Token) : List Token :=
  (ParseState.ofTokens tokens).rest ++ [(ParseState.ofTokens tokens).closing]

/-- The tokens in front of the first one that ends the program. -/
def inFront (tokens : List Token) : List Token := tokens.takeWhile (·.kind != .endOfInput)

namespace ParseState

/-- Whether a state is one of reading `tokens` in which the first `i` of them are passed, none
    of which ends the program. -/
def Stands (tokens : List Token) (i : Nat) (s : ParseState) : Prop :=
  ∃ read, (ofTokens tokens).Passes read s ∧ read.length = i

/-- Whether a state is one in which at least `i` tokens are passed. -/
def StandsFrom (tokens : List Token) (i : Nat) (s : ParseState) : Prop :=
  ∃ j, i ≤ j ∧ s.Stands tokens j

namespace Stands

variable {tokens : List Token} {i : Nat} {s s' : ParseState}

theorem start (tokens : List Token) : (ofTokens tokens).Stands tokens 0 := ⟨[], .refl _, rfl⟩

theorem closed (h : s.Stands tokens i) : s.Closed := by
  obtain ⟨read, hread, -⟩ := h
  exact hread.closed (ofTokens_closed tokens)

theorem passes (h : s.Stands tokens i) {read : List Token} (hread : s.Passes read s') :
    s'.Stands tokens (i + read.length) := by
  obtain ⟨before, hbefore, rfl⟩ := h
  exact ⟨before ++ read, hbefore.trans hread, List.length_append⟩

/-- No step goes back. -/
theorem step {R : ParseState → ParseState → Prop} [Stepping R] (h : s.Stands tokens i)
    (hR : R s s') : s'.StandsFrom tokens i := by
  obtain ⟨read, hread⟩ := Stepping.passed hR
  exact ⟨i + read.length, Nat.le_add_right i _, h.passes hread⟩

/-- A step that leaves fewer tokens moves the index. -/
theorem step_lt {R : ParseState → ParseState → Prop} [Stepping R] (h : s.Stands tokens i)
    (hR : R s s') (hlt : s'.rest.length < s.rest.length) : s'.StandsFrom tokens (i + 1) := by
  obtain ⟨read, hread⟩ := Stepping.passed hR
  have hlen := hread.length_eq
  exact ⟨i + read.length, by omega, h.passes hread⟩

/-- The next token is the one that the index points at. -/
theorem getElem?_framed (h : s.Stands tokens i) : (framed tokens)[i]? = some s.current := by
  obtain ⟨read, hread, rfl⟩ := h
  rw [framed, hread.rest, ← hread.closing, List.append_assoc,
    List.getElem?_append_right (Nat.le_refl _), Nat.sub_self]
  cases hrest : s.rest with
  | nil => simp [current, peekAt, hrest]
  | cons t rest => simp [current, peekAt, hrest]

theorem le_inFront (h : s.Stands tokens i) : i ≤ (inFront tokens).length := by
  obtain ⟨read, hread, rfl⟩ := h
  rw [inFront, ← takeWhile_ofTokens, hread.rest, List.takeWhile_append_of_pos]
  · rw [List.length_append]
    omega
  · intro t ht
    exact bne_iff_ne.mpr (hread.noEnd t ht)

end Stands

end ParseState

/-- Reading goes on from the index `i`: the index points at a token that is not behind the first
    end of input, no step and no reader moves it back, and every round of reading items moves it
    on. -/
structure GoesOnFrom (tokens : List Token) (i : Nat) (s : ParseState) : Prop where
  current : (framed tokens)[i]? = some s.current
  inFront : i ≤ (inFront tokens).length
  advance : s.advance.StandsFrom tokens i
  skipBlock : (s.skipBlock 0 s.rest).StandsFrom tokens i
  skipMethodBody : s.skipMethodBody.StandsFrom tokens i
  synchronize : ∀ start, (s.synchronize start).StandsFrom tokens i
  expression : ∀ budget, ((ParseM.expression budget).outcome s).2.StandsFrom tokens i
  item : ∀ budget inner,
    ((ParseM.item budget (parseItems inner true)).outcome s).2.StandsFrom tokens i
  items : ∀ budget inBlock, ((parseItems budget inBlock).run s).2.StandsFrom tokens i
  /-- Items are read by going on behind the next round. -/
  round : ∀ budget inBlock, ¬(s.atEnd || (inBlock && s.check .kwEnd)) →
    let s' := afterRound (budget + 1) (parseItems budget true) s
    ((parseItems (budget + 1) inBlock).run s).2 = ((parseItems budget inBlock).run s').2 ∧
      s'.StandsFrom tokens (i + 1)

theorem paying_item (budget inner : Nat) (s : ParseState) :
    Paying (fun _ => True) s ((ParseM.item budget (parseItems inner true)).outcome s).2 :=
  (ParseM.moves_item (onward_parseItems inner true) budget s (.trivial s)).keepsAt.1

theorem ParseState.Stands.goesOnFrom {tokens : List Token} {i : Nat} {s : ParseState}
    (h : s.Stands tokens i) : GoesOnFrom tokens i s where
  current := h.getElem?_framed
  inFront := h.le_inFront
  advance := h.step (Plain.advance s)
  skipBlock := h.step (Plain.skipBlock s)
  skipMethodBody := h.step (Plain.skipMethodBody s)
  synchronize start := h.step (s.plain_synchronize start)
  expression budget := h.step (ParseM.keeps_expression budget s (.trivial s)).1
  item budget inner := h.step (paying_item budget inner s)
  items budget inBlock := h.step (onward_parseItems budget inBlock s (.trivial s))
  round budget inBlock hgo := by
    have hend := atEnd_of_goesOn hgo
    have hcontent := onward_parseItems (L := fun _ => True) budget true
    refine ⟨parseItems_round hgo, ?_⟩
    exact h.step_lt (onward_afterRound (budget + 1) hcontent (.trivial s) hend)
      (afterRound_lt (budget + 1) hcontent h.closed hend)

/-- Reading all items stops in front of the first end of input. -/
theorem stands_parseItems (tokens : List Token) :
    ((parseItems tokens.length false).run (.ofTokens tokens)).2.Stands tokens
      (inFront tokens).length := by
  have hstop := parseItems_stops tokens.length false _ (ParseState.ofTokens_closed tokens)
    (ParseState.length_ofTokens_le tokens)
  obtain ⟨read, hread⟩ := (onward_parseItems tokens.length false (.ofTokens tokens)
    (.trivial _)).passed
  -- Outside of all blocks an `end` does not stop it.
  dsimp only at hstop
  rw [Bool.false_and, Bool.or_false] at hstop
  exact ⟨read, hread, by rw [hread.eq_takeWhile hstop, inFront]⟩

/-! ## Errors -/

theorem errors_of_parseTokens {tokens : List Token} {errors : List ParseError}
    (h : parseTokens tokens = .error errors) :
    errors = ((parseItems tokens.length false).run (.ofTokens tokens)).2.errors := by
  rcases hrun : (parseItems tokens.length false).run (.ofTokens tokens) with ⟨items, s⟩
  rw [parseTokens, hrun] at h
  dsimp only at h
  split at h
  · cases h
  · exact (Except.error.inj h).symm

/-- There are no more errors than tokens in front of the first end of input. -/
theorem length_errors_le (tokens : List Token) :
    ((parseItems tokens.length false).run (.ofTokens tokens)).2.errors.length ≤
      (inFront tokens).length := by
  have honward := onward_parseItems tokens.length false (.ofTokens tokens) (.trivial _)
  obtain ⟨read, hread, hlen⟩ := stands_parseItems tokens
  have hpaid := honward.paid (ParseState.ofTokens_closed tokens)
  have hrest := hread.length_eq
  rw [ParseState.ofTokens_errors, List.length_nil] at hpaid
  omega

/-- Every error is on the line of a token. -/
theorem line_of_error {tokens : List Token} {e : ParseError}
    (he : e ∈ ((parseItems tokens.length false).run (.ofTokens tokens)).2.errors) :
    ∃ t ∈ tokens, t.line = e.line := by
  -- Without tokens there is no error, since each has a token of its own.
  have hne : tokens ≠ [] := by
    rintro rfl
    have hnone := List.length_eq_zero_iff.mp (Nat.le_zero.mp (length_errors_le []))
    rw [hnone] at he
    exact absurd he List.not_mem_nil
  have honward := onward_parseItems tokens.length false _ (ParseState.linesIn_ofTokens hne)
  rcases honward.blamed e he with he | hline
  · rw [ParseState.ofTokens_errors] at he
    exact absurd he List.not_mem_nil
  · exact hline

/-! ## Reading ends -/

open ParseM in
/-- Nothing that reads by calling itself depends on itself where as many tokens are left. -/
structure ReadingEnds : Prop where
  items : Descends (fun more inBlock s => (itemsStep s.rest.length more inBlock).run s)
    (fun inBlock s => (parseItems s.rest.length inBlock).run s)
  expressions : Descends
    (fun nested (_ : Unit) s => (expressionWith s.rest.length (nested ())).outcome s)
    (fun _ s => (expression s.rest.length).outcome s)
  operators : ∀ budget inner level levels,
    let operand := List.foldr (binary budget) (unary budget (expression inner) budget) levels
    Descends (fun more left s => (binaryStep level operand more left).outcome s)
      (fun left s => (binaryRest level operand s.rest.length left).outcome s)
  signs : ∀ budget inner, Descends
    (fun more (_ : Unit) s => (unaryStep budget (expression inner) (more ())).outcome s)
    (fun _ s => (unary budget (expression inner) s.rest.length).outcome s)
  arguments : ∀ budget, Descends
    (fun more (_ : Unit) s => (separatedStep (expression budget) (more ())).outcome s)
    (fun _ s => (separated (expression budget) s.rest.length).outcome s)
  parameters : ∀ budget method, Descends
    (fun more (_ : Unit) s => (separatedStep (pattern budget method) (more ())).outcome s)
    (fun _ s => (separated (pattern budget method) s.rest.length).outcome s)
  types : Descends (fun more (_ : Unit) s => (separatedStep expectType (more ())).outcome s)
    (fun _ s => (separated expectType s.rest.length).outcome s)
  /-- Budgets cut nothing off. -/
  budgets : ∀ budget (s : ParseState), s.Closed → s.rest.length ≤ budget →
    (expression budget).outcome s = (expression s.rest.length).outcome s ∧
      ∀ inBlock, (parseItems budget inBlock).run s = (parseItems s.rest.length inBlock).run s

open ParseM in
theorem readingEnds : ReadingEnds where
  items := descends_parseItems
  expressions := descends_expression
  operators budget inner level levels := by
    have hunary := moves_unary (L := fun _ => True) (keeps_expression inner) budget budget
    exact descends_binaryRest level (moves_levels budget levels hunary).keeps.passing
  signs budget inner := descends_unary budget (keeps_expression inner)
  arguments budget := descends_separated (keeps_expression budget).onward
  parameters budget method := descends_separated (keeps_pattern budget method)
  types := descends_separated keeps_expectType.onward
  budgets budget s hs hle := by
    refine ⟨agree_expression hle (Nat.le_refl _) s hs (Nat.lt_succ_self _), fun inBlock => ?_⟩
    exact agree_parseItems hle (Nat.le_refl _) inBlock hs (Nat.lt_succ_self _)

/-- Every list of tokens is read to the first end of input.

    Reading ends; it starts in front of the first token and stays in range; every round moves
    the index on; counted brackets stay open until the one that is looked for; an item is left
    where it was begun; and there are no more errors than tokens, each on the line of one. -/
theorem parsing_total (tokens : List Token) :
    ReadingEnds ∧ CountsSafely ∧
      (ParseState.ofTokens tokens).Stands tokens 0 ∧
      (∀ i s, ParseState.Stands tokens i s → GoesOnFrom tokens i s) ∧
      ((parseItems tokens.length false).run (.ofTokens tokens)).2.Stands tokens
        (inFront tokens).length ∧
      (∀ budget inner s,
        ((ParseM.item budget (parseItems inner true)).outcome s).2.cursor = s.cursor) ∧
      ∀ errors, parseTokens tokens = .error errors →
        errors.length ≤ (inFront tokens).length ∧
          ∀ e ∈ errors, ∃ t ∈ tokens, e.diagnostic.line = some t.line := by
  refine ⟨readingEnds, countsSafely, .start tokens, fun i s h => h.goesOnFrom,
    stands_parseItems tokens, fun budget inner s => (paying_item budget inner s).cursor, ?_⟩
  intro errors herrors
  rw [errors_of_parseTokens herrors]
  refine ⟨length_errors_le tokens, fun e he => ?_⟩
  obtain ⟨t, ht, hline⟩ := line_of_error he
  exact ⟨t, ht, congrArg some hline.symm⟩

end BlockLang
