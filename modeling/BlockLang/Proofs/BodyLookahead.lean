/-
  BlockLang.Proofs.BodyLookahead

  Telling a method body from a call before it is read.

  Behind a name and `(`, the parser counts parentheses up to the one that closes the first, and
  takes what it sees for a body if `do` follows.  Counting knows nothing of patterns and
  expressions.  But whatever is read between the parentheses is a passage, and in the tokens of
  a passage every parenthesis has its partner.  So the parenthesis that is read behind the
  parameters of a body, or behind the arguments of a call, is the one at which counting stopped,
  and the `do` that was seen there is the next token: a body never misses it.
-/
import BlockLang.Proofs.Parser.Failure
import BlockLang.Proofs.RejectedBlocks

namespace BlockLang

open Brackets

/-! ## Where counting stops -/

namespace ParseState

/-- The parenthesis that closes the first one, with the tokens behind it, where `depth` of them
    are open. -/
def closingParen? (depth : Nat) : List Token → Option (Token × List Token)
  | [] => none
  | t :: ts =>
    if t.kind = .endOfInput then none
    else if t.kind = .leftParen then closingParen? (depth + 1) ts
    else if t.kind = .rightParen then
      if depth ≤ 1 then some (t, ts) else closingParen? (depth - 1) ts
    else closingParen? depth ts

/-- The parenthesis that is matched in looking ahead from a name, with the tokens behind it. -/
def parenAhead? (s : ParseState) : Option (Token × List Token) := closingParen? 0 (s.rest.drop 1)

/-- Looking for `do` is looking behind the parenthesis at which counting stops. -/
theorem closesBeforeDo_eq (depth : Nat) (ts : List Token) :
    closesBeforeDo depth ts = (closingParen? depth ts).any fun seen => startsWithDo seen.2 := by
  -- Cases 4 to 6 are a closing parenthesis with none, one and more of them open.
  fun_induction closesBeforeDo depth ts with
  | case1 depth => rfl
  | case2 depth t ts hend => simp [closingParen?, hend]
  | case3 depth t ts hend hopen ih => simpa [closingParen?, hopen] using ih
  | case4 t ts hend hopen hclose => simp [closingParen?, startsWithDo, hclose]
  | case5 t ts hend hopen hclose => simp [closingParen?, startsWithDo, hclose]
  | case6 t ts hend hopen hclose depth ih => simpa [closingParen?, hclose] using ih
  | case7 depth t ts hend hopen hclose ih =>
      simpa [closingParen?, hend, hopen, hclose] using ih

theorem atMethodBody_eq (s : ParseState) :
    s.atMethodBody = s.parenAhead?.any fun seen => startsWithDo seen.2 :=
  closesBeforeDo_eq 0 (s.rest.drop 1)

/-- Counting does not stop in tokens in which every parenthesis has its partner. -/
theorem closingParen?_append {ts : List Token} (h : parens.Matched ts) (depth : Nat)
    (rest : List Token) :
    closingParen? (depth + 1) (ts ++ rest) = closingParen? (depth + 1) rest := by
  induction h generalizing depth rest with
  | nil => rfl
  | @other t ts ht _ ih =>
      simp only [Ignores, parens, decide_eq_true_eq] at ht
      rw [List.cons_append, closingParen?, if_neg ht.1, if_neg ht.2.1, if_neg ht.2.2, ih]
  | @pair first last ts us hfirst _ hlast _ ih ih' =>
      -- The first parenthesis raises the depth, and its partner brings it back, never below one.
      simp only [parens, decide_eq_true_eq] at hfirst hlast
      rw [List.cons_append, List.append_assoc, closingParen?, if_neg hfirst.1, if_pos hfirst.2, ih,
        List.cons_append, closingParen?, if_neg hlast.1, if_neg hlast.2.1, if_pos hlast.2.2,
        if_neg (by omega), Nat.add_sub_cancel, ih']

theorem closingParen?_of_matched {opening closing : Token} {inner rest : List Token}
    (hopen : opening.kind = .leftParen) (h : parens.Matched inner)
    (hclose : closing.kind = .rightParen) :
    closingParen? 0 (opening :: (inner ++ closing :: rest)) = some (closing, rest) := by
  rw [closingParen?, if_neg (by simp [hopen]), if_pos hopen, closingParen?_append h, closingParen?,
    if_neg (by simp [hclose]), if_neg (by simp [hclose]), if_pos hclose, if_pos (Nat.le_refl 1)]

/-! ## What is read between parentheses -/

/-- Between the two states, tokens in parentheses are passed, and the last of them is the
    parenthesis that was `seen` before, with the same tokens behind it. -/
def PassesParens (s : ParseState) (seen : Option (Token × List Token)) (s' : ParseState) : Prop :=
  ∃ opening inner closing, s.Passes (opening :: (inner ++ [closing])) s' ∧
    opening.kind = .leftParen ∧ parens.Matched inner ∧ closing.kind = .rightParen ∧
    seen = some (closing, s'.rest)

variable {s s₁ s' : ParseState}

theorem Closed.advance (hs : s.Closed) : s.advance.Closed := (Plain.advance s).closed hs

/-- Counting starts from the parenthesis behind a name that is passed. -/
theorem rest_advance_of_leftParen (hs : s.Closed) (hopen : s.advance.check .leftParen) :
    s.advance.rest = s.rest.drop 1 := by
  cases hend : s.atEnd with
  | false => exact rest_advance hs hend
  | true =>
      -- At its end the program stands still, and no parenthesis comes.
      rcases s.advance_cases with hsame | hpass
      · rw [hsame, check_of_atEnd hend (by decide)] at hopen
        cases hopen
      · exact absurd (hpass.eq_nil_of_atEnd hend) (List.cons_ne_nil _ _)

/-- A phrase that is read in parentheses, wherever in the nesting of scopes, ends in front of
    the one that was seen ahead. -/
theorem passesParens_ahead {φ : Phrase} {c : Cursor} (hs : s.Closed)
    (hopen : s.advance.check .leftParen)
    (hread : Passage.Read ⟨φ, ({ s.advance with cursor := c } : ParseState).advance, s₁⟩)
    (hclose : s₁.check .rightParen) : s.advance.PassesParens s.parenAhead? s₁.advance := by
  obtain ⟨hkind, hpass, hs'⟩ :=
    passes_checked (s := { s.advance with cursor := c }) hs.advance hopen (by decide)
  obtain ⟨inner, hinner, hspelled⟩ := hread.spells hs'
  obtain ⟨_, hnested, -⟩ := hspelled.wellNested
  obtain ⟨hkind', hpass', -⟩ := passes_checked (hinner.closed hs') hclose (by decide)
  have hall : s.advance.Passes (s.advance.current :: (inner ++ [s₁.current])) s₁.advance := by
    have hall' := hpass.trans (hinner.trans hpass')
    exact ⟨hall'.rest, hall'.noEnd, hall'.closing⟩
  refine ⟨_, inner, _, hall, hkind, hnested.matched_parens, hkind', ?_⟩
  rw [parenAhead?, ← rest_advance_of_leftParen hs hopen, hall.rest, List.cons_append,
    List.append_assoc]
  exact closingParen?_of_matched hkind hnested.matched_parens hkind'

/-- A body was seen ahead exactly if `do` follows what is passed. -/
theorem PassesParens.isDo_eq (h : s.advance.PassesParens s.parenAhead? s') (hs : s.Closed) :
    s'.current.isDo = s.atMethodBody := by
  obtain ⟨_, _, closing, hpass, -, -, -, hseen⟩ := h
  rw [atMethodBody_eq, hseen, isDo_current (hpass.closed hs.advance)]
  rfl

end ParseState

/-! ## Bodies and calls -/

namespace ParseM

variable {budget : Nat} {s s' : ParseState} {content : StateM ParseState (List Item)}
  {e : ParseError}

/-- A call that is read ends with the parenthesis that was seen ahead. -/
theorem passesParens_of_call (hs : s.Closed) {depth : Nat} {result : Callee × List Expr}
    (h : (call budget (expression depth)).outcome s = (.ok result, s')) :
    s.advance.PassesParens s.parenAhead? s' := by
  rw [call, outcome_bind, outcome_next] at h
  simp only [outcome_bind_ok] at h
  obtain ⟨target, s₁, htarget, args, s₂, hargs, h⟩ := h
  cases h
  obtain ⟨rfl, -⟩ := callee_ok htarget
  obtain ⟨s₃, hopen, hread, hclose, rfl⟩ := read_arguments (read_expression depth) hargs
  exact ParseState.passesParens_ahead (c := s.advance.cursor) hs hopen hread hclose

section Body

variable {method : MethodId} {c : Cursor} {patterns : List Pattern}

/-- Parameters that are read end with the parenthesis that was seen ahead. -/
theorem passesParens_of_parameters (hs : s.Closed)
    (h : (parameters budget method).outcome { s.advance with cursor := c } = (.ok patterns, s')) :
    s.advance.PassesParens s.parenAhead? s' := by
  obtain ⟨s₁, hopen, hread, hclose, rfl⟩ := read_parameters h
  exact ParseState.passesParens_ahead hs hopen hread hclose

/-- Behind the parameters of a body that was seen ahead comes its `do`, and then its block. -/
theorem methodBodyRest_of_parameters (hs : s.Closed) (hbody : s.atMethodBody)
    (h : (parameters budget method).outcome { s.advance with cursor := c } = (.ok patterns, s')) :
    s'.current.isDo ∧ ∀ name content,
      (methodBodyRest budget name method content).outcome { s.advance with cursor := c } =
        (numberedBlock name method content patterns).outcome s'.advance := by
  have hdo : s'.current.isDo := by
    rw [(passesParens_of_parameters hs h).isDo_eq hs]
    exact hbody
  refine ⟨hdo, fun name content => ?_⟩
  rw [methodBodyRest_eq, outcome_bind, h]
  dsimp only
  rw [outcome_bind, outcome_expectDo, if_pos hdo]

theorem not_missesDo_methodBodyRest (hs : s.Closed) (hbody : s.atMethodBody) {name : Ident}
    (h : (methodBodyRest budget name method content).outcome { s.advance with cursor := c } =
      (.error e, s')) : ¬e.MissesDo := by
  -- Parameters and blocks fail for other reasons, and between them `do` is found.
  rcases hparams : (parameters budget method).outcome { s.advance with cursor := c } with
    ⟨e' | patterns, s₁⟩
  · rw [methodBodyRest_eq, outcome_bind, hparams] at h
    cases h
    exact needsNoDo_inParens budget (needsNoDo_pattern budget method) _ e s' hparams
  · have hblock : NeedsNoDo (numberedBlock name method content patterns) :=
      failsWith_bind (needsNoDo_block _ _ content) fun _ =>
        failsWith_get fun _ => failsWith_set (failsWith_pure _)
    rw [(methodBodyRest_of_parameters hs hbody hparams).2] at h
    exact hblock _ e s' h

end Body

theorem not_missesDo_methodBody (hs : s.Closed) (hbody : s.atMethodBody)
    (h : (methodBody budget content).outcome s = (.error e, s')) : ¬e.MissesDo := by
  rw [methodBody, outcome_bind, outcome_next] at h
  dsimp only at h
  rw [outcome_bind, outcome_get] at h
  dsimp only at h
  split at h
  · rw [outcome_withCursor] at h
    exact not_missesDo_methodBodyRest hs hbody (Prod.ext (Prod.mk.inj h).1 rfl)
  · cases h
    rintro ⟨found, line, he⟩
    cases he

theorem kind_of_missesDo_bareStatement (hs : s.Closed) (he : e.MissesDo)
    (h : (bareStatement budget content).outcome s = (.error e, s')) :
    s.current.kind = .kwWhile ∨ s.current.kind = .kwIf := by
  have hexpr : NeedsNoDo (do return Item.expr (← expression budget)) :=
    failsWith_bind (needsNoDo_expression budget) fun _ => failsWith_pure _
  have hassign := needsNoDo_assignment (needsNoDo_expression budget)
  have hcall : NeedsNoDo (callStatement budget) :=
    failsWith_bind (needsNoDo_call (needsNoDo_expression budget) budget) fun _ => failsWith_pure _
  rw [bareStatement, outcome_bind, outcome_get] at h
  dsimp only at h
  split at h
  · exact .inl ‹_›
  · exact .inr ‹_›
  · -- A name starts a body only where one was seen ahead.
    split at h
    · split at h
      · exact absurd he (not_missesDo_methodBody hs ‹_› h)
      · exact absurd he (hcall s e s' h)
    · split at h
      · exact absurd he (failsWith_bind hassign (fun _ => failsWith_pure _) s e s' h)
      · exact absurd he (hexpr s e s' h)
  · split at h
    · exact absurd he (hcall s e s' h)
    · exact absurd he (hexpr s e s' h)
  · exact absurd he (hexpr s e s' h)

/-- Only loops and conditions miss their `do`. -/
theorem kind_of_missesDo_item (hs : s.Closed) (he : e.MissesDo)
    (h : (item budget content).outcome s = (.error e, s')) :
    s.current.kind = .kwWhile ∨ s.current.kind = .kwIf := by
  rw [item, outcome_bind, outcome_get] at h
  dsimp only at h
  split at h
  · exact absurd he (needsNoDo_classDeclaration content s e s' h)
  · split at h
    · exact absurd he (needsNoDo_methodDeclaration budget s e s' h)
    · split at h
      · exact absurd he (needsNoDo_varDeclaration s e s' h)
      · rw [statement, outcome_bind] at h
        rcases hout : (bareStatement budget content).outcome s with ⟨e' | i, s₁⟩
        · rw [hout] at h
          cases h
          exact kind_of_missesDo_bareStatement hs he hout
        · have hlast : NeedsNoDo (accept .semicolon >>= fun _ => pure i) :=
            failsWith_bind (failsWith_accept .semicolon) fun _ => failsWith_pure i
          rw [hout] at h
          exact absurd he (hlast s₁ e s' h)

end ParseM

open ParseState ParseM in
/-- Looking ahead from a name agrees with reading on from there.

    What is looked for is `do` behind the parenthesis that closes the first one.  Where a body
    is seen ahead and its parameters are read, they end with that parenthesis; `do` comes next,
    and then the block.  So a body never misses its `do`, nor does any item but loops and
    conditions.  Where no body is seen ahead and a call is read, the call ends with that
    parenthesis, and no `do` follows. -/
theorem body_lookahead_agrees {s : ParseState} (hs : s.Closed) :
    (s.atMethodBody = s.parenAhead?.any fun seen => startsWithDo seen.2) ∧
    (s.atMethodBody → ∀ budget method c patterns s',
      (parameters budget method).outcome { s.advance with cursor := c } = (.ok patterns, s') →
      s.advance.PassesParens s.parenAhead? s' ∧ s'.current.isDo ∧ ∀ name content,
        (methodBodyRest budget name method content).outcome { s.advance with cursor := c } =
          (numberedBlock name method content patterns).outcome s'.advance) ∧
    (s.atMethodBody → ∀ budget name method c content found line s',
      (methodBodyRest budget name method content).outcome { s.advance with cursor := c } ≠
        (.error (.unexpectedToken .blockStart found line), s')) ∧
    (∀ budget content found line s',
      (item budget content).outcome s = (.error (.unexpectedToken .blockStart found line), s') →
      s.current.kind = .kwWhile ∨ s.current.kind = .kwIf) ∧
    (¬s.atMethodBody → ∀ budget depth target args s',
      (call budget (expression depth)).outcome s = (.ok (target, args), s') →
      s.advance.PassesParens s.parenAhead? s' ∧ ¬s'.current.isDo) := by
  refine ⟨s.atMethodBody_eq, ?_, ?_, ?_, ?_⟩
  · intro hbody budget method c patterns s' h
    exact ⟨passesParens_of_parameters hs h, methodBodyRest_of_parameters hs hbody h⟩
  · intro hbody budget name method c content found line s' h
    exact not_missesDo_methodBodyRest hs hbody h ⟨found, line, rfl⟩
  · intro budget content found line s' h
    exact kind_of_missesDo_item hs ⟨found, line, rfl⟩ h
  · intro hbody budget depth target args s' h
    have hpasses := passesParens_of_call hs h
    refine ⟨hpasses, ?_⟩
    rw [hpasses.isDo_eq hs]
    exact hbody

/-- The place in front of `f(!(true), x)` and the tokens `after`, where `f` is a method and `x`
    a variable. -/
def inFrontOfName (after : List Token) : ParseState where
  rest := [ onLineOne .identifier "f" none, onLineOne .leftParen "(" none,
    onLineOne .bang "!" none, onLineOne .leftParen "(" none,
    onLineOne .kwTrue "true" (some (.boolean true)), onLineOne .rightParen ")" none,
    onLineOne .comma "," none, onLineOne .identifier "x" none,
    onLineOne .rightParen ")" none ] ++ after
  closing := onLineOne .endOfInput "" none
  scopes :=
    { methods := #[⟨"f", "Int", ["Bool", "Int"], none, none, {}, []⟩]
      vars := #[⟨"x", none, none, none⟩]
      global := { methods := [0], vars := [0] } }

/-- The tokens of `do end`. -/
def emptyBlock : List Token := [onLineOne .identifier "do" none, onLineOne .kwEnd "end" none]

/-- The expression `!(true)`. -/
def groupedSign : Expr := .unary ⟨.bang, "!", 1⟩ (.grouping (.literal (.boolean true)))

open ParseM in
/-- The same tokens are the parameters of a body in front of `do`, and the arguments of a call
    in front of anything else. -/
theorem same_list_told_apart :
    ((inFrontOfName emptyBlock).atMethodBody ∧ ∃ s',
      (parameters 11 0).outcome { (inFrontOfName emptyBlock).advance with cursor := .global } =
        (.ok [.value groupedSign, .binding ⟨"x", 1⟩], s') ∧
      (inFrontOfName emptyBlock).advance.PassesParens (inFrontOfName emptyBlock).parenAhead? s' ∧
      s'.current.isDo) ∧
    (¬(inFrontOfName printTokens).atMethodBody ∧ ∃ s',
      (call 12 (expression 12)).outcome (inFrontOfName printTokens) =
        (.ok (⟨⟨"f", 1⟩, .method 0⟩, [groupedSign, .name ⟨"x", 1⟩]), s') ∧
      (inFrontOfName printTokens).advance.PassesParens (inFrontOfName printTokens).parenAhead? s' ∧
      ¬s'.current.isDo) := by
  obtain ⟨-, hbody, -, -, -⟩ := body_lookahead_agrees (s := inFrontOfName emptyBlock) rfl
  obtain ⟨-, -, -, -, hcall⟩ := body_lookahead_agrees (s := inFrontOfName printTokens) rfl
  constructor
  · have hahead : (inFrontOfName emptyBlock).atMethodBody := by decide
    obtain ⟨s', hparams⟩ : ∃ s', (parameters 11 0).outcome
        { (inFrontOfName emptyBlock).advance with cursor := .global } =
          (.ok [.value groupedSign, .binding ⟨"x", 1⟩], s') := ⟨_, rfl⟩
    obtain ⟨hpasses, hdo, -⟩ := hbody hahead 11 0 .global _ s' hparams
    exact ⟨hahead, s', hparams, hpasses, hdo⟩
  · have hahead : ¬(inFrontOfName printTokens).atMethodBody := by decide
    obtain ⟨s', hargs⟩ : ∃ s', (call 12 (expression 12)).outcome (inFrontOfName printTokens) =
        (.ok (⟨⟨"f", 1⟩, .method 0⟩, [groupedSign, .name ⟨"x", 1⟩]), s') := ⟨_, rfl⟩
    exact ⟨hahead, s', hargs, hcall hahead 12 12 _ _ s' hargs⟩

end BlockLang
