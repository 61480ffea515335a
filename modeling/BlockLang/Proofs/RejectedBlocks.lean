/-
  BlockLang.Proofs.RejectedBlocks

  Passing over a block that is rejected.

  A class whose name is taken and a body of an unknown method are passed over without being
  read, by counting what opens and what closes a block.  The count follows the grammar as
  long as `do` stands for nothing but the start of a block: then the content of the block
  leaves it as it was, and passing ends behind the `end` of the block itself.  But `do` is a
  name like any other for the grammar.  Each use of it as a name counts as one more block, so
  passing goes on behind the `end`.
-/
import BlockLang.Proofs.Parser.Nesting
import BlockLang.Proofs.Parser.Acceptance

namespace BlockLang

/-! ## Behind a block -/

namespace Brackets

variable {b : Brackets}

theorem length_behind?_le {depth : Nat} {ts behind : List Token}
    (h : b.behind? depth ts = some behind) : behind.length ≤ ts.length := by
  induction ts generalizing depth with
  | nil => simp_all [behind?]
  | cons t ts ih =>
      rw [behind?] at h
      split at h
      · simp_all
      · split at h
        · exact Nat.le_succ_of_le (ih h)
        · split at h
          · split at h
            · cases h
            · split at h
              · cases h
                simp
              · exact Nat.le_succ_of_le (ih h)
          · exact Nat.le_succ_of_le (ih h)

/-- Where a program does not end, counting gets on. -/
theorem behind?_eq_self_iff (depth : Nat) (ts : List Token) :
    b.behind? (depth + 1) ts = some ts ↔ ∀ t ∈ ts.head?, t.kind = .endOfInput := by
  cases ts with
  | nil => simp [behind?]
  | cons t ts =>
      by_cases hend : t.kind = .endOfInput
      · simp [behind?, hend]
      · -- The first token is passed, whatever it is, so fewer tokens are left.
        have hfewer : b.behind? (depth + 1) (t :: ts) ≠ some (t :: ts) := by
          intro h
          rw [behind?, if_neg hend] at h
          have hlt (d : Nat) (hd : b.behind? d ts = some (t :: ts)) : False := by
            have := length_behind?_le hd
            simp at this
          split at h
          · exact hlt _ h
          · split at h
            · split at h
              · cases h
              · split at h
                · exact List.cons_ne_self t ts (Option.some.inj h).symm
                · exact hlt _ h
            · exact hlt _ h
        simp [hfewer, hend]

/-- Behind the tokens in a block comes what is behind the block, unless these tokens leave a
    bracket open. -/
theorem Lifts.behind?_eq_iff {k : Nat} {content after : List Token} {last : Token}
    (h : b.Lifts k content) (hlast : last.kind ≠ .endOfInput ∧ ¬b.opens last ∧ b.closes last) :
    b.behind? 1 (content ++ last :: after) = some after ↔
      ¬0 < k ∨ ∀ t ∈ after.head?, t.kind = .endOfInput := by
  rw [h 0, behind?, if_neg hlast.1, if_neg hlast.2.1, if_pos hlast.2.2, if_neg (by omega)]
  cases k with
  | zero => simp
  | succ k =>
      rw [if_neg (by omega)]
      simpa [Nat.add_comm] using behind?_eq_self_iff k after

end Brackets

/-! ## Rejected constructs -/

/-- Tokens that are the content of a block: from some state on they are read as these items
    without an error, up to the `end` behind them. -/
def IsContent (tokens : List Token) (items : List Item) : Prop :=
  ∃ (budget : Nat) (u u' : ParseState) (last : Token) (rest : List Token),
    u.Closed ∧ u.rest = tokens ++ last :: rest ∧ last.kind = .kwEnd ∧
      (parseItems budget true).run u = (items, u') ∧ u'.errors = [] ∧ u'.rest = last :: rest

/-- Counting the blocks in the content of a block. -/
theorem IsContent.lifts {tokens : List Token} {items : List Item} (h : IsContent tokens items) :
    ∃ k, Brackets.blocks.Lifts k tokens ∧ (0 < k ↔ (Phrase.items items).Mentions "do") := by
  obtain ⟨budget, u, u', last, rest, hu, hrest, -, hrun, herrors, hrest'⟩ := h
  have hread := read_parseItems budget true u
  rw [hrun] at hread
  obtain ⟨tokens', hpass, hspelled⟩ := (hread herrors).spells hu
  have hsplit : tokens ++ last :: rest = tokens' ++ last :: rest := by
    rw [← hrest, ← hrest']
    exact hpass.rest
  obtain ⟨k, hnested, hmentions⟩ := hspelled.wellNested
  exact ⟨k, List.append_cancel_right hsplit ▸ hnested.lifts_blocks, hmentions⟩

namespace ParseState

variable {s : ParseState}

/-- What stands in front is rejected with an error before its block is read: a class whose
    name is taken, or a body of a method that is not visible.  `content` is what stands in
    the block, and `after` what stands behind its `end`. -/
inductive Rejects (s : ParseState) : ParseError → List Token → List Token → Prop where
  | duplicateClass {keyword name last content after} :
      s.rest = keyword :: name :: (content ++ last :: after) →
      keyword.kind = .kwClass → name.kind = .identifier → last.kind = .kwEnd →
      (s.scopes.find? s.cursor.classOwner .cls name.lexeme).isSome →
      Rejects s (.scope (.duplicate .cls name.lexeme) name.line) content after
  | unknownMethod {name opening params closing start last content after} :
      s.rest = name :: opening :: (params ++ closing :: start :: (content ++ last :: after)) →
      name.kind = .identifier → opening.kind = .leftParen → Brackets.parens.Matched params →
      closing.kind = .rightParen → start.isDo → last.kind = .kwEnd →
      -- With an arrow in this place it would be taken for the declaration of a method.
      (∀ t ∈ params[1]?, t.kind ≠ .arrow) →
      s.scopes.resolveMethod name.lexeme s.cursor = none →
      Rejects s (.scope (.undeclared .method name.lexeme) name.line) content after

theorem advance_of_rest {t : Token} {rest : List Token} (h : s.rest = t :: rest)
    (hkind : t.kind ≠ .endOfInput) : s.advance = { s with rest, lastLine := t.line } := by
  simp only [advance, h, if_neg hkind]

end ParseState

namespace ParseM

variable {s : ParseState}

/-- A class whose name is taken is passed over. -/
theorem outcome_item_of_taken (hclass : s.check .kwClass) (hname : s.advance.check .identifier)
    (hfound : (s.scopes.find? s.cursor.classOwner .cls s.advance.current.lexeme).isSome)
    (budget : Nat) (content : StateM ParseState (List Item)) :
    (item budget content).outcome s =
      (.error (.scope (.duplicate .cls s.advance.current.lexeme) s.advance.current.line),
        s.advance.advance.skipBlock 0 s.advance.advance.rest) := by
  have hdeclare : s.scopes.declareClass s.advance.current.lexeme s.cursor =
      .error (.duplicate .cls s.advance.current.lexeme) := by
    rw [ScopeTable.declareClass, ScopeTable.requireFresh, if_pos hfound]
    rfl
  have hexpected : s.advance.check Expected.className.kind := hname
  rw [item, outcome_bind, outcome_get]
  dsimp only
  rw [if_pos hclass, classDeclaration, outcome_bind, outcome_next]
  dsimp only
  rw [outcome_bind, outcome_expect, if_pos hexpected]
  dsimp only
  rw [outcome_bind, outcome_get]
  simp only [Ident.ofToken, ParseState.advance_scopes, ParseState.advance_cursor, hdeclare]
  rfl

/-- Where a body of a method that is not visible is seen ahead, it is passed over. -/
theorem outcome_item_of_unknown (hkind : s.current.kind = .identifier)
    (hparen : (s.peekAt 1).kind = .leftParen) (harrow : (s.peekAt 3).kind ≠ .arrow)
    (hbody : s.atMethodBody) (hnone : s.scopes.resolveMethod s.current.lexeme s.cursor = none)
    (budget : Nat) (content : StateM ParseState (List Item)) :
    (item budget content).outcome s =
      (.error (.scope (.undeclared .method s.current.lexeme) s.current.line),
        s.advance.skipMethodBody) := by
  rw [item, outcome_bind, outcome_get]
  simp only [ParseState.check, hkind, harrow, hparen, reduceCtorEq, decide_false, decide_true,
    Bool.and_false, Bool.false_eq_true, if_false]
  rw [statement, outcome_bind, bareStatement, outcome_bind, outcome_get]
  simp only [hkind, hparen, if_true, hbody]
  rw [outcome_methodBody_of_unknown hnone]

end ParseM

namespace ParseState

variable {s : ParseState} {e : ParseError} {content after : List Token}

/-- A rejected construct yields its error, and what is passed over ends where the count of
    blocks does. -/
theorem Rejects.exists_outcome (h : s.Rejects e content after) (hs : s.Closed) :
    s.atEnd = false ∧ s.check .kwEnd = false ∧ ∃ s₁, Plain s s₁ ∧
      (∀ budget inner, (ParseM.item budget inner).outcome s = (.error e, s₁)) ∧
      ∃ last, last.kind = .kwEnd ∧
        Brackets.blocks.behind? 1 (content ++ last :: after) = some s₁.rest := by
  cases h with
  | @duplicateClass keyword name last _ _ hrest hkeyword hname hlast hfound =>
      have hcurrent := current_of_rest hrest
      have hadvance := advance_of_rest hrest (by simp [hkeyword])
      have hrest₁ : s.advance.rest = name :: (content ++ last :: after) := by rw [hadvance]
      obtain rfl := current_of_rest hrest₁
      have hadvance₁ := advance_of_rest hrest₁ (by simp [hname])
      have hrest₂ : s.advance.advance.rest = content ++ last :: after := by rw [hadvance₁]
      refine ⟨atEnd_of_kind (hcurrent ▸ hkeyword) (by decide), by simp [check, hcurrent, hkeyword],
        _, ((Plain.advance s).trans (.advance _)).trans (.skipBlock _),
        ParseM.outcome_item_of_taken (by simp [check, hcurrent, hkeyword]) (by simp [check, hname])
          hfound,
        last, hlast, ?_⟩
      rw [← hrest₂]
      exact behind?_skipBlock _
  | @unknownMethod name opening params closing start last _ _ hrest hname hopen hparams hclose
      hstart hlast harrow hnone =>
      obtain rfl := current_of_rest hrest
      have hend := atEnd_of_kind hname (by decide)
      have hparen : (s.peekAt 1).kind = .leftParen := by simp [peekAt, hrest, hopen]
      -- Three tokens ahead is `do`, the closing parenthesis or the second token of the parameters.
      have hthree : (s.peekAt 3).kind ≠ .arrow := by
        simp only [Token.isDo, Bool.and_eq_true, decide_eq_true_eq] at hstart
        rcases params with _ | ⟨p, _ | ⟨q, params⟩⟩
        · simp [peekAt, hrest, hstart]
        · simp [peekAt, hrest, hclose]
        · simpa [peekAt, hrest] using harrow
      have hbody : s.atMethodBody :=
        atMethodBody_of_params hs hrest hopen hparams.lifts hclose hstart
      refine ⟨hend, by simp [check, hname], _, (Plain.advance s).trans (.skipMethodBody _),
        ParseM.outcome_item_of_unknown hname hparen hthree hbody hnone, last, hlast, ?_⟩
      have hrest₁ := rest_advance hs hend
      rw [hrest, List.drop_one, List.tail_cons] at hrest₁
      have hparens : Brackets.parens.behind? 0 s.advance.rest =
          some (start :: (content ++ last :: after)) := by
        rw [hrest₁]
        exact behind?_params hopen hparams.lifts hclose
      rw [behind?_skipParens hrest₁ hopen] at hparens
      have hall := behind?_skipMethodBody ((Plain.advance s).closed hs) (Option.some.inj hparens)
      rw [if_pos (by simpa [startsWithDo] using hstart)] at hall
      exact hall

end ParseState

/-- A construct that is rejected before its block is read, a class whose name is taken or a
    body of a method that is not visible, yields exactly one error, and nothing is declared.
    What stands in the block being read without an error, it is passed over up to the `end`
    of the block itself exactly when no name in it is `do`, unless nothing follows. -/
theorem rejected_block_passed {s : ParseState} (hs : s.Closed) {e : ParseError}
    {content after : List Token} (h : s.Rejects e content after) {items : List Item}
    (hcontent : IsContent content items) :
    ∃ s₁ : ParseState,
      (∀ budget inner, (ParseM.item budget inner).outcome s = (.error e, s₁)) ∧
      (∀ budget inBlock, (parseItems (budget + 1) inBlock).run s =
        (parseItems budget inBlock).run ((s₁.report e).synchronize s)) ∧
      ((s₁.report e).synchronize s).errors = s.errors ++ [e] ∧
      s₁.scopes = s.scopes ∧ s₁.cursor = s.cursor ∧
      (s₁.rest = after ↔ ¬(Phrase.items items).Mentions "do" ∨
        ∀ t ∈ after.head?, t.kind = .endOfInput) := by
  obtain ⟨hend, hblock, s₁, hplain, hitem, last, hlast, hbehind⟩ := h.exists_outcome hs
  refine ⟨s₁, hitem, fun budget inBlock => ?_, ?_, hplain.scopes, hplain.cursor, ?_⟩
  · rw [parseItems_succ, hend, hblock, Bool.and_false, Bool.false_or, if_neg Bool.false_ne_true,
      hitem]
  · rw [((s₁.report e).plain_synchronize s).errors, ParseState.report, hplain.errors]
  · obtain ⟨k, hlifts, hmentions⟩ := hcontent.lifts
    have hcloses : last.kind ≠ .endOfInput ∧ ¬Brackets.blocks.opens last ∧
        Brackets.blocks.closes last := by
      simp [Brackets.blocks, Token.isDo, hlast]
    rw [← hmentions, ← hlifts.behind?_eq_iff hcloses, hbehind, Option.some_inj]

/-- A token on the first line. -/
def onLineOne (kind : TokenKind) (lexeme : String) (literal : Option Value) : Token :=
  ⟨kind, lexeme, literal, ⟨0, 0, 1, 1⟩⟩

/-- The tokens of `while true do end`. -/
def loopTokens : List Token :=
  [ onLineOne .kwWhile "while" none, onLineOne .kwTrue "true" (some (.boolean true)),
    onLineOne .identifier "do" none, onLineOne .kwEnd "end" none ]

/-- The tokens of `(a)`. -/
def groupTokens : List Token :=
  [ onLineOne .leftParen "(" none, onLineOne .identifier "a" none, onLineOne .rightParen ")" none ]

/-- The tokens of `print()`. -/
def printTokens : List Token :=
  [ onLineOne .kwPrint "print" none, onLineOne .leftParen "(" none,
    onLineOne .rightParen ")" none ]

/-- A body of an unknown method, `f((a)) do while true do end end print()`. -/
def unknownBody : ParseState where
  rest := onLineOne .identifier "f" none :: onLineOne .leftParen "(" none :: (groupTokens ++
    onLineOne .rightParen ")" none :: onLineOne .identifier "do" none :: (loopTokens ++
      onLineOne .kwEnd "end" none :: printTokens))
  closing := onLineOne .endOfInput "" none

/-- Some tokens with an `end` behind them. -/
def beforeEnd (tokens : List Token) : ParseState where
  rest := tokens ++ [onLineOne .kwEnd "end" none]
  closing := onLineOne .endOfInput "" none

theorem unknown_body_passed :
    ∃ s₁ : ParseState, (∀ budget inner, (ParseM.item budget inner).outcome unknownBody =
        (.error (.scope (.undeclared .method "f") 1), s₁)) ∧
      s₁.rest = printTokens := by
  have hparams : Brackets.parens.Matched groupTokens :=
    .pair (by decide) (.other (by simp only [Brackets.Ignores]; decide) .nil) (by decide) .nil
  have hrejects : unknownBody.Rejects (.scope (.undeclared .method "f") 1) loopTokens printTokens :=
    @ParseState.Rejects.unknownMethod _ (onLineOne .identifier "f" none) _ _ _ _ _ _ _ rfl rfl rfl
      hparams rfl rfl rfl (by decide) rfl
  have hcontent : IsContent loopTokens [.whileLoop (.literal (.boolean true)) [] 1] := by
    refine ⟨3, beforeEnd loopTokens, _, _, [], rfl, rfl, rfl, Prod.ext ?_ rfl, ?_, ?_⟩
    · cbv
    · cbv
    · cbv
  have hnames : ¬(Phrase.items [.whileLoop (.literal (.boolean true)) [] 1]).Mentions "do" := by
    have hnil : ¬(Phrase.items []).Mentions "do" := Phrase.not_mentions rfl rfl
    have htrue : ¬(Phrase.expr (.literal (.boolean true))).Mentions "do" :=
      Phrase.not_mentions rfl rfl
    have hloop : ¬(Phrase.item (.whileLoop (.literal (.boolean true)) [] 1)).Mentions "do" := by
      rw [Phrase.mentions_iff]
      simp [Phrase.ownNames, Phrase.parts, htrue, hnil]
    rw [Phrase.mentions_iff]
    simp [Phrase.ownNames, Phrase.parts, hloop, hnil]
  have hclosed : unknownBody.Closed := rfl
  obtain ⟨s₁, hitem, -, -, -, -, hrest⟩ := rejected_block_passed hclosed hrejects hcontent
  exact ⟨s₁, hitem, hrest.mpr (.inl hnames)⟩

/-- The tokens of `do :: Int`. -/
def doNameTokens : List Token :=
  [ onLineOne .identifier "do" none, onLineOne .typeSeparator "::" none,
    onLineOne .identifier "Int" none ]

/-- A class in a place where another one is named so already,
    `class A do :: Int end print()`. -/
def takenClass : ParseState where
  rest := onLineOne .kwClass "class" none :: onLineOne .identifier "A" none ::
    (doNameTokens ++ onLineOne .kwEnd "end" none :: printTokens)
  closing := onLineOne .endOfInput "" none
  scopes := { classes := #[⟨"A", none, {}⟩], global := { classes := [0] } }

/-- A use of `do` as a name hides the `end` of the block in which it stands: passing over the
    block goes on to the end of the program. -/
theorem do_name_hides_end :
    takenClass.Rejects (.scope (.duplicate .cls "A") 1) doNameTokens printTokens ∧
      IsContent doNameTokens [.varDecl ⟨"do", 1⟩ "Int"] ∧
      ∃ s₁ : ParseState, s₁.rest = [] ∧ ∀ budget inner,
        (ParseM.item budget inner).outcome takenClass =
          (.error (.scope (.duplicate .cls "A") 1), s₁) := by
  have hrejects : takenClass.Rejects (.scope (.duplicate .cls "A") 1) doNameTokens printTokens :=
    @ParseState.Rejects.duplicateClass _ _ (onLineOne .identifier "A" none) _ _ _ rfl rfl rfl rfl
      rfl
  have hcontent : IsContent doNameTokens [.varDecl ⟨"do", 1⟩ "Int"] := by
    refine ⟨2, beforeEnd doNameTokens, _, _, [], rfl, rfl, rfl, Prod.ext ?_ rfl, ?_, ?_⟩
    · cbv
    · cbv
    · cbv
  obtain ⟨-, -, s₁, -, hitem, last, hlast, hbehind⟩ := hrejects.exists_outcome rfl
  refine ⟨hrejects, hcontent, s₁, ?_, hitem⟩
  have hcount : Brackets.blocks.behind? 1 (doNameTokens ++ last :: printTokens) = some [] := by
    simp [Brackets.behind?, Brackets.blocks, doNameTokens, printTokens, onLineOne, Token.isDo,
      hlast]
  rw [hcount] at hbehind
  exact (Option.some.inj hbehind).symm

end BlockLang
