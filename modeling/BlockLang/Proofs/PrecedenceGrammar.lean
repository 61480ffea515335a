/-
  BlockLang.Proofs.PrecedenceGrammar

  The reader of expressions accepts exactly the precedence grammar.

  Whatever it yields is stratified, written by the tokens that were passed, and names only
  what is found at that place.  The other way round, the tokens of every such expression are
  read as that expression, up to the first token that does not go on with it.
-/
import BlockLang.Proofs.Parser.Completeness
import BlockLang.Proofs.Parser.Stratification

namespace BlockLang

/-! ## Passages of expressions -/

/-- Between two states of a program these tokens are passed and nothing else changes. -/
structure ParseState.Steps (s : ParseState) (tokens : List Token) (s' : ParseState) : Prop where
  passes : s.Passes tokens s'
  scopes : s'.scopes = s.scopes
  cursor : s'.cursor = s.cursor
  errors : s'.errors = s.errors

namespace ParseState.Steps

variable {s s₁ s' : ParseState} {ts ts' : List Token}

theorem refl (s : ParseState) : s.Steps [] s := ⟨.refl s, rfl, rfl, rfl⟩

theorem trans (h : s.Steps ts s₁) (h' : s₁.Steps ts' s') : s.Steps (ts ++ ts') s' :=
  ⟨h.passes.trans h'.passes, h'.scopes.trans h.scopes, h'.cursor.trans h.cursor,
    h'.errors.trans h.errors⟩

theorem advance {kind : TokenKind} (hs : s.Closed) (h : s.check kind) (hkind : kind ≠ .endOfInput) :
    s.Steps [s.current] s.advance :=
  ⟨passes_of_check hs h hkind, s.advance_scopes, s.advance_cursor, s.advance_errors⟩

/-- The first of the tokens that are left is passed. -/
theorem of_rest {t : Token} {rest : List Token} (hs : s.Closed) (hrest : s.rest = t :: rest)
    (hkind : t.kind ≠ .endOfInput) :
    s.current = t ∧ s.Steps [t] s.advance ∧ s.advance.rest = rest ∧ s.advance.Closed := by
  have hcurrent := current_of_rest hrest
  have hcheck : s.check t.kind := by simp [check, hcurrent]
  have hstep := advance hs hcheck hkind
  rw [hcurrent] at hstep
  have hsplit := hstep.passes.rest
  rw [hrest, List.singleton_append] at hsplit
  exact ⟨hcurrent, hstep, (List.cons.inj hsplit).2.symm, hstep.passes.closed hs⟩

/-- What expressions refer to is the same in front of the tokens and behind them. -/
theorem each_iff (h : s.Steps ts s') {φ : Phrase} :
    φ.Each (Expr.Refers s'.scopes s'.cursor) ↔ φ.Each (Expr.Refers s.scopes s.cursor) := by
  rw [h.scopes, h.cursor]

end ParseState.Steps

/-! ### From tokens to passages -/

open ParseState (Steps)

theorem Callee.WrittenBy.atCallee {callee : Callee} {t : Token} {args : List Expr}
    {s : ParseState} (h : callee.WrittenBy t) (ht : s.current = t)
    (hrefers : Expr.Refers s.scopes s.cursor (.call callee args)) :
    t.kind ≠ .endOfInput ∧ s.AtCallee callee := by
  subst ht
  cases h with
  | builtin hkind => exact ⟨by simp [hkind], .builtin (by simp [ParseState.check, hkind])⟩
  | method hkind => exact ⟨by simp [hkind], .method (by simp [ParseState.check, hkind]) hrefers⟩

/-- The tokens of a phrase whose operators fit and whose names are found make up a passage. -/
theorem Phrase.WrittenBy.exists_read {φ : Phrase} {tokens : List Token} (h : φ.WrittenBy tokens)
    {s : ParseState} {rest : List Token} (hs : s.Closed) (hrest : s.rest = tokens ++ rest)
    (hlayered : φ.Each Expr.Layered) (hrefers : φ.Each (Expr.Refers s.scopes s.cursor)) :
    ∃ s', Passage.Read ⟨φ, s, s'⟩ ∧ s.Steps tokens s' ∧ s'.rest = rest := by
  -- Tokens are passed without a change of the table or the place, so what the names of a part
  -- refer to is the same where the part starts (`Steps.each_iff`).
  induction h generalizing s rest with
  | @name t hkind =>
      obtain ⟨rfl, hstep, hrest₁, -⟩ := Steps.of_rest hs hrest (by simp [hkind])
      refine ⟨s.advance, .of_none (.name ?_ hrefers.here), hstep, hrest₁⟩
      simp [ParseState.check, hkind]
  | @literal t v hkind hvalue =>
      have hend : t.kind ≠ .endOfInput := fun hend => absurd (hend ▸ hkind) (by decide)
      obtain ⟨rfl, hstep, hrest₁, -⟩ := Steps.of_rest hs hrest hend
      exact ⟨s.advance, .of_none (.literal hkind hvalue), hstep, hrest₁⟩
  | @grouping opening closing ts e hopen hclose _ ih =>
      have hsplit : s.rest = opening :: (ts ++ closing :: rest) := by simpa using hrest
      obtain ⟨rfl, hstep, hrest₁, hs₁⟩ := Steps.of_rest hs hsplit (by simp [hopen])
      obtain ⟨s₂, hread, hinner, hrest₂⟩ := ih hs₁ hrest₁ (hlayered.part List.mem_cons_self)
        (hstep.each_iff.mpr (hrefers.part List.mem_cons_self))
      obtain ⟨rfl, hlast, hrest₃, -⟩ :=
        Steps.of_rest (hinner.passes.closed hs₁) hrest₂ (by simp [hclose])
      refine ⟨s₂.advance, .of_one (.grouping ?_ ?_) hread, ?_, hrest₃⟩
      · simp [ParseState.check, hopen]
      · simp [ParseState.check, hclose]
      · exact hstep.trans (hinner.trans hlast)
  | @unary t ts e _ ih =>
      obtain ⟨hsign, -⟩ : Expr.Layered _ := hlayered.here
      have hend : t.kind ≠ .endOfInput := by
        rcases hsign with hsign | hsign
        · exact fun hend => absurd (hend.symm.trans hsign) (by decide)
        · exact fun hend => absurd (hend.symm.trans hsign) (by decide)
      obtain ⟨rfl, hstep, hrest₁, hs₁⟩ := Steps.of_rest hs hrest hend
      obtain ⟨s₂, hread, hinner, hrest₂⟩ := ih hs₁ hrest₁ (hlayered.part List.mem_cons_self)
        (hstep.each_iff.mpr (hrefers.part List.mem_cons_self))
      refine ⟨s₂, .of_one (.unary ?_) hread, hstep.trans hinner, hrest₂⟩
      simpa [ParseState.check, Operator.ofToken] using hsign
  | @binary t ls rs level left right _ _ ihLeft ihRight =>
      obtain ⟨hop, -, -⟩ : Expr.Layered _ := hlayered.here
      have hsplit : s.rest = ls ++ (t :: (rs ++ rest)) := by simpa using hrest
      obtain ⟨s₁, hleft, hfirst, hrest₁⟩ := ihLeft hs hsplit (hlayered.part List.mem_cons_self)
        (hrefers.part List.mem_cons_self)
      have hs₁ := hfirst.passes.closed hs
      have hend : t.kind ≠ .endOfInput := by
        intro hend
        have hop' : TokenKind.endOfInput ∈ level.operators := hend ▸ hop
        cases level <;> exact absurd hop' (by decide)
      obtain ⟨rfl, hstep, hrest₂, hs₂⟩ := Steps.of_rest hs₁ hrest₁ hend
      have hmem : Phrase.expr right ∈ [.expr left, .expr right] :=
        List.mem_cons_of_mem _ List.mem_cons_self
      obtain ⟨s₃, hright, hlast, hrest₃⟩ := ihRight hs₂ hrest₂ (hlayered.part hmem)
        ((hfirst.trans hstep).each_iff.mpr (hrefers.part hmem))
      exact ⟨s₃, .of_two (.binary hop) hleft hright, hfirst.trans (hstep.trans hlast), hrest₃⟩
  | @assign t equal ts e hname hequal _ ih =>
      obtain ⟨v, hvar⟩ : Expr.Refers _ _ _ := hrefers.here
      obtain ⟨rfl, hstep, hrest₁, hs₁⟩ := Steps.of_rest hs hrest (by simp [hname])
      obtain ⟨rfl, hstep', hrest₂, hs₂⟩ := Steps.of_rest hs₁ hrest₁ (by simp [hequal])
      obtain ⟨s₃, hread, hvalue, hrest₃⟩ := ih hs₂ hrest₂ (hlayered.part List.mem_cons_self)
        ((hstep.trans hstep').each_iff.mpr (hrefers.part List.mem_cons_self))
      refine ⟨s₃, .of_one (.assign ?_ hvar ?_) hread, hstep.trans (hstep'.trans hvalue), hrest₃⟩
      · simp [ParseState.check, hname]
      · simp [ParseState.check, hequal]
  | @call t opening closing ts callee args hcallee hopen hclose _ ih =>
      have hsplit : s.rest = t :: opening :: (ts ++ closing :: rest) := by simpa using hrest
      obtain ⟨hend, hat⟩ :=
        hcallee.atCallee (ParseState.current_of_rest hsplit) hrefers.here
      obtain ⟨rfl, hstep, hrest₁, hs₁⟩ := Steps.of_rest hs hsplit hend
      obtain ⟨rfl, hstep', hrest₂, hs₂⟩ := Steps.of_rest hs₁ hrest₁ (by simp [hopen])
      obtain ⟨s₃, hread, hargs, hrest₃⟩ := ih hs₂ hrest₂ (hlayered.part List.mem_cons_self)
        ((hstep.trans hstep').each_iff.mpr (hrefers.part List.mem_cons_self))
      obtain ⟨rfl, hlast, hrest₄, -⟩ :=
        Steps.of_rest (hargs.passes.closed hs₂) hrest₃ (by simp [hclose])
      refine ⟨s₃.advance, .of_one (.call hat ?_ ?_) hread, ?_, hrest₄⟩
      · simp [ParseState.check, hopen]
      · simp [ParseState.check, hclose]
      · exact hstep.trans (hstep'.trans (hargs.trans hlast))
  | noArguments => exact ⟨s, .of_none .noArguments, .refl s, hrest⟩
  | lastArgument _ ih =>
      obtain ⟨s₁, hread, hstep, hrest₁⟩ := ih hs hrest (hlayered.part List.mem_cons_self)
        (hrefers.part List.mem_cons_self)
      exact ⟨s₁, .of_two .lastArgument hread (.of_none .noArguments), hstep, hrest₁⟩
  | @argument comma ts ts' e e' es hcomma _ _ ih ihMore =>
      have hsplit : s.rest = ts ++ (comma :: (ts' ++ rest)) := by simpa using hrest
      obtain ⟨s₁, hread, hfirst, hrest₁⟩ := ih hs hsplit (hlayered.part List.mem_cons_self)
        (hrefers.part List.mem_cons_self)
      have hs₁ := hfirst.passes.closed hs
      obtain ⟨rfl, hstep, hrest₂, hs₂⟩ := Steps.of_rest hs₁ hrest₁ (by simp [hcomma])
      have hmem : Phrase.arguments (e' :: es) ∈ [.expr e, .arguments (e' :: es)] :=
        List.mem_cons_of_mem _ List.mem_cons_self
      obtain ⟨s₃, hmore, hlast, hrest₃⟩ := ihMore hs₂ hrest₂ (hlayered.part hmem)
        ((hfirst.trans hstep).each_iff.mpr (hrefers.part hmem))
      refine ⟨s₃, .of_two (.argument ?_) hread hmore, hfirst.trans (hstep.trans hlast), hrest₃⟩
      simp [ParseState.check, hcomma]

/-! ### From passages to tokens -/

/-- Expressions and arguments, which only pass tokens. -/
def Phrase.IsExpression : Phrase → Prop
  | expr _ => True
  | arguments _ => True
  | _ => False

theorem ParseState.AtCallee.writtenBy {s : ParseState} {callee : Callee} (h : s.AtCallee callee)
    (args : List Expr) (hs : s.Closed) :
    s.Steps [s.current] s.advance ∧ callee.WrittenBy s.current ∧
      Expr.Refers s.scopes s.cursor (.call callee args) := by
  cases h with
  | builtin hprint =>
      exact ⟨.advance hs hprint (by decide), .builtin (by simpa [check] using hprint), trivial⟩
  | method hname hfound =>
      exact ⟨.advance hs hname (by decide), .method (by simpa [check] using hname), hfound⟩

/-- The expressions of a passage are written by the tokens that it passes, and what they name
    is found where it starts. -/
theorem Passage.Read.writtenBy {ρ : Passage} (h : ρ.Read) (hs : ρ.before.Closed)
    (hφ : ρ.phrase.IsExpression) :
    (∃ tokens, ρ.before.Steps tokens ρ.after ∧ ρ.phrase.WrittenBy tokens) ∧
      ρ.phrase.Each (Expr.Refers ρ.before.scopes ρ.before.cursor) := by
  have hkind {s : ParseState} {kind : TokenKind} (h : s.check kind) : s.current.kind = kind := by
    simpa [ParseState.check] using h
  have hfirst {σ : Passage} {rest : List Passage} : σ ∈ σ :: rest := List.mem_cons_self
  have hlast {σ τ : Passage} : τ ∈ [σ, τ] := List.mem_cons_of_mem σ List.mem_cons_self
  induction h with
  | @intro φ s s' parts hprod hparts ih =>
      cases hprod with
      | name hname hfound =>
          refine ⟨⟨_, .advance hs hname (by decide), .name (hkind hname)⟩, ?_⟩
          exact Phrase.each_expr hfound fun _ hpart => absurd hpart List.not_mem_nil
      | literal hliteral hvalue =>
          have hcheck : s.check s.current.kind := decide_eq_true rfl
          have hend : s.current.kind ≠ .endOfInput := fun hend =>
            absurd (hend ▸ hliteral) (by decide)
          refine ⟨⟨_, .advance hs hcheck hend, .literal hliteral hvalue⟩, ?_⟩
          exact Phrase.each_expr trivial fun _ hpart => absurd hpart List.not_mem_nil
      | @grouping _ s₁ e hopen hclose =>
          have hstep := Steps.advance hs hopen (by decide)
          have hs₁ := hstep.passes.closed hs
          obtain ⟨⟨ts, hinner, hwritten⟩, hrefers⟩ := ih _ hfirst hs₁ trivial
          have hend := Steps.advance (hinner.passes.closed hs₁) hclose (by decide)
          refine ⟨⟨_, hstep.trans (hinner.trans hend), ?_⟩, ?_⟩
          · exact .grouping (hkind hopen) (hkind hclose) hwritten
          · exact Phrase.each_expr trivial
              (List.forall_mem_singleton.mpr (hstep.each_iff.mp hrefers))
      | @unary _ _ e hsign =>
          have hstep : s.Steps [s.current] s.advance := by
            rcases hsign with hsign | hsign
            · exact .advance hs hsign (by decide)
            · exact .advance hs hsign (by decide)
          obtain ⟨⟨ts, hinner, hwritten⟩, hrefers⟩ :=
            ih _ hfirst (hstep.passes.closed hs) trivial
          refine ⟨⟨_, hstep.trans hinner, .unary hwritten⟩, ?_⟩
          exact Phrase.each_expr trivial (List.forall_mem_singleton.mpr (hstep.each_iff.mp hrefers))
      | @binary _ s₁ _ level left right hop =>
          obtain ⟨⟨ls, hleft, hwrittenLeft⟩, hrefersLeft⟩ := ih _ hfirst hs trivial
          have hs₁ := hleft.passes.closed hs
          have hcontains : level.operators.contains s₁.current.kind := by simpa using hop
          have hcheck : s₁.check s₁.current.kind := decide_eq_true rfl
          have hend : s₁.current.kind ≠ .endOfInput := by
            simpa [ParseState.atEnd, ParseState.check] using ParseState.atEnd_of_operator hcontains
          have hstep := Steps.advance hs₁ hcheck hend
          obtain ⟨⟨rs, hright, hwrittenRight⟩, hrefersRight⟩ :=
            ih _ hlast (hstep.passes.closed hs₁) trivial
          refine ⟨⟨_, hleft.trans (hstep.trans hright), .binary hwrittenLeft hwrittenRight⟩, ?_⟩
          refine Phrase.each_expr trivial (List.forall_mem_cons.mpr ⟨hrefersLeft, ?_⟩)
          exact List.forall_mem_singleton.mpr ((hleft.trans hstep).each_iff.mp hrefersRight)
      | @assign _ _ e v hname hvar hequal =>
          have hstep := Steps.advance hs hname (by decide)
          have hs₁ := hstep.passes.closed hs
          have hstep' := Steps.advance hs₁ hequal (by decide)
          obtain ⟨⟨ts, hvalue, hwritten⟩, hrefers⟩ :=
            ih _ hfirst (hstep'.passes.closed hs₁) trivial
          refine ⟨⟨_, hstep.trans (hstep'.trans hvalue), ?_⟩, ?_⟩
          · exact .assign (hkind hname) (hkind hequal) hwritten
          · exact Phrase.each_expr ⟨v, hvar⟩
              (List.forall_mem_singleton.mpr ((hstep.trans hstep').each_iff.mp hrefers))
      | @call _ s₁ callee args hcallee hopen hclose =>
          obtain ⟨hstep, hname, hfound⟩ := hcallee.writtenBy args hs
          have hs₁ := hstep.passes.closed hs
          have hstep' := Steps.advance hs₁ hopen (by decide)
          have hs₂ := hstep'.passes.closed hs₁
          obtain ⟨⟨ts, hargs, hwritten⟩, hrefers⟩ := ih _ hfirst hs₂ trivial
          have hend := Steps.advance (hargs.passes.closed hs₂) hclose (by decide)
          refine ⟨⟨_, hstep.trans (hstep'.trans (hargs.trans hend)), ?_⟩, ?_⟩
          · exact .call hname (hkind hopen) (hkind hclose) hwritten
          · exact Phrase.each_expr hfound
              (List.forall_mem_singleton.mpr ((hstep.trans hstep').each_iff.mp hrefers))
      | noArguments =>
          exact ⟨⟨[], .refl s, .noArguments⟩,
            Phrase.each_arguments.mpr fun _ hpart => absurd hpart List.not_mem_nil⟩
      | lastArgument =>
          obtain ⟨⟨ts, hstep, hwritten⟩, hrefers⟩ := ih _ hfirst hs trivial
          refine ⟨⟨ts, hstep, .lastArgument hwritten⟩, ?_⟩
          exact Phrase.each_arguments.mpr (List.forall_mem_singleton.mpr hrefers)
      | @argument _ s₁ _ e e' es hcomma =>
          obtain ⟨⟨ts, hstep, hwritten⟩, hrefers⟩ := ih _ hfirst hs trivial
          have hs₁ := hstep.passes.closed hs
          have hstep' := Steps.advance hs₁ hcomma (by decide)
          obtain ⟨⟨ts', hmore, hwritten'⟩, hrefers'⟩ :=
            ih _ hlast (hstep'.passes.closed hs₁) trivial
          refine ⟨⟨_, hstep.trans (hstep'.trans hmore), ?_⟩, ?_⟩
          · exact .argument (hkind hcomma) hwritten hwritten'
          · refine Phrase.each_parts (fun _ he => Phrase.noConfusion he) ?_
            refine List.forall_mem_cons.mpr ⟨hrefers, List.forall_mem_singleton.mpr ?_⟩
            exact (hstep.trans hstep').each_iff.mp hrefers'
      -- The other productions are those of patterns and items.
      | _ => cases hφ

/-! ## The grammar -/

/-- The tokens of a stratified expression whose names are found are read as that expression,
    up to the first token that does not go on with it. -/
theorem Expr.WrittenBy.outcome_expression {e : Expr} {tokens rest : List Token}
    (h : e.WrittenBy tokens) {s : ParseState} {budget : Nat} (hs : s.Closed)
    (hrest : s.rest = tokens ++ rest) (hbudget : s.rest.length ≤ budget)
    (hend : (rest.head?.getD s.closing).kind.EndsExpression) (he : e.Stratified)
    (hresolves : e.Resolves s.scopes s.cursor) :
    ∃ s', (ParseM.expression budget).outcome s = (.ok e, s') ∧ s.Steps tokens s' := by
  obtain ⟨s', hread, hsteps, hrest'⟩ := h.exists_read hs hrest he hresolves
  have hcurrent : s'.current = rest.head?.getD s.closing := by
    rw [ParseState.current, ParseState.peekAt, hrest', hsteps.passes.closing,
      List.head?_eq_getElem?]
  have hfound : e.Found s s' := hread.found hs
  exact ⟨s', hfound.outcome_expression hread he hs hbudget (hcurrent ▸ hend), hsteps⟩

/-- Reading an expression accepts exactly the precedence grammar.  What is read is stratified;
    it is written by the tokens that were passed, and its names, call targets and assignment
    targets are found.  The tokens of every such expression are read as that expression, and
    reading stops in front of the first token that does not go on with it. -/
theorem expression_reads_precedence_grammar :
    (∀ (budget : Nat) (s : ParseState) (e : Expr) (s' : ParseState),
      (ParseM.expression budget).outcome s = (.ok e, s') → e.Stratified ∧
        (s.Closed → e.Resolves s.scopes s.cursor ∧
          ∃ tokens, e.WrittenBy tokens ∧ s.Steps tokens s')) ∧
    ∀ (e : Expr) (tokens rest : List Token) (s : ParseState) (budget : Nat),
      e.Stratified → e.Resolves s.scopes s.cursor → e.WrittenBy tokens →
      s.Closed → s.rest = tokens ++ rest → s.rest.length ≤ budget →
      (rest.head?.getD s.closing).kind.EndsExpression →
      ∃ s', (ParseM.expression budget).outcome s = (.ok e, s') ∧ s.Steps tokens s' := by
  refine ⟨fun budget s e s' h => ⟨ParseM.yields_expression budget s e s' h, fun hs => ?_⟩, ?_⟩
  · obtain ⟨⟨tokens, hsteps, hwritten⟩, hrefers⟩ :=
      (ParseM.read_expression budget s e s' h).writtenBy hs trivial
    exact ⟨hrefers, tokens, hwritten, hsteps⟩
  · intro e tokens rest s budget he hresolves hwritten hs hrest hbudget hend
    exact hwritten.outcome_expression hs hrest hbudget hend he hresolves

/-- The tokens of `x = 1 - -f(2) - x`. -/
def assignmentTokens : List Token :=
  [ ⟨.identifier, "x", none, ⟨0, 1, 1, 1⟩⟩, ⟨.equal, "=", none, ⟨2, 3, 1, 3⟩⟩,
    ⟨.number, "1", some (.integer 1), ⟨4, 5, 1, 5⟩⟩, ⟨.minus, "-", none, ⟨6, 7, 1, 7⟩⟩,
    ⟨.minus, "-", none, ⟨8, 9, 1, 9⟩⟩, ⟨.identifier, "f", none, ⟨9, 10, 1, 10⟩⟩,
    ⟨.leftParen, "(", none, ⟨10, 11, 1, 11⟩⟩, ⟨.number, "2", some (.integer 2), ⟨11, 12, 1, 12⟩⟩,
    ⟨.rightParen, ")", none, ⟨12, 13, 1, 13⟩⟩, ⟨.minus, "-", none, ⟨14, 15, 1, 15⟩⟩,
    ⟨.identifier, "x", none, ⟨16, 17, 1, 17⟩⟩ ]

/-- The expression of `assignmentTokens`: subtractions group to the left. -/
def assignmentExpr : Expr :=
  .assign ⟨"x", 1⟩ (.binary .addition
    (.binary .addition (.literal (.integer 1)) ⟨.minus, "-", 1⟩
      (.unary ⟨.minus, "-", 1⟩ (.call ⟨⟨"f", 1⟩, .method 0⟩ [.literal (.integer 2)])))
    ⟨.minus, "-", 1⟩ (.name ⟨"x", 1⟩))

/-- A state in front of `assignmentTokens` and an `end`, where `x` and `f` are declared. -/
def assignmentState : ParseState where
  rest := assignmentTokens ++ [⟨.kwEnd, "end", none, ⟨18, 21, 2, 1⟩⟩]
  closing := ⟨.endOfInput, "", none, ⟨21, 21, 2, 4⟩⟩
  scopes :=
    { methods := #[⟨"f", "Int", ["Int"], none, none, {}, []⟩], vars := #[⟨"x", none, none, none⟩],
      global := { methods := [0], vars := [0] } }

theorem assignment_reads_grouped_left :
    assignmentExpr.Stratified ∧
      ∃ s', (ParseM.expression 12).outcome assignmentState = (.ok assignmentExpr, s') ∧
        assignmentState.Steps assignmentTokens s' := by
  have hstratified : assignmentExpr.Stratified := by
    simp [Expr.Stratified, assignmentExpr, Phrase.each_expr_iff, Phrase.each_arguments,
      Phrase.parts, Expr.Layered, Expr.tightness, Level.tightness, Level.operators, signTightness]
  have hx : assignmentState.scopes.resolve "x" assignmentState.cursor = some (.var 0) := by decide
  have hf : assignmentState.scopes.resolveMethod "f" assignmentState.cursor = some 0 := by decide
  have hresolves : assignmentExpr.Resolves assignmentState.scopes assignmentState.cursor := by
    simp [Expr.Resolves, assignmentExpr, Phrase.each_expr_iff, Phrase.each_arguments,
      Phrase.parts, Expr.Refers, hx, hf]
  have hone := Phrase.WrittenBy.literal (t := assignmentTokens[2]) (by decide) rfl
  have htwo := Phrase.WrittenBy.literal (t := assignmentTokens[7]) (by decide) rfl
  have hf' : Callee.WrittenBy ⟨.ofToken assignmentTokens[5], .method 0⟩ assignmentTokens[5] :=
    .method rfl
  have hcall := Phrase.WrittenBy.call hf'
    (show assignmentTokens[6].kind = .leftParen from rfl)
    (show assignmentTokens[8].kind = .rightParen from rfl) (.lastArgument htwo)
  have hminus := Phrase.WrittenBy.unary (t := assignmentTokens[4]) hcall
  have hx' := Phrase.WrittenBy.name (t := assignmentTokens[10]) rfl
  have hdifference := @Phrase.WrittenBy.binary assignmentTokens[3] _ _ .addition _ _ hone hminus
  have hvalue := @Phrase.WrittenBy.binary assignmentTokens[9] _ _ .addition _ _ hdifference hx'
  have hwritten : assignmentExpr.WrittenBy assignmentTokens :=
    Phrase.WrittenBy.assign (t := assignmentTokens[0]) rfl
      (show assignmentTokens[1].kind = .equal from rfl) hvalue
  exact ⟨hstratified, expression_reads_precedence_grammar.2 assignmentExpr assignmentTokens _
    assignmentState 12 hstratified hresolves hwritten rfl rfl (by decide) (by decide)⟩

end BlockLang
