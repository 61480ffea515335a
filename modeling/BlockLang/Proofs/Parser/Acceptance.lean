/-
  BlockLang.Proofs.Parser.Acceptance

  What the parser accepts is read by productions.

  Each reader that succeeds without an error inside has read a passage.  Readers of
  expressions note no errors; readers of blocks may, but an accepted program has
  none, and noted errors never go away, so every item of every block was read.
-/
import BlockLang.Proofs.Parser.Production
import BlockLang.Proofs.Parser.Progress

namespace BlockLang

namespace ParseM

variable {α : Type}

/-- Whether all that a reader of expressions yields is read by productions. -/
def ReadsExpr (x : ParseM Expr) : Prop :=
  ∀ s e s', x.outcome s = (.ok e, s') → Passage.Read ⟨.expr e, s, s'⟩

/-- Elements with commas between them, for any description `P` of such lists. -/
theorem separated_ok {element : ParseM α} {P : List α → ParseState → ParseState → Prop}
    (hlast : ∀ s a s', element.outcome s = (.ok a, s') → P [a] s s')
    (hmore : ∀ s a s₁ b bs s', element.outcome s = (.ok a, s₁) → s₁.check .comma →
      P (b :: bs) s₁.advance s' → P (a :: b :: bs) s s')
    {budget : Nat} {s s' : ParseState} {as : List α}
    (h : (separated element budget).outcome s = (.ok as, s')) : as ≠ [] ∧ P as s s' := by
  -- That the list is not empty goes along, since `hmore` asks for an element behind a comma.
  induction budget generalizing s as with
  | zero =>
      rw [separated, outcome_bind_ok] at h
      obtain ⟨a, s₁, ha, h⟩ := h
      cases h
      exact ⟨List.cons_ne_nil _ _, hlast s a s' ha⟩
  | succ budget ih =>
      rw [separated, outcome_bind_ok] at h
      obtain ⟨a, s₁, ha, h⟩ := h
      rw [outcome_bind_ok] at h
      obtain ⟨comma, s₂, hcomma, h⟩ := h
      rw [outcome_accept] at hcomma
      cases hcomma
      cases hc : s₁.check .comma with
      | false =>
          rw [hc, if_neg Bool.false_ne_true, ParseState.pass, hc] at h
          cases h
          exact ⟨List.cons_ne_nil _ _, hlast s a s₁ ha⟩
      | true =>
          rw [hc, if_pos rfl, ParseState.pass, if_pos hc, outcome_bind_ok] at h
          obtain ⟨more, s₃, hrest, h⟩ := h
          cases h
          obtain ⟨hne, hP⟩ := ih hrest
          obtain ⟨b, bs, rfl⟩ := List.exists_cons_of_ne_nil hne
          exact ⟨List.cons_ne_nil _ _, hmore s a s₁ b bs s' ha hc hP⟩

/-! ## Expressions -/

theorem read_binaryRest {level : Level} {operand : ParseM Expr} (hop : ReadsExpr operand)
    {budget : Nat} {left e : Expr} {s₀ s s' : ParseState}
    (hleft : Passage.Read ⟨.expr left, s₀, s⟩)
    (h : (binaryRest level operand budget left).outcome s = (.ok e, s')) :
    Passage.Read ⟨.expr e, s₀, s'⟩ := by
  -- The left operand grows round by round, and all of it is read from `s₀` on.
  induction budget generalizing left s with
  | zero =>
      cases h
      exact hleft
  | succ budget ih =>
      rw [binaryRest, outcome_bind, outcome_get] at h
      simp only at h
      split at h
      · rename_i hop'
        rw [outcome_bind, outcome_next] at h
        simp only [outcome_bind_ok] at h
        obtain ⟨right, s₁, hright, h⟩ := h
        refine ih (.of_two (.binary ?_) hleft (hop _ _ _ hright)) h
        simpa using hop'
      · cases h
        exact hleft

theorem read_binary {budget : Nat} {level : Level} {operand : ParseM Expr}
    (hop : ReadsExpr operand) : ReadsExpr (binary budget level operand) := by
  intro s e s' h
  rw [binary, outcome_bind_ok] at h
  obtain ⟨left, s₁, hleft, h⟩ := h
  exact read_binaryRest hop (hop _ _ _ hleft) h

theorem read_arguments {budget : Nat} {nested : ParseM Expr} (hn : ReadsExpr nested)
    {s s' : ParseState} {args : List Expr}
    (h : (arguments budget nested).outcome s = (.ok args, s')) :
    ∃ s₁, s.check .leftParen ∧ Passage.Read ⟨.arguments args, s.advance, s₁⟩ ∧
      s₁.check .rightParen ∧ s' = s₁.advance := by
  rw [arguments_eq] at h
  obtain ⟨s₁, hopen, hclose, rfl, hargs⟩ := inParens_ok h
  refine ⟨s₁, hopen, ?_, hclose, rfl⟩
  rcases hargs with ⟨rfl, rfl⟩ | hargs
  · exact .of_none .noArguments
  · refine (separated_ok (P := fun es s s' => Passage.Read ⟨.arguments es, s, s'⟩) ?_ ?_ hargs).2
    · intro s e s' he
      exact .of_two .lastArgument (hn _ _ _ he) (.of_none .noArguments)
    · intro s e s₁ e' es s' he hcomma hrest
      exact .of_two (.argument hcomma) (hn _ _ _ he) hrest

theorem callee_ok {t : Token} {s s' : ParseState} {target : Callee}
    (h : (callee t).outcome s = (.ok target, s')) :
    s' = s ∧ ((t.kind = .kwPrint ∧ target = ⟨.ofToken t, .builtin .print⟩) ∨
      (t.kind ≠ .kwPrint ∧ ∃ id, s.scopes.resolveMethod t.lexeme s.cursor = some id ∧
        target = ⟨.ofToken t, .method id⟩)) := by
  rw [callee] at h
  split at h
  · rename_i hprint
    cases h
    exact ⟨rfl, .inl ⟨hprint, rfl⟩⟩
  · rename_i hprint
    rw [outcome_bind, outcome_get] at h
    simp only at h
    split at h
    · rename_i id hid
      cases h
      exact ⟨rfl, .inr ⟨hprint, id, hid, rfl⟩⟩
    · cases h

theorem read_call {budget : Nat} {nested : ParseM Expr} (hn : ReadsExpr nested)
    {s s' : ParseState} {target : Callee} {args : List Expr}
    (hs : s.check .identifier ∨ s.check .kwPrint)
    (h : (call budget nested).outcome s = (.ok (target, args), s')) :
    ∃ s₁, Production (.expr (.call target args)) s [⟨.arguments args, s.advance.advance, s₁⟩] s' ∧
      Passage.Read ⟨.arguments args, s.advance.advance, s₁⟩ := by
  rw [call, outcome_bind, outcome_next] at h
  simp only [outcome_bind_ok] at h
  obtain ⟨target', s₁, htarget, args', s₂, hargs, h⟩ := h
  cases h
  obtain ⟨rfl, hnames⟩ := callee_ok htarget
  obtain ⟨s₃, hopen, hread, hclose, rfl⟩ := read_arguments hn hargs
  refine ⟨s₃, .call ?_ hopen hclose, hread⟩
  rcases hnames with ⟨hprint, rfl⟩ | ⟨hprint, id, hid, rfl⟩
  · exact .builtin (by simpa [ParseState.check] using hprint)
  · rcases hs with hs | hs
    · exact .method hs (by simpa using hid)
    · exact absurd (by simpa [ParseState.check] using hs) hprint

theorem read_assignment {nested : ParseM Expr} (hn : ReadsExpr nested) {s s' : ParseState}
    {target : Ident} {e : Expr} (hs : s.check .identifier)
    (h : (assignment nested).outcome s = (.ok (target, e), s')) :
    Production (.expr (.assign target e)) s [⟨.expr e, s.advance.advance, s'⟩] s' ∧
      Passage.Read ⟨.expr e, s.advance.advance, s'⟩ := by
  rw [assignment, outcome_bind, outcome_next] at h
  simp only [outcome_bind_ok] at h
  obtain ⟨_, s₁, hvar, _, _, hexpect, e', s₂, he, h⟩ := h
  cases h
  obtain ⟨hequal, -, rfl⟩ := expect_ok hexpect
  rw [requireVariable, outcome_bind, outcome_get] at hvar
  simp only [ParseState.advance_scopes, ParseState.advance_cursor] at hvar
  split at hvar
  · rename_i v hv
    cases hvar
    exact ⟨.assign hs hv hequal, hn _ _ _ he⟩
  · cases hvar
  · cases hvar

theorem read_literal {s s' : ParseState} {e : Expr} (hs : s.current.kind ∈ literalKinds)
    (h : literal.outcome s = (.ok e, s')) : Passage.Read ⟨.expr e, s, s'⟩ := by
  rw [literal, outcome_bind, outcome_next] at h
  simp only at h
  split at h
  · rename_i v hv
    cases h
    exact .of_none (.literal hs hv)
  · cases h

theorem read_nameUse {s s' : ParseState} {e : Expr} (hs : s.check .identifier)
    (h : nameUse.outcome s = (.ok e, s')) : Passage.Read ⟨.expr e, s, s'⟩ := by
  rw [nameUse, outcome_bind, outcome_next] at h
  simp only [outcome_bind, outcome_get, ParseState.advance_scopes,
    ParseState.advance_cursor] at h
  split at h
  · rename_i hname
    cases h
    exact .of_none (.name hs hname)
  · cases h

theorem read_grouping {nested : ParseM Expr} (hn : ReadsExpr nested) {s s' : ParseState}
    {e : Expr} (hs : s.check .leftParen) (h : (grouping nested).outcome s = (.ok e, s')) :
    Passage.Read ⟨.expr e, s, s'⟩ := by
  rw [grouping, outcome_bind, outcome_next] at h
  simp only [outcome_bind_ok, outcome_accept] at h
  obtain ⟨inner, s₁, hinner, closed, s₂, hclose, h⟩ := h
  cases hclose
  split at h
  · rename_i hparen
    cases h
    rw [ParseState.pass, if_pos hparen]
    exact .of_one (.grouping hs hparen) (hn _ _ _ hinner)
  · cases h

theorem noExpression_ok {s s' : ParseState} {a : α}
    (h : (noExpression : ParseM α).outcome s = (.ok a, s')) : False := by
  cases h

theorem read_primary {budget : Nat} {nested : ParseM Expr} (hn : ReadsExpr nested) :
    ReadsExpr (primary budget nested) := by
  intro s e s' h
  rw [primary, outcome_bind, outcome_get] at h
  simp only at h
  have hcall {p : Callee × List Expr} {s₁ : ParseState}
      (hs : s.check .identifier ∨ s.check .kwPrint)
      (h : (call budget nested).outcome s = (.ok p, s₁)) :
      Passage.Read ⟨.expr (.call p.1 p.2), s, s₁⟩ := by
    obtain ⟨s₂, hprod, hargs⟩ := read_call hn hs h
    exact .of_one hprod hargs
  -- Names and `print` need a look at the token behind them; the kind settles the rest.
  split at h
  case h_6 hkind =>
    have hs : s.check .identifier := by simpa [ParseState.check] using hkind
    split at h
    · obtain ⟨_, _, hok, h⟩ := outcome_bind_ok.mp h
      cases h
      exact hcall (.inl hs) hok
    · exact read_nameUse hs h
  case h_7 hkind =>
    have hs : s.check .kwPrint := by simpa [ParseState.check] using hkind
    split at h
    · obtain ⟨_, _, hok, h⟩ := outcome_bind_ok.mp h
      cases h
      exact hcall (.inr hs) hok
    · exact absurd h noExpression_ok
  case h_8 hkind => exact read_grouping hn (by simpa [ParseState.check] using hkind) h
  case h_9 => exact absurd h noExpression_ok
  all_goals
    rename_i hkind
    exact read_literal (by rw [hkind]; decide) h

theorem read_unary {budget : Nat} {nested : ParseM Expr} (hn : ReadsExpr nested) (signs : Nat) :
    ReadsExpr (unary budget nested signs) := by
  induction signs with
  | zero => exact read_primary hn
  | succ signs ih =>
      intro s e s' h
      rw [unary, outcome_bind, outcome_get] at h
      simp only at h
      split at h
      · rename_i hsign
        rw [outcome_bind, outcome_next] at h
        simp only [outcome_bind_ok] at h
        obtain ⟨operand, s₁, hoperand, h⟩ := h
        cases h
        exact .of_one (.unary (by simpa [ParseState.check] using hsign)) (ih _ _ _ hoperand)
      · exact read_primary hn s e s' h

theorem read_operation {budget : Nat} {nested : ParseM Expr} (hn : ReadsExpr nested) :
    ReadsExpr (operation budget nested) :=
  read_binary <| read_binary <| read_binary <| read_binary <| read_binary <| read_unary hn budget

theorem read_expression (budget : Nat) : ReadsExpr (expression budget) := by
  induction budget with
  | zero =>
      intro s e s' h
      exact absurd h noExpression_ok
  | succ budget ih =>
      intro s e s' h
      rw [expression, expressionWith, outcome_bind, outcome_get] at h
      simp only at h
      split at h
      · rename_i hs
        simp only [Bool.and_eq_true] at hs
        rw [outcome_bind_ok] at h
        obtain ⟨⟨target, value⟩, s₁, hassign, h⟩ := h
        cases h
        obtain ⟨hprod, hvalue⟩ := read_assignment ih hs.1 hassign
        exact .of_one hprod hvalue
      · exact read_operation ih s e s' h

/-! ## Declarations -/

theorem declare_ok {line : Nat}
    {add : ScopeTable → Cursor → Except ScopeError (α × ScopeTable)} {s s' : ParseState} {a : α}
    (h : (declare line add).outcome s = (.ok a, s')) :
    ∃ scopes, add s.scopes s.cursor = .ok (a, scopes) ∧ s' = { s with scopes } := by
  rw [declare, outcome_bind, outcome_get] at h
  simp only at h
  split at h
  · rename_i id scopes hadd
    rw [outcome_bind, outcome_set] at h
    cases h
    exact ⟨scopes, hadd, rfl⟩
  · cases h

theorem expectType_ok {s s' : ParseState} {type : String}
    (h : expectType.outcome s = (.ok type, s')) :
    s.check .identifier ∧ type = s.current.lexeme ∧ s' = s.advance := by
  rw [expectType, outcome_bind_ok] at h
  obtain ⟨t, s₁, hexpect, h⟩ := h
  cases h
  obtain ⟨hs, rfl, rfl⟩ := expect_ok hexpect
  exact ⟨hs, rfl, rfl⟩

theorem read_types {budget : Nat} {s s' : ParseState} {types : List String}
    (h : (separated expectType budget).outcome s = (.ok types, s')) :
    Passage.Read ⟨.types types, s, s'⟩ := by
  refine (separated_ok (P := fun ts s s' => Passage.Read ⟨.types ts, s, s'⟩) ?_ ?_ h).2
  · intro s type s' htype
    obtain ⟨hs, rfl, rfl⟩ := expectType_ok htype
    exact .of_none (.lastType hs)
  · intro s type s₁ type' types s' htype hcomma hrest
    obtain ⟨hs, rfl, rfl⟩ := expectType_ok htype
    exact .of_one (.type hs hcomma) hrest

theorem read_methodDeclaration {budget : Nat} {s s' : ParseState} {i : Item}
    (hs : s.check .identifier) (h : (methodDeclaration budget).outcome s = (.ok i, s')) :
    Passage.Read ⟨.item i, s, s'⟩ := by
  rw [methodDeclaration, outcome_bind, outcome_next] at h
  simp only [outcome_bind_ok, outcome_accept] at h
  obtain ⟨_, _, hsep', type, _, htype', _, _, harrow', types, s₁, htypes, id, _, hdecl,
    _, _, hsemi, h⟩ := h
  cases hsemi
  cases h
  obtain ⟨hsep, -, rfl⟩ := expect_ok hsep'
  obtain ⟨htype, rfl, rfl⟩ := expectType_ok htype'
  obtain ⟨harrow, -, rfl⟩ := expect_ok harrow'
  obtain ⟨scopes, hadd, rfl⟩ := declare_ok hdecl
  exact .of_one (.methodDecl hs hsep htype harrow hadd) (read_types htypes)

theorem read_varDeclaration {s s' : ParseState} {i : Item}
    (hs : s.check .identifier) (h : varDeclaration.outcome s = (.ok i, s')) :
    Passage.Read ⟨.item i, s, s'⟩ := by
  rw [varDeclaration, outcome_bind, outcome_next] at h
  simp only [outcome_bind_ok, outcome_accept] at h
  obtain ⟨_, _, hsep', type, _, htype', id, _, hdecl, _, _, hsemi, h⟩ := h
  cases hsemi
  cases h
  obtain ⟨hsep, -, rfl⟩ := expect_ok hsep'
  obtain ⟨htype, rfl, rfl⟩ := expectType_ok htype'
  obtain ⟨scopes, hadd, rfl⟩ := declare_ok hdecl
  exact .of_none (.varDecl hs hsep htype (by simpa [Ident.ofToken] using hadd))

/-! ## Statements -/

theorem read_pattern {budget : Nat} {m : MethodId} {s s' : ParseState} {p : Pattern}
    (h : (pattern budget m).outcome s = (.ok p, s')) : Passage.Read ⟨.pattern m p, s, s'⟩ := by
  rw [pattern, outcome_bind, outcome_get] at h
  simp only at h
  split at h
  · rename_i hs
    simp only [Bool.and_eq_true] at hs
    rw [outcome_bind, outcome_next] at h
    simp only [outcome_bind, outcome_modify] at h
    cases h
    rw [ParseState.advance_scopes]
    exact .of_none (.binding hs.1)
  · simp only [outcome_bind_ok] at h
    obtain ⟨value, s₁, hvalue, h⟩ := h
    split at h
    · rename_i hconst
      cases h
      exact .of_one (.value hconst) (read_unary (read_expression budget) budget _ _ _ hvalue)
    · cases h

theorem read_patterns {budget : Nat} {m : MethodId} {s s' : ParseState} {ps : List Pattern}
    (h : (separated (pattern budget m) budget).outcome s = (.ok ps, s')) :
    Passage.Read ⟨.patterns m ps, s, s'⟩ := by
  refine (separated_ok (P := fun ps s s' => Passage.Read ⟨.patterns m ps, s, s'⟩) ?_ ?_ h).2
  · intro s p s' hp
    exact .of_two .lastPattern (read_pattern hp) (.of_none .noPatterns)
  · intro s p s₁ p' ps s' hp hcomma hrest
    exact .of_two (.pattern hcomma) (read_pattern hp) hrest

theorem read_parameters {budget : Nat} {m : MethodId} {s s' : ParseState} {ps : List Pattern}
    (h : (parameters budget m).outcome s = (.ok ps, s')) :
    ∃ s₁, s.check .leftParen ∧ Passage.Read ⟨.patterns m ps, s.advance, s₁⟩ ∧
      s₁.check .rightParen ∧ s' = s₁.advance := by
  obtain ⟨s₁, hopen, hclose, rfl, hps⟩ := inParens_ok h
  refine ⟨s₁, hopen, ?_, hclose, rfl⟩
  rcases hps with ⟨rfl, rfl⟩ | hps
  · exact .of_none .noPatterns
  · exact read_patterns hps

theorem read_callStatement {budget : Nat} {s s' : ParseState} {i : Item}
    (hs : s.check .identifier ∨ s.check .kwPrint)
    (h : (callStatement budget).outcome s = (.ok i, s')) :
    Passage.Read ⟨.item i, s, s'.pass .semicolon⟩ := by
  rw [callStatement, outcome_bind_ok] at h
  obtain ⟨⟨target, args⟩, s₁, hcall, h⟩ := h
  cases h
  obtain ⟨s₂, hprod, hargs⟩ := read_call (read_expression budget) hs hcall
  exact .of_one (.callItem hprod) hargs

theorem block_ok {construct : Construct} {line : Nat} {content : StateM ParseState (List Item)}
    {s s' : ParseState} {body : List Item}
    (h : (block construct line content).outcome s = (.ok body, s')) :
    body = (content.run s).1 ∧ (content.run s).2.check .kwEnd ∧
      s' = (content.run s).2.advance := by
  rw [block, outcome_bind, outcome_lift] at h
  simp only [outcome_bind, outcome_accept] at h
  split at h
  · rename_i hend
    cases h
    exact ⟨rfl, hend, by rw [ParseState.pass, if_pos hend]⟩
  · cases h

/-- Whether all items that `content` yields are read by productions, when it ends
    without an error. -/
def ReadsItems (content : StateM ParseState (List Item)) : Prop :=
  ∀ s, (content.run s).2.errors = [] → Passage.Read ⟨.items (content.run s).1, s, (content.run s).2⟩

section Blocks

variable {content : StateM ParseState (List Item)} (hc : ReadsItems content)
include hc

theorem read_classDeclaration {s s' : ParseState} {i : Item} (hs : s.check .kwClass)
    (h : (classDeclaration content).outcome s = (.ok i, s')) (herr : s'.errors = []) :
    Passage.Read ⟨.item i, s, s'⟩ := by
  rw [classDeclaration, outcome_bind, outcome_next] at h
  simp only at h
  rw [outcome_bind_ok] at h
  obtain ⟨_, _, hname', h⟩ := h
  obtain ⟨hname, rfl, rfl⟩ := expect_ok hname'
  rw [outcome_bind, outcome_get] at h
  simp only [ParseState.advance_scopes, ParseState.advance_cursor] at h
  split at h
  · rename_i id scopes hadd
    rw [outcome_bind, outcome_set] at h
    simp only [outcome_bind_ok] at h
    obtain ⟨body, s₁, hblock, h⟩ := h
    cases h
    obtain ⟨s₂, hbody, rfl⟩ := withCursor_ok hblock
    obtain ⟨rfl, hend, rfl⟩ := block_ok hbody
    exact .of_one (.classDecl hs hname hadd hend) (hc _ (by simpa using herr))
  · cases h

/-- Conditions and loops differ in their keyword and in the item that they make. -/
theorem read_conditional {budget : Nat} {construct : Construct}
    {make : Expr → List Item → Nat → Item} {s s' : ParseState} {i : Item}
    (hprod : ∀ {s₁ s₂ e body}, s₁.current.isDo → s₂.check .kwEnd →
      Production (.item (make e body s.current.line)) s
        [⟨.expr e, s.advance, s₁⟩, ⟨.items body, s₁.advance, s₂⟩] (s₂.advance.pass .semicolon))
    (h : (conditional budget construct make content).outcome s = (.ok i, s'))
    (herr : s'.errors = []) : Passage.Read ⟨.item i, s, s'.pass .semicolon⟩ := by
  rw [conditional, outcome_bind, outcome_next] at h
  simp only [outcome_bind_ok] at h
  obtain ⟨e, s₁, he, _, _, hdo', body, s₂, hblock, h⟩ := h
  cases h
  obtain ⟨hdo, rfl⟩ := expectDo_ok hdo'
  obtain ⟨rfl, hend, rfl⟩ := block_ok hblock
  exact .of_two (hprod hdo hend) (read_expression budget _ _ _ he) (hc _ (by simpa using herr))

theorem read_methodBodyRest {budget : Nat} {name : Ident} {m : MethodId} {s s' : ParseState}
    {i : Item} (h : (methodBodyRest budget name m content).outcome s = (.ok i, s'))
    (herr : s'.errors = []) :
    ∃ ps body s₁ s₂, i = .methodBody ⟨(s₂.scopes.addImplementation m).1, m, name, ps⟩ body ∧
      s.check .leftParen ∧ Passage.Read ⟨.patterns m ps, s.advance, s₁⟩ ∧
      s₁.check .rightParen ∧ s₁.advance.current.isDo ∧
      Passage.Read ⟨.items body, s₁.advance.advance, s₂⟩ ∧ s₂.check .kwEnd ∧
      s' = { s₂.advance with scopes := (s₂.scopes.addImplementation m).2 } := by
  rw [methodBodyRest_eq] at h
  simp only [numberedBlock, outcome_bind_ok, outcome_get] at h
  obtain ⟨ps, _, hparams, _, _, hdo', body, s₂, hblock, _, _, hget, _, _, hset, h⟩ := h
  cases hget
  cases hset
  cases h
  obtain ⟨s₁, hopen, hps, hclose, rfl⟩ := read_parameters hparams
  obtain ⟨hdo, rfl⟩ := expectDo_ok hdo'
  obtain ⟨rfl, hend, rfl⟩ := block_ok hblock
  refine ⟨ps, _, s₁, _, ?_, hopen, hps, hclose, hdo, hc _ (by simpa using herr), hend, ?_⟩
  · rw [ParseState.advance_scopes]
  · rw [ParseState.advance_scopes]

theorem read_methodBody {budget : Nat} {s s' : ParseState} {i : Item}
    (hs : s.check .identifier) (h : (methodBody budget content).outcome s = (.ok i, s'))
    (herr : s'.errors = []) : Passage.Read ⟨.item i, s, s'.pass .semicolon⟩ := by
  rw [methodBody, outcome_bind, outcome_next] at h
  simp only [outcome_bind, outcome_get, ParseState.advance_scopes,
    ParseState.advance_cursor] at h
  split at h
  · rename_i m hm
    obtain ⟨s₃, hrest, rfl⟩ := withCursor_ok h
    obtain ⟨ps, body, s₁, s₂, rfl, hopen, hps, hclose, hdo, hbody, hend, rfl⟩ :=
      read_methodBodyRest hc hrest herr
    rw [s.advance_cursor]
    exact .of_two (.methodBody hs hm hopen hclose hdo hend) hps hbody
  · cases h

theorem read_bareStatement {budget : Nat} {s s' : ParseState} {i : Item}
    (h : (bareStatement budget content).outcome s = (.ok i, s')) (herr : s'.errors = []) :
    Passage.Read ⟨.item i, s, s'.pass .semicolon⟩ := by
  have hexpr (h : (do return Item.expr (← expression budget)).outcome s = (.ok i, s')) :
      Passage.Read ⟨.item i, s, s'.pass .semicolon⟩ := by
    rw [outcome_bind_ok] at h
    obtain ⟨e, s₁, he, h⟩ := h
    cases h
    exact .of_one .exprItem (read_expression budget _ _ _ he)
  rw [bareStatement, outcome_bind, outcome_get] at h
  simp only at h
  split at h
  · rename_i hkind
    exact read_conditional hc (.whileLoop (by simpa [ParseState.check] using hkind)) h herr
  · rename_i hkind
    exact read_conditional hc (.ifThen (by simpa [ParseState.check] using hkind)) h herr
  · rename_i hkind
    have hs : s.check .identifier := by simpa [ParseState.check] using hkind
    split at h
    · split at h
      · exact read_methodBody hc hs h herr
      · exact read_callStatement (.inl hs) h
    · split at h
      · rw [outcome_bind_ok] at h
        obtain ⟨⟨target, e⟩, s₁, hassign, h⟩ := h
        cases h
        obtain ⟨hprod, he⟩ := read_assignment (read_expression budget) hs hassign
        exact .of_one (.assignItem hprod) he
      · exact hexpr h
  · rename_i hkind
    split at h
    · exact read_callStatement (.inr (by simpa [ParseState.check] using hkind)) h
    · exact hexpr h
  · exact hexpr h

theorem read_item {budget : Nat} {s s' : ParseState} {i : Item}
    (h : (item budget content).outcome s = (.ok i, s')) (herr : s'.errors = []) :
    Passage.Read ⟨.item i, s, s'⟩ := by
  rw [item, outcome_bind, outcome_get] at h
  simp only at h
  split at h
  · exact read_classDeclaration hc ‹_› h herr
  · split at h
    · rename_i hs
      exact read_methodDeclaration (Bool.and_eq_true _ _ ▸ hs).1 h
    · split at h
      · rename_i hs
        exact read_varDeclaration (Bool.and_eq_true _ _ ▸ hs).1 h
      · rw [statement] at h
        simp only [outcome_bind_ok, outcome_accept] at h
        obtain ⟨i', s₁, hi, _, _, hsemi, h⟩ := h
        cases hsemi
        cases h
        exact read_bareStatement hc hi (by simpa using herr)

end Blocks

end ParseM

/-! ## Programs -/

/-- Noted errors never go away, so a round that ends without one reads an item. -/
theorem parseItems_round_ok {budget : Nat} {inBlock : Bool} {s : ParseState}
    (hgo : ¬(s.atEnd || (inBlock && s.check .kwEnd)))
    (herr : ((parseItems (budget + 1) inBlock).run s).2.errors = []) :
    ∃ i s₁, (ParseM.item (budget + 1) (parseItems budget true)).outcome s = (.ok i, s₁) ∧
      s₁.errors = [] ∧ (parseItems (budget + 1) inBlock).run s =
        (i :: ((parseItems budget inBlock).run s₁).1, ((parseItems budget inBlock).run s₁).2) := by
  have hmore (s₁ : ParseState) (h : ((parseItems budget inBlock).run s₁).2.errors = []) :
      s₁.errors = [] :=
    List.prefix_nil.mp (h ▸ (onward_parseItems budget inBlock s₁ (.trivial s₁)).errors)
  rw [parseItems_succ, if_neg hgo] at herr ⊢
  rcases hitem : (ParseM.item (budget + 1) (parseItems budget true)).outcome s with ⟨e | i, s₁⟩
  · -- The error of a rejected item would still be there at the end.
    rw [hitem] at herr
    have hnone := ((s₁.report e).plain_synchronize s).errors
    rw [hmore _ herr] at hnone
    exact absurd hnone.symm (by simp [ParseState.report])
  · rw [hitem] at herr
    exact ⟨i, s₁, rfl, hmore s₁ herr, rfl⟩

/-- Reading that ends without an error read every item. -/
theorem read_parseItems (budget : Nat) (inBlock : Bool) (s : ParseState)
    (herr : ((parseItems budget inBlock).run s).2.errors = []) :
    Passage.Read
      ⟨.items ((parseItems budget inBlock).run s).1, s, ((parseItems budget inBlock).run s).2⟩ := by
  induction budget generalizing inBlock s with
  | zero => exact .of_none .noItems
  | succ budget ih =>
      by_cases hgo : s.atEnd || (inBlock && s.check .kwEnd)
      · rw [parseItems_succ, if_pos hgo]
        exact .of_none .noItems
      · obtain ⟨i, s₁, hitem, herr₁, hrun⟩ := parseItems_round_ok hgo herr
        rw [hrun] at herr ⊢
        have hi := ParseM.read_item (fun s h => ih true s h) hitem herr₁
        exact .of_two .items hi (ih inBlock s₁ herr)

/-- Tokens are accepted when their items are read without an error. -/
theorem parseTokens_eq_ok_iff {tokens : List Token} {p : Parsed} :
    parseTokens tokens = .ok p ↔ ∃ s', (parseItems tokens.length false).run (.ofTokens tokens) =
      (p.items, s') ∧ s'.scopes = p.scopes ∧ s'.errors = [] := by
  rw [parseTokens]
  constructor
  · intro h
    split at h
    rename_i items s' hrun
    split at h
    · rename_i herr
      cases h
      exact ⟨s', hrun, rfl, List.isEmpty_iff.mp herr⟩
    · cases h
  · rintro ⟨s', hrun, hscopes, herr⟩
    simp only [hrun, herr, hscopes, List.isEmpty_nil, if_true]

/-- An accepted list of tokens was read by productions, without an error. -/
theorem read_parseTokens {tokens : List Token} {p : Parsed} (h : parseTokens tokens = .ok p) :
    ∃ s', (parseItems tokens.length false).run (.ofTokens tokens) = (p.items, s') ∧
      s'.scopes = p.scopes ∧ Passage.Read ⟨.items p.items, .ofTokens tokens, s'⟩ := by
  obtain ⟨s', hrun, hscopes, herr⟩ := parseTokens_eq_ok_iff.mp h
  have hread := read_parseItems tokens.length false (.ofTokens tokens)
  rw [hrun] at hread
  exact ⟨s', hrun, hscopes, hread herr⟩

/-- The tokens of an accepted text are accepted. -/
theorem parse_eq_ok {text : String} {p : Parsed} (h : parse text = .ok p) :
    ∃ tokens, tokenize text = .ok tokens ∧ parseTokens tokens = .ok p := by
  unfold parse at h
  split at h
  · cases h
  · rename_i tokens htokens
    split at h
    · cases h
    · rename_i parsed hparsed
      cases h
      exact ⟨tokens, htokens, hparsed⟩

end BlockLang
