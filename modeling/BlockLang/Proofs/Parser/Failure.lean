/-
  BlockLang.Proofs.Parser.Failure

  With which errors readers fail.

  What fails in one step of a reader is what the whole reader fails with, so the errors of a
  reader are those of its steps.  A missing `do` is the error of one step only, which loops,
  conditions and method bodies have.  All other readers fail for other reasons, also where
  they stand in front of that step.
-/
import BlockLang.Proofs.Parser.Outcome

namespace BlockLang

/-- Whether an error is that `do` is missing. -/
def ParseError.MissesDo (e : ParseError) : Prop :=
  ∃ found line, e = .unexpectedToken .blockStart found line

namespace ParseM

variable {α β : Type} {E : ParseError → Prop}

/-! ## Errors of readers -/

/-- Whether all errors of a reader are such that `E` holds of them. -/
def FailsWith (E : ParseError → Prop) (x : ParseM α) : Prop :=
  ∀ s e s', x.outcome s = (.error e, s') → E e

theorem failsWith_pure (a : α) : FailsWith E (pure a : ParseM α) := by
  intro s e s' h
  cases h

theorem failsWith_throw {e : ParseError} (he : E e) : FailsWith E (throw e : ParseM α) := by
  intro s e' s' h
  cases h
  exact he

theorem failsWith_bind {x : ParseM α} {f : α → ParseM β} (hx : FailsWith E x)
    (hf : ∀ a, FailsWith E (f a)) : FailsWith E (x >>= f) := by
  intro s e s' h
  rw [outcome_bind] at h
  rcases hout : x.outcome s with ⟨e' | a, s₁⟩
  · rw [hout] at h
    cases h
    exact hx s e s' hout
  · rw [hout] at h
    exact hf a s₁ e s' h

/-- A step that looks at the state first. -/
theorem failsWith_get {f : ParseState → ParseM α} (hf : ∀ s, FailsWith E (f s)) :
    FailsWith E (get >>= f) :=
  fun s => hf s s

/-- A step that changes the state first. -/
theorem failsWith_set {t : ParseState} {f : PUnit → ParseM α} (hf : FailsWith E (f ⟨⟩)) :
    FailsWith E (set t >>= f) :=
  fun _ => hf t

theorem failsWith_ite {c : Prop} [Decidable c] {x y : ParseM α} (hx : FailsWith E x)
    (hy : FailsWith E y) : FailsWith E (if c then x else y) := by
  split
  · exact hx
  · exact hy

theorem failsWith_withCursor {c : Cursor} {x : ParseM α} (hx : FailsWith E x) :
    FailsWith E (withCursor c x) := by
  intro s e s' h
  rw [outcome_withCursor] at h
  exact hx _ e _ (Prod.ext (Prod.mk.inj h).1 rfl)

theorem failsWith_next : FailsWith E next := by
  intro s e s' h
  cases h

theorem failsWith_accept (kind : TokenKind) : FailsWith E (accept kind) := by
  intro s e s' h
  rw [outcome_accept] at h
  cases h

theorem failsWith_separated {element : ParseM α} (h : FailsWith E element) (budget : Nat) :
    FailsWith E (separated element budget) := by
  induction budget with
  | zero => exact failsWith_bind h fun x => failsWith_pure [x]
  | succ budget ih =>
      refine failsWith_bind h fun x => ?_
      refine failsWith_bind (failsWith_accept .comma) fun _ => ?_
      exact failsWith_ite (failsWith_bind ih fun _ => failsWith_pure _) (failsWith_pure _)

/-! ## Readers that need no `do` -/

/-- A reader that never fails because `do` is missing. -/
abbrev NeedsNoDo (x : ParseM α) : Prop := FailsWith (fun e => ¬e.MissesDo) x

theorem needsNoDo_throw {e : ParseError}
    (he : ∀ found line, e ≠ .unexpectedToken .blockStart found line) :
    NeedsNoDo (throw e : ParseM α) :=
  failsWith_throw fun ⟨found, line, h⟩ => he found line h

theorem needsNoDo_expect {expected : Expected} (h : expected ≠ .blockStart) :
    NeedsNoDo (expect expected) := by
  refine failsWith_get fun s => failsWith_ite failsWith_next ?_
  refine failsWith_get fun t => needsNoDo_throw ?_
  intro found line he
  cases he
  exact h rfl

theorem needsNoDo_expectType : NeedsNoDo expectType :=
  failsWith_bind (needsNoDo_expect (by decide)) fun _ => failsWith_pure _

theorem needsNoDo_inParens (budget : Nat) {element : ParseM α} (h : NeedsNoDo element) :
    NeedsNoDo (inParens budget element) := by
  have hclose (as : List α) : NeedsNoDo (do let _ ← expect .rightParen; return as) :=
    failsWith_bind (needsNoDo_expect (by decide)) fun _ => failsWith_pure as
  refine failsWith_bind (needsNoDo_expect (by decide)) fun _ => failsWith_get fun s => ?_
  refine failsWith_ite (failsWith_bind (failsWith_pure []) hclose) ?_
  exact failsWith_bind (failsWith_separated h budget) hclose

/-! ### Expressions -/

theorem needsNoDo_noExpression : NeedsNoDo (noExpression : ParseM α) :=
  failsWith_get fun _ => needsNoDo_throw (by simp)

theorem needsNoDo_literal : NeedsNoDo literal := by
  refine failsWith_bind failsWith_next fun t => ?_
  split
  · exact failsWith_pure _
  · exact needsNoDo_throw (by simp)

theorem needsNoDo_nameUse : NeedsNoDo nameUse :=
  failsWith_bind failsWith_next fun _ => failsWith_get fun _ =>
    failsWith_ite (failsWith_pure _) (needsNoDo_throw (by simp))

theorem needsNoDo_callee (t : Token) : NeedsNoDo (callee t) := by
  refine failsWith_ite (failsWith_pure _) (failsWith_get fun s => ?_)
  split
  · exact failsWith_pure _
  · exact needsNoDo_throw (by simp)

theorem needsNoDo_requireVariable (name : Ident) : NeedsNoDo (requireVariable name) := by
  refine failsWith_get fun s => ?_
  split
  · exact failsWith_pure _
  · exact needsNoDo_throw (by simp)
  · exact needsNoDo_throw (by simp)

theorem needsNoDo_binary (budget : Nat) (level : Level) {operand : ParseM Expr}
    (h : NeedsNoDo operand) : NeedsNoDo (binary budget level operand) := by
  have hrest (budget : Nat) (left : Expr) : NeedsNoDo (binaryRest level operand budget left) := by
    induction budget generalizing left with
    | zero => exact failsWith_pure left
    | succ budget ih =>
        refine failsWith_get fun s => failsWith_ite ?_ (failsWith_pure left)
        exact failsWith_bind failsWith_next fun _ => failsWith_bind h fun _ => ih _
  exact failsWith_bind h (hrest budget)

section Nested

variable {nested : ParseM Expr} (h : NeedsNoDo nested) (budget : Nat)
include h

theorem needsNoDo_call : NeedsNoDo (call budget nested) := by
  refine failsWith_bind failsWith_next fun t => failsWith_bind (needsNoDo_callee t) fun _ => ?_
  rw [arguments_eq]
  exact failsWith_bind (needsNoDo_inParens budget h) fun _ => failsWith_pure _

theorem needsNoDo_assignment : NeedsNoDo (assignment nested) := by
  refine failsWith_bind failsWith_next fun _ => ?_
  refine failsWith_bind (needsNoDo_requireVariable _) fun _ => ?_
  refine failsWith_bind (needsNoDo_expect (by decide)) fun _ => ?_
  exact failsWith_bind h fun _ => failsWith_pure _

theorem needsNoDo_grouping : NeedsNoDo (grouping nested) := by
  refine failsWith_bind failsWith_next fun _ => failsWith_bind h fun _ => ?_
  refine failsWith_bind (failsWith_accept _) fun _ => ?_
  exact failsWith_ite (failsWith_pure _) (needsNoDo_throw (by simp))

theorem needsNoDo_primary : NeedsNoDo (primary budget nested) := by
  have hcall := needsNoDo_call h budget
  refine failsWith_get fun s => ?_
  dsimp only
  split
  case h_6 => exact failsWith_ite (failsWith_bind hcall fun _ => failsWith_pure _) needsNoDo_nameUse
  case h_7 =>
      refine failsWith_ite (failsWith_bind hcall fun _ => ?_) needsNoDo_noExpression
      exact failsWith_pure _
  case h_8 => exact needsNoDo_grouping h
  case h_9 => exact needsNoDo_noExpression
  all_goals exact needsNoDo_literal

theorem needsNoDo_unary (signs : Nat) : NeedsNoDo (unary budget nested signs) := by
  induction signs with
  | zero => exact needsNoDo_primary h budget
  | succ signs ih =>
      refine failsWith_get fun s => failsWith_ite ?_ (needsNoDo_primary h budget)
      exact failsWith_bind failsWith_next fun _ => failsWith_bind ih fun _ => failsWith_pure _

theorem needsNoDo_expressionWith : NeedsNoDo (expressionWith budget nested) := by
  have hlevels (levels : List Level) :
      NeedsNoDo (levels.foldr (binary budget) (unary budget nested budget)) := by
    induction levels with
    | nil => exact needsNoDo_unary h budget budget
    | cons level levels ih => exact needsNoDo_binary budget level ih
  refine failsWith_get fun s => failsWith_ite ?_ (hlevels _)
  exact failsWith_bind (needsNoDo_assignment h) fun _ => failsWith_pure _

end Nested

theorem needsNoDo_expression (budget : Nat) : NeedsNoDo (expression budget) := by
  induction budget with
  | zero => exact needsNoDo_noExpression
  | succ budget ih => exact needsNoDo_expressionWith ih (budget + 1)

/-! ### Items -/

theorem needsNoDo_declare (line : Nat)
    (add : ScopeTable → Cursor → Except ScopeError (α × ScopeTable)) :
    NeedsNoDo (declare line add) := by
  refine failsWith_get fun s => ?_
  split
  · exact failsWith_set (failsWith_pure _)
  · exact needsNoDo_throw (by simp)

theorem needsNoDo_methodDeclaration (budget : Nat) : NeedsNoDo (methodDeclaration budget) := by
  refine failsWith_bind failsWith_next fun _ => ?_
  refine failsWith_bind (needsNoDo_expect (by decide)) fun _ => ?_
  refine failsWith_bind needsNoDo_expectType fun _ => ?_
  refine failsWith_bind (needsNoDo_expect (by decide)) fun _ => ?_
  refine failsWith_bind (failsWith_separated needsNoDo_expectType budget) fun _ => ?_
  refine failsWith_bind (needsNoDo_declare _ _) fun _ => ?_
  exact failsWith_bind (failsWith_accept _) fun _ => failsWith_pure _

theorem needsNoDo_varDeclaration : NeedsNoDo varDeclaration := by
  refine failsWith_bind failsWith_next fun _ => ?_
  refine failsWith_bind (needsNoDo_expect (by decide)) fun _ => ?_
  refine failsWith_bind needsNoDo_expectType fun _ => ?_
  refine failsWith_bind (needsNoDo_declare _ _) fun _ => ?_
  exact failsWith_bind (failsWith_accept _) fun _ => failsWith_pure _

theorem needsNoDo_pattern (budget : Nat) (method : MethodId) :
    NeedsNoDo (pattern budget method) := by
  refine failsWith_get fun s => failsWith_ite ?_ ?_
  · refine failsWith_bind failsWith_next fun t => ?_
    exact failsWith_bind (fun s e s' h => by cases h) fun _ => failsWith_pure _
  · refine failsWith_bind (needsNoDo_unary (needsNoDo_expression budget) budget budget) fun _ => ?_
    exact failsWith_ite (failsWith_pure _) (needsNoDo_throw (by simp))

theorem needsNoDo_block (construct : Construct) (line : Nat)
    (content : StateM ParseState (List Item)) : NeedsNoDo (block construct line content) := by
  -- Errors in the block are noted in the state, and the block does not fail with them.
  refine failsWith_bind (fun s e s' h => by cases h) fun _ => ?_
  refine failsWith_bind (failsWith_accept _) fun _ => ?_
  exact failsWith_ite (failsWith_pure _) (needsNoDo_throw (by simp))

theorem needsNoDo_classDeclaration (content : StateM ParseState (List Item)) :
    NeedsNoDo (classDeclaration content) := by
  refine failsWith_bind failsWith_next fun _ => ?_
  refine failsWith_bind (needsNoDo_expect (by decide)) fun _ => ?_
  refine failsWith_get fun s => ?_
  split
  · have hblock {c : Cursor} {line : Nat} :=
      failsWith_withCursor (c := c) (needsNoDo_block .classDecl line content)
    exact failsWith_set (failsWith_bind hblock fun _ => failsWith_pure _)
  · exact failsWith_set (needsNoDo_throw (by simp))

end ParseM

end BlockLang
