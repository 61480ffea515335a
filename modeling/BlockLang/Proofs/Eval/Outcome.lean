/-
  BlockLang.Proofs.Eval.Outcome

  What computations of a run make of a state.
-/
import BlockLang.Eval.Program
import BlockLang.Proofs.Scope.Valuation

namespace BlockLang

/-- Results with and without a place for want of fuel are the same ones. -/
theorem mapError_inj {α : Type} {a b : Except EvalError α}
    (h : a.mapError Stop.error = b.mapError Stop.error) : a = b := by
  cases a <;> cases b <;> simp_all [Except.mapError]

namespace EvalM

variable {α β : Type}

/-- What a computation makes of a state. -/
def outcome (x : EvalM α) (r : RunState) : Except Stop α × RunState := x r

@[simp] theorem outcome_set (r' r : RunState) :
    (set r' : EvalM PUnit).outcome r = (.ok ⟨⟩, r') := rfl

theorem outcome_bind (x : EvalM α) (f : α → EvalM β) (r : RunState) :
    (x >>= f).outcome r = match x.outcome r with
      | (.ok a, r₁) => (f a).outcome r₁
      | (.error stop, r₁) => (.error stop, r₁) := by
  rcases h : x.outcome r with ⟨a | a, r₁⟩
  · simp only [outcome] at h
    simp [outcome, bind, ExceptT.bind, ExceptT.mk, StateT.bind, ExceptT.bindCont, h]
    rfl
  · simp only [outcome] at h
    simp [outcome, bind, ExceptT.bind, ExceptT.mk, StateT.bind, ExceptT.bindCont, h]

theorem outcome_bind_of_ok {x : EvalM α} {f : α → EvalM β} {r r₁ : RunState} {a : α}
    (h : x.outcome r = (.ok a, r₁)) : (x >>= f).outcome r = (f a).outcome r₁ := by
  rw [outcome_bind, h]

theorem outcome_bind_of_error {x : EvalM α} {f : α → EvalM β} {r : RunState} {stop : Stop}
    (h : (x.outcome r).1 = .error stop) :
    (x >>= f).outcome r = (.error stop, (x.outcome r).2) := by
  rw [outcome_bind]
  rcases hx : x.outcome r with ⟨stop' | a, r₁⟩
  · rw [hx] at h
    obtain rfl := Except.error.inj h
    rfl
  · rw [hx] at h
    cases h

theorem outcome_get_bind (f : RunState → EvalM β) (r : RunState) :
    (get >>= f).outcome r = (f r).outcome r := outcome_bind _ _ _

theorem outcome_withCursor (c : Cursor) (x : EvalM α) (r : RunState) :
    (withCursor c x).outcome r =
      ((x.outcome { r with cursor := c }).1,
        { (x.outcome { r with cursor := c }).2 with cursor := r.cursor }) := rfl

/-- The variables of a method are cleared before a computation and restored after it. -/
theorem outcome_withFreshVariables (m : MethodId) (x : EvalM α) (r : RunState) :
    (withFreshVariables m x).outcome r =
      let owned := (r.scopes.members (.method m)).vars
      let inner := x.outcome { r with scopes := r.scopes.clear owned }
      (inner.1, { inner.2 with scopes := inner.2.scopes.restore r.scopes owned }) := rfl

end EvalM

end BlockLang
