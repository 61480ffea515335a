/-
  BlockLang.Proofs.Eval.Stateless

  Computations that have nothing to do with the state of a run.

  Literals under operators, signs and parentheses look nothing up and call nothing: they
  evaluate to the same value or error in every state, and leave the state as it is.
-/
import BlockLang.Proofs.Eval.Outcome

namespace BlockLang

/-- Whether a computation has this result in every state and leaves the state as it is. -/
def EvalM.Always {α : Type} (x : EvalM α) (result : Except EvalError α) : Prop :=
  ∀ r, x.outcome r = (result.mapError Stop.error, r)

namespace EvalM.Always

variable {α β : Type} {x : EvalM α} {f : α → EvalM β}

theorem pure (a : α) : (Pure.pure a : EvalM α).Always (.ok a) := fun _ => rfl

theorem ofExcept (result : Except EvalError α) : (EvalM.ofExcept result).Always result := by
  intro r
  cases result <;> rfl

theorem bind {a : α} {result : Except EvalError β} (hx : x.Always (.ok a))
    (hf : (f a).Always result) : (x >>= f).Always result :=
  fun r => (outcome_bind_of_ok (hx r)).trans (hf r)

theorem bind_error {cause : EvalError} (hx : x.Always (.error cause)) :
    (x >>= f).Always (.error cause) := by
  intro r
  rw [outcome_bind, hx r]
  rfl

/-- There is one such result only. -/
theorem unique {a b : Except EvalError α} (ha : x.Always a) (hb : x.Always b) : a = b := by
  have hsame := (ha ⟨.empty, .global, #[]⟩).symm.trans (hb ⟨.empty, .global, #[]⟩)
  exact mapError_inj (congrArg Prod.fst hsame)

end EvalM.Always

/-- Whether an expression evaluates to this value or error whatever the state and the methods
    are, and leaves the state as it is. -/
def Expr.Evaluates (e : Expr) (result : Except EvalError Value) : Prop :=
  ∀ dispatch, (evalExpr dispatch e).Always result

namespace Expr.Evaluates

variable {e left right : Expr} {op : Operator} {cause : EvalError}

theorem literal (v : Value) : (Expr.literal v).Evaluates (.ok v) := fun _ => .pure v

theorem grouping {result : Except EvalError Value} (h : e.Evaluates result) :
    (Expr.grouping e).Evaluates result := h

theorem unary {v : Value} (h : e.Evaluates (.ok v)) (op : Operator) :
    (Expr.unary op e).Evaluates (applyUnary op v) := fun d => (h d).bind (.ofExcept _)

theorem unary_error (h : e.Evaluates (.error cause)) (op : Operator) :
    (Expr.unary op e).Evaluates (.error cause) := fun d => (h d).bind_error

theorem binary {a b : Value} (hleft : left.Evaluates (.ok a)) (hright : right.Evaluates (.ok b))
    (level : Level) (op : Operator) :
    (Expr.binary level left op right).Evaluates (level.apply op a b) :=
  fun d => (hleft d).bind ((hright d).bind (.ofExcept _))

theorem binary_left_error (h : left.Evaluates (.error cause)) (level : Level) (op : Operator)
    (right : Expr) : (Expr.binary level left op right).Evaluates (.error cause) :=
  fun d => (h d).bind_error

theorem binary_right_error {a : Value} (hleft : left.Evaluates (.ok a))
    (hright : right.Evaluates (.error cause)) (level : Level) (op : Operator) :
    (Expr.binary level left op right).Evaluates (.error cause) :=
  fun d => (hleft d).bind (hright d).bind_error

theorem unique {a b : Except EvalError Value} (ha : e.Evaluates a) (hb : e.Evaluates b) : a = b :=
  (ha fun _ _ _ => Pure.pure .null).unique (hb _)

end Expr.Evaluates

end BlockLang
