/-
  BlockLang.Proofs.ExactIntegers

  Integer expressions evaluate exactly.

  The exact value of an expression of integer literals, arithmetic, negation and parentheses
  is told over the integers without bounds (`Expr.exactValue?`).  Evaluation ends with one part of
  the expression after the other, operands in front of operators and left in front of right
  (`Expr.postorder`).  As long as these parts have exact values that fit in 64 bits with
  sign, evaluation computes those; the first part that has none stops it with an error of
  its own (`StopsAtFirst`).
-/
import BlockLang.Proofs.Eval.Stateless

namespace BlockLang

/-! ## Exact values -/

/-- The operators of arithmetic: addition, subtraction, multiplication and division. -/
def arithmeticOperators : List TokenKind := [.plus, .minus, .star, .slash]

/-- The exact result of arithmetic.  Division drops the fraction, and by zero there is none. -/
def Operator.exactValue? (op : Operator) (a b : Int) : Option Int :=
  match op.kind with
  | .plus => some (a + b)
  | .minus => some (a - b)
  | .star => some (a * b)
  | .slash => if b = 0 then none else some (a.tdiv b)
  | _ => none

/-- Whether a number fits in 64 bits with sign. -/
def FitsInteger (v : Int) : Prop := -9223372036854775808 ≤ v ∧ v ≤ 9223372036854775807

instance (v : Int) : Decidable (FitsInteger v) :=
  inferInstanceAs (Decidable (-9223372036854775808 ≤ v ∧ v ≤ 9223372036854775807))

namespace Expr

/-- Expressions of integer literals, arithmetic, negation and parentheses. -/
inductive IntegerBuilt : Expr → Prop where
  | literal (n : Int64) : IntegerBuilt (.literal (.integer n))
  | binary {level : Level} {left right : Expr} {op : Operator} :
      level = .addition ∨ level = .multiplication → op.kind ∈ arithmeticOperators →
      IntegerBuilt left → IntegerBuilt right → IntegerBuilt (.binary level left op right)
  | negation {op : Operator} {operand : Expr} : op.kind = .minus → IntegerBuilt operand →
      IntegerBuilt (.unary op operand)
  | grouping {inner : Expr} : IntegerBuilt inner → IntegerBuilt (.grouping inner)

/-- The exact value of an expression of integers, unless a divisor in it is zero. -/
def exactValue? : Expr → Option Int
  | literal (.integer n) => some n.toInt
  | binary _ left op right => do op.exactValue? (← left.exactValue?) (← right.exactValue?)
  | unary _ operand => do return -(← operand.exactValue?)
  | grouping inner => inner.exactValue?
  | _ => none

/-- The parts of an expression in the order in which evaluation ends with them. -/
def postorder : Expr → List Expr
  | binary level left op right =>
    left.postorder ++ (right.postorder ++ [binary level left op right])
  | unary op operand => operand.postorder ++ [unary op operand]
  | grouping inner => inner.postorder ++ [grouping inner]
  | e => [e]

/-- Whether an expression has an exact value, and the value fits. -/
def Representable (e : Expr) : Prop := ∃ v, e.exactValue? = some v ∧ FitsInteger v

instance : DecidablePred Representable := fun e =>
  match h : e.exactValue? with
  | some v => decidable_of_iff (FitsInteger v) (by simp [Representable, h])
  | none => isFalse (by simp [Representable, h])

/-- Whether an expression is a division by zero. -/
def DividesByZero : Expr → Prop
  | binary _ _ op right => op.kind = .slash ∧ right.exactValue? = some 0
  | _ => False

instance : DecidablePred DividesByZero
  | binary _ _ op right =>
      inferInstanceAs (Decidable (op.kind = .slash ∧ right.exactValue? = some 0))
  | assign .. | unary .. | grouping _ | literal _ | name _ | call .. =>
    inferInstanceAs (Decidable False)

/-- The error of a part that is not representable though its operands are. -/
def failure? (e : Expr) : Option EvalError :=
  match e with
  | binary _ _ op _ =>
    if e.DividesByZero then some (.divisionByZero op.line)
    else some (.integerOverflow op.lexeme op.line)
  | unary op _ => some (.integerOverflow op.lexeme op.line)
  | _ => none

/-- A division by zero has no exact value. -/
theorem DividesByZero.not_representable {e : Expr} (h : e.DividesByZero) :
    ¬e.Representable := by
  cases e with
  | binary level left op right =>
      rintro ⟨v, hv, -⟩
      obtain ⟨hop, hzero⟩ := h
      simp [exactValue?, hzero, Operator.exactValue?, hop] at hv
  | _ => exact h.elim

end Expr

/-- The first of some parts that is not representable fails with this error. -/
def StopsAtFirst (parts : List Expr) (cause : EvalError) : Prop :=
  ∃ part, parts.find? (fun p => ¬p.Representable) = some part ∧ part.failure? = some cause

namespace StopsAtFirst

variable {parts parts' : List Expr} {cause : EvalError}

theorem not_forall (h : StopsAtFirst parts cause) : ¬∀ p ∈ parts, p.Representable := by
  obtain ⟨part, hfind, -⟩ := h
  have hpart : ¬part.Representable := by simpa using List.find?_some hfind
  exact fun hall => hpart (hall part (List.mem_of_find?_eq_some hfind))

theorem append_right (h : StopsAtFirst parts cause) (parts' : List Expr) :
    StopsAtFirst (parts ++ parts') cause := by
  obtain ⟨part, hfind, hcause⟩ := h
  exact ⟨part, by rw [List.find?_append, hfind]; rfl, hcause⟩

theorem append_left (hparts : ∀ p ∈ parts, p.Representable) (h : StopsAtFirst parts' cause) :
    StopsAtFirst (parts ++ parts') cause := by
  obtain ⟨part, hfind, hcause⟩ := h
  have hnone : parts.find? (fun p => ¬p.Representable) = none :=
    List.find?_eq_none.mpr fun p hp => by simpa using hparts p hp
  exact ⟨part, by rw [List.find?_append, hnone]; exact hfind, hcause⟩

theorem singleton {e : Expr} (he : ¬e.Representable) (hcause : e.failure? = some cause) :
    StopsAtFirst [e] cause :=
  ⟨e, List.find?_cons_of_pos (decide_eq_true he), hcause⟩

end StopsAtFirst

/-! ## Operators -/

theorem fitsInteger_toInt (n : Int64) : FitsInteger n.toInt :=
  ⟨n.le_toInt, Int.le_sub_one_of_lt n.toInt_lt⟩

theorem fitsInteger_iff (v : Int) : FitsInteger v ↔ minInteger ≤ v ∧ v ≤ maxInteger := by
  have hbounds : minInteger = -9223372036854775808 ∧ maxInteger = 9223372036854775807 := by decide
  rw [hbounds.1, hbounds.2, FitsInteger]

/-- An operator computes its exact result if that fits. -/
theorem exactInteger_cases (op : Operator) (v : Int) :
    (∃ n : Int64, n.toInt = v ∧ exactInteger op v = .ok (.integer n)) ∨
      ¬FitsInteger v ∧ exactInteger op v = .error op.overflow := by
  by_cases hv : FitsInteger v
  · have hsome : integerOf? v = some (Int64.ofInt v) := if_pos ((fitsInteger_iff v).mp hv)
    rw [exactInteger, hsome]
    exact .inl ⟨_, Int64.toInt_ofInt_of_le hv.1 (Int.lt_of_le_sub_one hv.2), rfl⟩
  · have hnone : integerOf? v = none := if_neg (mt (fitsInteger_iff v).mpr hv)
    rw [exactInteger, hnone]
    exact .inr ⟨hv, rfl⟩

/-- Arithmetic on integers computes the exact result, unless it divides by zero. -/
theorem applyIntegers_cases {op : Operator} (hop : op.kind ∈ arithmeticOperators) (m n : Int64) :
    (op.kind = .slash ∧ n.toInt = 0) ∧ applyIntegers op m n = .error (.divisionByZero op.line) ∨
      ¬(op.kind = .slash ∧ n.toInt = 0) ∧
        ∃ v, op.exactValue? m.toInt n.toInt = some v ∧
          applyIntegers op m n = exactInteger op v := by
  simp only [arithmeticOperators, List.mem_cons, List.not_mem_nil, or_false] at hop
  unfold applyIntegers Operator.exactValue?
  rcases hop with hop | hop | hop | hop
  · simp [hop]
  · simp [hop]
  · simp [hop]
  · by_cases hzero : n.toInt = 0 <;> simp [hop, hzero]

/-! ## Evaluation -/

theorem Expr.representable_of_eq {e : Expr} {n : Int64} (h : e.exactValue? = some n.toInt) :
    e.Representable := ⟨n.toInt, h, fitsInteger_toInt n⟩

/-- What an expression comes to when its operands have their exact values. -/
inductive Resolves (e : Expr) : Except EvalError Value → Prop where
  | value {n : Int64} : e.exactValue? = some n.toInt → Resolves e (.ok (.integer n))
  | failure {cause : EvalError} : ¬e.Representable → e.failure? = some cause →
      Resolves e (.error cause)

/-- An operator that computes its exact result, or overflows. -/
theorem Resolves.exactInteger {e : Expr} {v : Int} {op : Operator} (hexact : e.exactValue? = some v)
    (hfailure : e.failure? = some op.overflow) : Resolves e (exactInteger op v) := by
  rcases exactInteger_cases op v with ⟨n, rfl, hok⟩ | ⟨hno, herror⟩
  · rw [hok]
    exact .value hexact
  · rw [herror]
    refine .failure ?_ hfailure
    rintro ⟨w, hw, hfits⟩
    cases hexact.symm.trans hw
    exact hno hfits

/-- What an expression of integers evaluates to: its exact value if all parts are
    representable, and else the error of the first one that is not. -/
inductive EvaluatesExactly (e : Expr) : Prop where
  | value {n : Int64} : e.exactValue? = some n.toInt → (∀ part ∈ e.postorder, part.Representable) →
      e.Evaluates (.ok (.integer n)) → EvaluatesExactly e
  | stop {cause : EvalError} : StopsAtFirst e.postorder cause → e.Evaluates (.error cause) →
      EvaluatesExactly e

namespace EvaluatesExactly

variable {e left right : Expr} {op : Operator}

/-- Evaluation ends with the whole expression behind all its other parts. -/
theorem of_resolves {parts : List Expr} (hpostorder : e.postorder = parts ++ [e])
    (hparts : ∀ p ∈ parts, p.Representable) {result : Except EvalError Value}
    (hresult : Resolves e result) (heval : e.Evaluates result) : EvaluatesExactly e := by
  cases hresult with
  | value hn =>
      refine .value hn ?_ heval
      rw [hpostorder]
      exact List.forall_mem_append.mpr
        ⟨hparts, List.forall_mem_singleton.mpr (Expr.representable_of_eq hn)⟩
  | failure hno hcause =>
      refine .stop ?_ heval
      rw [hpostorder]
      exact .append_left hparts (.singleton hno hcause)

theorem grouping (h : EvaluatesExactly e) : EvaluatesExactly (.grouping e) := by
  cases h with
  | value hn hparts heval => exact .of_resolves rfl hparts (.value hn) heval.grouping
  | stop hstop heval => exact .stop (hstop.append_right _) heval.grouping

theorem negation (hop : op.kind = .minus) (h : EvaluatesExactly e) :
    EvaluatesExactly (.unary op e) := by
  cases h with
  | stop hstop heval => exact .stop (hstop.append_right _) (heval.unary_error op)
  | @value n hn hparts heval =>
      have hexact : (Expr.unary op e).exactValue? = some (-n.toInt) := by
        simp [Expr.exactValue?, hn]
      have happly : applyUnary op (.integer n) = exactInteger op (-n.toInt) := by
        simp [applyUnary, hop]
      exact .of_resolves rfl hparts (happly ▸ .exactInteger hexact rfl) (heval.unary op)

/-- Arithmetic between operands that have their exact values. -/
theorem resolves_binary {level : Level} (hop : op.kind ∈ arithmeticOperators) {m n : Int64}
    (hm : left.exactValue? = some m.toInt) (hn : right.exactValue? = some n.toInt) :
    Resolves (.binary level left op right) (applyIntegers op m n) := by
  have hexact : (Expr.binary level left op right).exactValue? = op.exactValue? m.toInt n.toInt := by
    simp [Expr.exactValue?, hm, hn]
  have hzero : (Expr.binary level left op right).DividesByZero ↔
      op.kind = .slash ∧ n.toInt = 0 := by
    simp [Expr.DividesByZero, hn]
  rcases applyIntegers_cases hop m n with ⟨hdiv, herror⟩ | ⟨hdiv, v, hv, hstep⟩
  · rw [herror]
    exact .failure (hzero.mpr hdiv).not_representable (if_pos (hzero.mpr hdiv))
  · rw [hstep]
    exact .exactInteger (hexact.trans hv) (if_neg (mt hzero.mp hdiv))

theorem binary {level : Level} (hlevel : level = .addition ∨ level = .multiplication)
    (hop : op.kind ∈ arithmeticOperators) (hleft : EvaluatesExactly left)
    (hright : EvaluatesExactly right) : EvaluatesExactly (.binary level left op right) := by
  -- The operands are evaluated in order, and an error in one of them ends it.
  cases hleft with
  | stop hstop heval => exact .stop (hstop.append_right _) (heval.binary_left_error level op right)
  | @value m hm hparts heval =>
      cases hright with
      | stop hstop heval' =>
          exact .stop (.append_left hparts (hstop.append_right _))
            (heval.binary_right_error heval' level op)
      | @value n hn hparts' heval' =>
          have happly : level.apply op (.integer m) (.integer n) = applyIntegers op m n := by
            rcases hlevel with rfl | rfl <;> rfl
          exact .of_resolves (List.append_assoc ..).symm
            (List.forall_mem_append.mpr ⟨hparts, hparts'⟩) (happly ▸ resolves_binary hop hm hn)
            (heval.binary heval' level op)

end EvaluatesExactly

theorem Expr.IntegerBuilt.evaluatesExactly {e : Expr} (h : e.IntegerBuilt) :
    EvaluatesExactly e := by
  induction h with
  | literal n =>
      have hpostorder : (Expr.literal (.integer n)).postorder = [] ++ [.literal (.integer n)] := rfl
      exact .of_resolves hpostorder (List.forall_mem_nil _) (.value rfl) (.literal _)
  | binary hlevel hop _ _ ihleft ihright => exact .binary hlevel hop ihleft ihright
  | negation hop _ ih => exact .negation hop ih
  | grouping _ ih => exact ih.grouping

/-- Whatever the state, an expression of integers evaluates to its exact value and leaves the
    state as it is, exactly when the exact values of all its parts fit in 64 bits with sign
    and no divisor is zero.  Otherwise it fails with the error of the first part that is not
    so, in the order of evaluation. -/
theorem integers_evaluate_exactly {e : Expr} (he : e.IntegerBuilt) :
    ((∃ n : Int64, e.exactValue? = some n.toInt ∧ e.Evaluates (.ok (.integer n))) ↔
        ∀ part ∈ e.postorder, part.Representable ∧ ¬part.DividesByZero) ∧
      ((¬∀ part ∈ e.postorder, part.Representable ∧ ¬part.DividesByZero) →
        ∃ cause, StopsAtFirst e.postorder cause ∧ e.Evaluates (.error cause)) := by
  -- A representable part is no division by zero.
  have hsound : (∀ part ∈ e.postorder, part.Representable ∧ ¬part.DividesByZero) ↔
      ∀ part ∈ e.postorder, part.Representable :=
    forall₂_congr fun part _ =>
      ⟨And.left, fun hpart => ⟨hpart, fun hdivides => hdivides.not_representable hpart⟩⟩
  rw [hsound]
  cases he.evaluatesExactly with
  | @value n hn hparts heval => exact ⟨⟨fun _ => hparts, fun _ => ⟨n, hn, heval⟩⟩, absurd hparts⟩
  | @stop cause hstop heval =>
      refine ⟨⟨?_, fun hparts => absurd hparts hstop.not_forall⟩, fun _ => ⟨cause, hstop, heval⟩⟩
      rintro ⟨n, -, hn⟩
      cases hn.unique heval

/-- The smallest integer divided by another one. -/
def smallestQuotient (divisor : Expr) : Expr :=
  .binary .multiplication
    (.grouping (.binary .addition
      (.unary ⟨.minus, "-", 1⟩ (.literal (.integer 9223372036854775807))) ⟨.minus, "-", 2⟩
      (.literal (.integer 1)))) ⟨.slash, "/", 3⟩ divisor

theorem integerBuilt_smallestQuotient (n : Int64) :
    (smallestQuotient (.literal (.integer n))).IntegerBuilt :=
  .binary (.inr rfl) (by decide)
    (.grouping (.binary (.inl rfl) (by decide) (.negation rfl (.literal _)) (.literal _)))
    (.literal n)

/-- The smallest integer can be halved, but its opposite does not fit. -/
theorem smallest_quotients_evaluate_exactly :
    (smallestQuotient (.literal (.integer 2))).IntegerBuilt ∧
      (smallestQuotient (.literal (.integer 2))).Evaluates
        (.ok (.integer (-4611686018427387904))) ∧
      (smallestQuotient (.literal (.integer (-1)))).Evaluates (.error (.integerOverflow "/" 3)) ∧
      (smallestQuotient (.literal (.integer 0))).Evaluates (.error (.divisionByZero 3)) := by
  have hbuilt := integerBuilt_smallestQuotient
  obtain ⟨n, hn, hhalf⟩ := (integers_evaluate_exactly (hbuilt 2)).1.mpr (by decide)
  obtain ⟨cause, ⟨part, hpart, hcause⟩, hopposite⟩ :=
    (integers_evaluate_exactly (hbuilt (-1))).2 (by decide)
  obtain ⟨cause', ⟨part', hpart', hcause'⟩, hzero⟩ :=
    (integers_evaluate_exactly (hbuilt 0)).2 (by decide)
  obtain rfl : n = -4611686018427387904 := by
    have hvalue : (smallestQuotient (.literal (.integer 2))).exactValue? =
      some (-4611686018427387904 : Int64).toInt := by decide
    exact Int64.toInt_inj.mp (Option.some.inj (hn.symm.trans hvalue))
  -- All parts in front of the whole quotient are representable.
  obtain rfl : smallestQuotient (.literal (.integer (-1))) = part := by
    refine Option.some.inj (Eq.trans ?_ hpart)
    rfl
  obtain rfl : smallestQuotient (.literal (.integer 0)) = part' := by
    refine Option.some.inj (Eq.trans ?_ hpart')
    rfl
  cases hcause
  cases hcause'
  exact ⟨hbuilt 2, hhalf, hopposite, hzero⟩

end BlockLang
