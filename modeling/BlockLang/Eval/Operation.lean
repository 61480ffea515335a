/-
  BlockLang.Eval.Operation

  What operators do to values.

  Integers are exact: a result that does not fit in 64 bits with sign is an error.
  When one operand is a float, an integer operand is taken as the nearest float.
-/
import BlockLang.Eval.Error

namespace BlockLang

namespace Operator

/-- The error of an operator between values that it does not take. -/
def invalidOperands (op : Operator) (left right : Value) : EvalError :=
  .invalidOperands op.lexeme left.typeName right.typeName op.line

/-- The error of an operator in front of a value that it does not take. -/
def invalidOperand (op : Operator) (operand : Value) : EvalError :=
  .invalidOperand op.lexeme operand.typeName op.line

/-- The error of an operator that does not belong to its group. -/
def unknown (op : Operator) (kind : OperationKind) : EvalError :=
  .unknownOperator kind op.lexeme op.line

/-- The error of an operator whose result does not fit. -/
def overflow (op : Operator) : EvalError := .integerOverflow op.lexeme op.line

end Operator

/-- The smallest integer. -/
def minInteger : Int := -integerBound

/-- The largest integer. -/
def maxInteger : Int := integerBound - 1

/-- The integer of this value, if it is in range. -/
def integerOf? (n : Int) : Option Int64 :=
  if minInteger ≤ n ∧ n ≤ maxInteger then some (Int64.ofInt n) else none

/-- Two numbers of one type. -/
inductive Numbers where
  | integers (left right : Int64)
  | floats (left right : Float)

namespace Numbers

/-- The numbers that two values are. -/
def of? : Value → Value → Option Numbers
  | .integer m, .integer n => some (.integers m n)
  | .integer m, .float y => some (.floats (Value.toFloat m) y)
  | .float x, .integer n => some (.floats x (Value.toFloat n))
  | .float x, .float y => some (.floats x y)
  | _, _ => none

/-- Whether the first number is smaller. -/
def less : Numbers → Bool
  | integers m n => m < n
  | floats x y => x < y

/-- Whether the first number is smaller or equal. -/
def lessEqual : Numbers → Bool
  | integers m n => m ≤ n
  | floats x y => x ≤ y

/-- The numbers in the other order. -/
def swap : Numbers → Numbers
  | integers m n => integers n m
  | floats x y => floats y x

end Numbers

/-- Conjunction and disjunction. -/
def applyLogic (op : Operator) (left right : Value) : Except EvalError Value :=
  match left.asBool?, right.asBool? with
  | some a, some b =>
    match op.kind with
    | .kwAnd => .ok (.boolean (a && b))
    | .kwOr => .ok (.boolean (a || b))
    | _ => .error (op.unknown .logic)
  | _, _ => .error (op.invalidOperands left right)

/-- Equality and its opposite, between all values. -/
def applyEquality (op : Operator) (left right : Value) : Except EvalError Value :=
  match op.kind with
  | .equalEqual => .ok (.boolean (left.equals right))
  | .bangEqual => .ok (.boolean (!left.equals right))
  | _ => .error (op.unknown .equality)

/-- The order of numbers.  A float that is not a number compares with nothing. -/
def applyComparison (op : Operator) (left right : Value) : Except EvalError Value :=
  match Numbers.of? left right with
  | some numbers =>
    match op.kind with
    | .greater => .ok (.boolean numbers.swap.less)
    | .greaterEqual => .ok (.boolean numbers.swap.lessEqual)
    | .less => .ok (.boolean numbers.less)
    | .lessEqual => .ok (.boolean numbers.lessEqual)
    | _ => .error (op.unknown .comparison)
  | none => .error (op.invalidOperands left right)

/-- The integer result of an operator, or overflow. -/
def exactInteger (op : Operator) (n : Int) : Except EvalError Value :=
  match integerOf? n with
  | some k => .ok (.integer k)
  | none => .error op.overflow

/-- Arithmetic on integers.  Division drops the fraction. -/
def applyIntegers (op : Operator) (m n : Int64) : Except EvalError Value :=
  match op.kind with
  | .plus => exactInteger op (m.toInt + n.toInt)
  | .minus => exactInteger op (m.toInt - n.toInt)
  | .star => exactInteger op (m.toInt * n.toInt)
  | .slash =>
    if n.toInt = 0 then .error (.divisionByZero op.line)
    else exactInteger op (m.toInt.tdiv n.toInt)
  | _ => .error (op.unknown .arithmetic)

/-- Arithmetic on floats. -/
def applyFloats (op : Operator) (x y : Float) : Except EvalError Value :=
  match op.kind with
  | .plus => .ok (.float (x + y))
  | .minus => .ok (.float (x - y))
  | .star => .ok (.float (x * y))
  | .slash => .ok (.float (x / y))
  | _ => .error (op.unknown .arithmetic)

/-- Arithmetic. -/
def applyArithmetic (op : Operator) (left right : Value) : Except EvalError Value :=
  match Numbers.of? left right with
  | some (.integers m n) => applyIntegers op m n
  | some (.floats x y) => applyFloats op x y
  | none => .error (op.invalidOperands left right)

/-- What a binary operator at a level does.  Both levels of arithmetic know all
    four operators. -/
def Level.apply : Level → Operator → Value → Value → Except EvalError Value
  | logic => applyLogic
  | equality => applyEquality
  | comparison => applyComparison
  | addition => applyArithmetic
  | multiplication => applyArithmetic

/-- What a sign does. -/
def applyUnary (op : Operator) (operand : Value) : Except EvalError Value :=
  match op.kind with
  | .bang =>
    match operand.asBool? with
    | some b => .ok (.boolean !b)
    | none => .error (op.invalidOperand operand)
  | .minus =>
    match operand with
    | .integer n => exactInteger op (-n.toInt)
    | .float x => .ok (.float (-x))
    | _ => .error (op.invalidOperand operand)
  | _ => .error (op.unknown .unary)

end BlockLang
