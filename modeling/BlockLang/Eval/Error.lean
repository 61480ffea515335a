/-
  BlockLang.Eval.Error

  What can go wrong while a program is carried out.
-/
import BlockLang.Tree
import BlockLang.Diagnostic

namespace BlockLang

/-- The groups of operators that are carried out alike. -/
inductive OperationKind where
  | logic
  | equality
  | comparison
  | arithmetic
  | unary
  deriving DecidableEq

/-- The word for a group of operators. -/
def OperationKind.label : OperationKind → String
  | logic => "logic"
  | equality => "equality"
  | comparison => "comparison"
  | arithmetic => "arithmetic"
  | unary => "unary"

/-- What stops a run.  Types of values are given by their names. -/
inductive EvalError where
  | scope (cause : ScopeError) (line : Nat)
  | unassignedVariable (name : String) (line : Nat)
  | invalidOperands (operator : String) (left right : String) (line : Nat)
  | invalidOperand (operator : String) (operand : String) (line : Nat)
  | unknownOperator (kind : OperationKind) (operator : String) (line : Nat)
  | nonBooleanCondition (found : String) (line : Nat)
  | divisionByZero (line : Nat)
  | integerOverflow (operator : String) (line : Nat)
  | noMatchingImplementation (method : String) (arguments : List Value) (line : Nat)
  | loopLimitExceeded (limit : Nat) (line : Nat)
  | builtinArity (f : Builtin) (found : Nat) (line : Nat)
  deriving DecidableEq

namespace EvalError

/-- The line that an error is about. -/
def line : EvalError → Nat
  | scope _ line => line
  | unassignedVariable _ line => line
  | invalidOperands _ _ _ line => line
  | invalidOperand _ _ line => line
  | unknownOperator _ _ line => line
  | nonBooleanCondition _ line => line
  | divisionByZero line => line
  | integerOverflow _ line => line
  | noMatchingImplementation _ _ line => line
  | loopLimitExceeded _ line => line
  | builtinArity _ _ line => line

/-- The wording of an error. -/
def message : EvalError → String
  | scope cause line =>
    let text := cause.message
    s!"{text} at line {line}"
  | unassignedVariable name line =>
    s!"Variable '{name}' is read before it is assigned at line {line}"
  | invalidOperands operator left right line =>
    s!"Operator '{operator}' cannot be applied to {left} and {right} at line {line}"
  | invalidOperand operator operand line =>
    s!"Operator '{operator}' cannot be applied to {operand} at line {line}"
  | unknownOperator kind operator line =>
    let label := kind.label
    s!"Unknown {label} operator '{operator}' at line {line}"
  | nonBooleanCondition found line =>
    s!"Condition must be a boolean, got {found} at line {line}"
  | divisionByZero line => s!"Division by zero at line {line}"
  | integerOverflow operator line => s!"Integer overflow in '{operator}' at line {line}"
  | noMatchingImplementation method arguments line =>
    let texts := String.intercalate ", " (arguments.map Value.literalText)
    s!"No implementation of '{method}' matches arguments ({texts}) at line {line}"
  | loopLimitExceeded limit line => s!"Loop exceeded {limit} iterations at line {line}"
  | builtinArity f found line =>
    let name := f.name
    let expected := f.arity
    s!"Built-in '{name}' expected {expected} arguments, got {found} at line {line}"

/-- The diagnostic of an error. -/
def diagnostic (e : EvalError) : Diagnostic :=
  let kind := match e with
    | scope .. => DiagnosticKind.scope
    | _ => .eval
  ⟨kind, e.message, some e.line⟩

end EvalError

end BlockLang
