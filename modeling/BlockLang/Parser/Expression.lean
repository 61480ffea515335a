/-
  BlockLang.Parser.Expression

  Reading expressions.

  An expression is an assignment or operands joined by binary operators; every
  level of operators groups to the left and binds tighter than the one before it.
  Signs bind tighter than all of them.

  Each reader takes a budget.  It bounds how many tokens can still be read, so
  every budget from the number of the remaining tokens on gives the same result.
-/
import BlockLang.Parser.State

namespace BlockLang.ParseM

/-- Reads what follows a first operand: operators of a level, each with an operand. -/
def binaryRest (level : Level) (operand : ParseM Expr) : Nat → Expr → ParseM Expr
  | 0, left => return left
  | budget + 1, left => do
    let t := (← get).current
    if level.operators.contains t.kind then
      let _ ← next
      let right ← operand
      binaryRest level operand budget (.binary level left (.ofToken t) right)
    else
      return left

/-- Reads operands joined by the operators of a level. -/
def binary (budget : Nat) (level : Level) (operand : ParseM Expr) : ParseM Expr := do
  let left ← operand
  binaryRest level operand budget left

/-- Reads the arguments of a call with their parentheses. -/
def arguments (budget : Nat) (nested : ParseM Expr) : ParseM (List Expr) := do
  let _ ← expect .leftParen
  let args ← if (← get).check .rightParen then pure [] else separated nested budget
  let _ ← expect .rightParen
  return args

/-- What a token that names the target of a call stands for. -/
def callee (t : Token) : ParseM Callee := do
  if t.kind = .kwPrint then
    return ⟨.ofToken t, .builtin .print⟩
  else
    let s ← get
    match s.scopes.resolveMethod t.lexeme s.cursor with
    | some id => return ⟨.ofToken t, .method id⟩
    | none => throw (.scope (.undeclared .method t.lexeme) t.line)

/-- Reads a call. -/
def call (budget : Nat) (nested : ParseM Expr) : ParseM (Callee × List Expr) := do
  let target ← callee (← next)
  let args ← arguments budget nested
  return (target, args)

/-- Fails unless a name stands for a variable. -/
def requireVariable (name : Ident) : ParseM Unit := do
  let s ← get
  match s.scopes.resolve name.name s.cursor with
  | some (.var _) => return
  | some entity => throw (.scope (.notAssignable entity.kind name.name) name.line)
  | none => throw (.scope (.undeclared .var name.name) name.line)

/-- Reads an assignment. -/
def assignment (nested : ParseM Expr) : ParseM (Ident × Expr) := do
  let target := Ident.ofToken (← next)
  requireVariable target
  let _ ← expect .equal
  let value ← nested
  return (target, value)

/-- Reads a literal. -/
def literal : ParseM Expr := do
  let t ← next
  match t.literal with
  | some value => return .literal value
  | none => throw (.expectedExpression t.describe t.line)

/-- Reads a name, which has to stand for something. -/
def nameUse : ParseM Expr := do
  let name := Ident.ofToken (← next)
  let s ← get
  if (s.scopes.resolve name.name s.cursor).isSome then
    return .name name
  else
    throw (.scope (.undeclaredName name.name) name.line)

/-- Reads an expression in parentheses. -/
def grouping (nested : ParseM Expr) : ParseM Expr := do
  let opening ← next
  let inner ← nested
  if ← accept .rightParen then
    return .grouping inner
  else
    throw (.unclosedGrouping opening.line)

/-- Fails because no expression starts here. -/
def noExpression {α : Type} : ParseM α := do
  let t := (← get).current
  throw (.expectedExpression t.describe t.line)

/-- Reads an expression without operators. -/
def primary (budget : Nat) (nested : ParseM Expr) : ParseM Expr := do
  let s ← get
  let beforeParen := (s.peekAt 1).kind = .leftParen
  match s.current.kind with
  | .kwNull | .kwTrue | .kwFalse | .number | .string => literal
  | .identifier =>
    if beforeParen then
      let (target, args) ← call budget nested
      return .call target args
    else
      nameUse
  | .kwPrint =>
    if beforeParen then
      let (target, args) ← call budget nested
      return .call target args
    else
      noExpression
  | .leftParen => grouping nested
  | _ => noExpression

/-- Reads an expression under any number of signs, at most `signs` many. -/
def unary (budget : Nat) (nested : ParseM Expr) : Nat → ParseM Expr
  | 0 => primary budget nested
  | signs + 1 => do
    let t := (← get).current
    if t.kind = .bang || t.kind = .minus then
      let _ ← next
      return .unary (.ofToken t) (← unary budget nested signs)
    else
      primary budget nested

/-- Reads operands joined by binary operators of all levels. -/
def operation (budget : Nat) (nested : ParseM Expr) : ParseM Expr :=
  ([.logic, .equality, .comparison, .addition, .multiplication] : List Level).foldr
    (binary budget) (unary budget nested budget)

/-- Reads an expression, whose inner expressions are read by `nested`. -/
def expressionWith (budget : Nat) (nested : ParseM Expr) : ParseM Expr := do
  let s ← get
  if s.check .identifier && (s.peekAt 1).kind = .equal then
    let (target, value) ← assignment nested
    return .assign target value
  else
    operation budget nested

/-- Reads an expression.  Inner expressions come behind at least one token, so they
    get by with a smaller budget. -/
def expression : Nat → ParseM Expr
  | 0 => noExpression
  | budget + 1 => expressionWith (budget + 1) (expression budget)

end BlockLang.ParseM
