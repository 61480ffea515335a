/-
  BlockLang.Eval.Program

  Carrying out programs.

  Expressions and items are carried out by recursion on the tree.  Calls of methods
  leave the tree, so they are given from outside; `dispatch` ties the knot.  Fuel
  bounds how deep calls stand inside one another and how many rounds a loop takes,
  and nothing else.  A run ends when some amount of fuel suffices for it.
-/
import BlockLang.Eval.State

namespace BlockLang

/-- A program that is ready to run: `bodies` is indexed by the numbers of the
    bodies, and `limit` bounds the rounds of each loop. -/
structure Executable where
  items : List Item
  scopes : ScopeTable
  bodies : Array MethodBody
  limit : Option Nat

/-- How a method is called: the method, the name at the call, and the arguments. -/
abbrev Dispatch := MethodId → Ident → List Value → EvalM Value

/-! ## Expressions -/

/-- Calls what a callee stands for. -/
def callWith (dispatch : Dispatch) (callee : Callee) (arguments : List Value) : EvalM Value :=
  match callee.target, arguments with
  | .builtin .print, [value] => do
    EvalM.print value.text
    return .null
  | .builtin f, arguments => EvalM.fail (.builtinArity f arguments.length callee.name.line)
  | .method id, arguments => dispatch id callee.name arguments

mutual

/-- The value of an expression.  Operands are evaluated from left to right, both of
    them always. -/
def evalExpr (dispatch : Dispatch) : Expr → EvalM Value
  | .assign target value => do
    let v ← evalExpr dispatch value
    EvalM.assign target v
  | .binary level left op right => do
    let a ← evalExpr dispatch left
    let b ← evalExpr dispatch right
    EvalM.ofExcept (level.apply op a b)
  | .unary op operand => do
    let a ← evalExpr dispatch operand
    EvalM.ofExcept (applyUnary op a)
  | .grouping inner => evalExpr dispatch inner
  | .literal value => return value
  | .name id => EvalM.readName id
  | .call callee arguments => do
    let values ← evalExprs dispatch arguments
    callWith dispatch callee values

/-- The values of expressions, from left to right. -/
def evalExprs (dispatch : Dispatch) : List Expr → EvalM (List Value)
  | [] => return []
  | e :: es => do
    let v ← evalExpr dispatch e
    let vs ← evalExprs dispatch es
    return v :: vs

end

/-- The truth value of a condition. -/
def evalCondition (dispatch : Dispatch) (condition : Expr) (line : Nat) : EvalM Bool := do
  let value ← evalExpr dispatch condition
  match value.asBool? with
  | some b => return b
  | none => EvalM.fail (.nonBooleanCondition value.typeName line)

/-! ## Choosing a body -/

/-- Whether patterns accept arguments, from left to right up to the first that does
    not. -/
def patternsAccept (dispatch : Dispatch) : List Pattern → List Value → EvalM Bool
  | .binding _ :: patterns, _ :: values => patternsAccept dispatch patterns values
  | .value e :: patterns, value :: values => do
    let expected ← evalExpr dispatch e
    if expected.equals value then patternsAccept dispatch patterns values else return false
  | _, _ => return true

/-- The first of some bodies that takes the arguments. -/
def selectBody (bodies : Array MethodBody) (dispatch : Dispatch) (arguments : List Value) :
    List BodyId → EvalM (Option MethodBody)
  | [] => return none
  | id :: ids => do
    match bodies[id]? with
    | some body =>
      if body.head.patterns.length = arguments.length then
        if ← patternsAccept dispatch body.head.patterns arguments then
          return some body
        else
          selectBody bodies dispatch arguments ids
      else
        selectBody bodies dispatch arguments ids
    | none => selectBody bodies dispatch arguments ids

/-! ## Items -/

mutual

/-- Carries out an item. -/
def execItem (limit : Option Nat) (fuel : Nat) (dispatch : Dispatch) : Item → EvalM Unit
  | .classDecl name body => do
    let id ← EvalM.requireDeclared .cls name
    EvalM.withCursor (.inClass id) (execItems limit fuel dispatch body)
  | .methodDecl name _ _ => do
    let _ ← EvalM.requireDeclared .method name
  | .varDecl name _ => do
    let _ ← EvalM.requireDeclared .var name
  | .assign target value => do
    let v ← evalExpr dispatch value
    let _ ← EvalM.assign target v
  | .ifThen condition body line => do
    if ← evalCondition dispatch condition line then
      execItems limit fuel dispatch body
  | .whileLoop condition body line =>
    EvalM.loop limit line (evalCondition dispatch condition line)
      (execItems limit fuel dispatch body) fuel 0
  | .methodBody _ _ => return
  | .call callee arguments => do
    let values ← evalExprs dispatch arguments
    let _ ← callWith dispatch callee values
  | .expr e => do
    let _ ← evalExpr dispatch e

/-- Carries out items in order. -/
def execItems (limit : Option Nat) (fuel : Nat) (dispatch : Dispatch) : List Item → EvalM Unit
  | [] => return
  | item :: items => do
    execItem limit fuel dispatch item
    execItems limit fuel dispatch items

end

/-! ## Runs -/

namespace Executable

/-- Calls of methods, at most `fuel` inside one another.  A call yields null. -/
def dispatch (p : Executable) : Nat → Dispatch
  | 0 => fun _ _ _ => throw .outOfFuel
  | fuel + 1 => fun method name arguments => do
    let ids := (← get).scopes.implementations method
    match ← selectBody p.bodies (p.dispatch fuel) arguments ids with
    | some body =>
      EvalM.invoke body.head arguments (execItems p.limit fuel (p.dispatch fuel) body.block)
      return .null
    | none => EvalM.fail (.noMatchingImplementation name.name arguments name.line)

/-- The state in which every run starts. -/
def initial (p : Executable) : RunState := ⟨p.scopes, .global, #[]⟩

/-- A run from the start. -/
def run (p : Executable) (fuel : Nat) : Except Stop Unit × RunState :=
  (execItems p.limit fuel (p.dispatch fuel) p.items).run.run p.initial

end Executable

/-- How a run ends. -/
inductive Outcome where
  | finished (output : String)
  | failed (error : EvalError) (output : String)
  | outOfFuel

/-- How a run with this much fuel ends.  Printed lines are joined by newlines. -/
def Executable.outcome (p : Executable) (fuel : Nat) : Outcome :=
  let (result, s) := p.run fuel
  let output := String.intercalate "\n" s.output.toList
  match result with
  | .ok () => .finished output
  | .error (.error cause) => .failed cause output
  | .error .outOfFuel => .outOfFuel

/-- The bodies of a tree by their numbers, if these are `0`, `1`, …, `count - 1` in
    some order. -/
def indexBodies? (bodies : List MethodBody) (count : Nat) : Option (Array MethodBody) :=
  if bodies.length = count then
    ((List.range count).mapM fun id => bodies.find? (·.head.id == id)).map List.toArray
  else none

/-- Makes a program ready to run, if its tree and its table agree on the bodies. -/
def Parsed.prepare? (p : Parsed) (limit : Option Nat) : Option Executable :=
  (indexBodies? (bodiesOf p.items) p.scopes.bodyCount).map fun bodies =>
    ⟨p.items, p.scopes, bodies, limit⟩

end BlockLang
