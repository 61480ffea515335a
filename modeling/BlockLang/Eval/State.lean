/-
  BlockLang.Eval.State

  The state of a run, and the smallest steps that change it.
-/
import BlockLang.Eval.Operation
import BlockLang.Scope.Lookup

namespace BlockLang

/-- The state of a run: the table with the current values of the variables, the
    place in the nesting of scopes, and the lines printed so far. -/
structure RunState where
  scopes : ScopeTable
  cursor : Cursor
  output : Array String

/-- Why a computation gives no result. -/
inductive Stop where
  | error (cause : EvalError)
  /-- The fuel did not suffice; with more of it the computation goes on. -/
  | outOfFuel
  deriving DecidableEq

/-- A computation of a run.  The state outlives a stop. -/
abbrev EvalM := ExceptT Stop (StateM RunState)

namespace EvalM

/-- Stops with an error. -/
def fail {α : Type} (cause : EvalError) : EvalM α := throw (.error cause)

/-- The result of an operation. -/
def ofExcept {α : Type} : Except EvalError α → EvalM α
  | .ok a => return a
  | .error cause => fail cause

/-- Computes at another place in the nesting of scopes, and comes back to this one
    whether the computation succeeds or stops. -/
def withCursor {α : Type} (c : Cursor) (act : EvalM α) : EvalM α := fun s =>
  let (result, t) := act { s with cursor := c }
  (result, { t with cursor := s.cursor })

/-- Prints a line. -/
def print (line : String) : EvalM Unit :=
  modify fun s => { s with output := s.output.push line }

/-- What a name yields: the value of a variable, or the name of a method or class. -/
def readName (id : Ident) : EvalM Value := do
  let s ← get
  match s.scopes.resolve id.name s.cursor with
  | some (.var v) =>
    match s.scopes.value? v with
    | some value => return value
    | none => fail (.unassignedVariable id.name id.line)
  | some entity => return .string ((s.scopes.name? entity).getD id.name)
  | none => fail (.scope (.undeclaredName id.name) id.line)

/-- Gives the variable that a name stands for a value, and yields the value. -/
def assign (target : Ident) (value : Value) : EvalM Value := do
  let s ← get
  match s.scopes.resolve target.name s.cursor with
  | some (.var v) =>
    set { s with scopes := s.scopes.setValue v (some value) }
    return value
  | some entity => fail (.scope (.notAssignable entity.kind target.name) target.line)
  | none => fail (.scope (.undeclared .var target.name) target.line)

/-- Fails unless a declaration at this place has made such an entity. -/
def requireDeclared (kind : EntityKind) (name : Ident) : EvalM Nat := do
  let s ← get
  match s.scopes.findDeclared kind name.name s.cursor with
  | some id => return id
  | none => fail (.scope (.undeclared kind name.name) name.line)

/-- Stores arguments in the variables of the patterns that bind them. -/
def bindParameters (frame : Cursor) : List Pattern → List Value → EvalM Unit
  | .binding name :: patterns, value :: values => do
    let s ← get
    match s.scopes.findDeclared .var name.name frame with
    | some v =>
      set { s with scopes := s.scopes.setValue v (some value) }
      bindParameters frame patterns values
    | none => fail (.scope (.undeclared .var name.name) name.line)
  | .value _ :: patterns, _ :: values => bindParameters frame patterns values
  | _, _ => return

/-- Computes while the variables of a method start out unassigned, and puts their
    values back whether the computation succeeds or stops. -/
def withFreshVariables {α : Type} (method : MethodId) (act : EvalM α) : EvalM α := fun s =>
  let owned := (s.scopes.members (.method method)).vars
  let saved := owned.map fun v => (v, s.scopes.value? v)
  let cleared := owned.foldl (fun t v => t.setValue v none) s.scopes
  let (result, t) := act { s with scopes := cleared }
  let restored := saved.foldr (fun (v, value) t => t.setValue v value) t.scopes
  (result, { t with scopes := restored })

/-- Carries out `run` as a body of a method with these arguments. -/
def invoke (body : BodyHead) (arguments : List Value) (run : EvalM Unit) : EvalM Unit := do
  let frame := (← get).scopes.bodyCursor body.method
  withFreshVariables body.method do
    bindParameters frame body.patterns arguments
    withCursor frame run

/-- Repeats a body while a condition holds.  A limit bounds the rounds of the loop;
    it is looked at behind the condition and before the body. -/
def loop (limit : Option Nat) (line : Nat) (condition : EvalM Bool) (body : EvalM Unit) :
    Nat → Nat → EvalM Unit
  | 0, _ => throw .outOfFuel
  | fuel + 1, rounds => do
    if ← condition then
      match limit with
      | some most =>
        if most ≤ rounds then fail (.loopLimitExceeded most line)
        else
          body
          loop limit line condition body fuel (rounds + 1)
      | none =>
        body
        loop limit line condition body fuel (rounds + 1)
    else
      return

end EvalM

end BlockLang
