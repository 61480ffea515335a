/-
  BlockLang.Proofs.Eval.Interpretation

  Runs as compositions of steps.

  A run is put together from a few kinds of steps: names are read, variables assigned,
  lines printed, classes and bodies entered, blocks repeated.  An interpretation says
  what these steps do in some monad; how they follow one another is the same for all
  interpretations.  The runs of `BlockLang.Eval.Program` are one of them, `plain`.

  When the steps of two interpretations are related, so is everything that the two
  carry out (`Related`).  Facts about runs thus need a proof for each kind of step and
  none for each construct of the language.
-/
import BlockLang.Proofs.Eval.Outcome

namespace BlockLang

/-- What the steps of a run do. -/
structure Interpretation (m : Type → Type) where
  fail {α : Type} : EvalError → m α
  outOfFuel {α : Type} : m α
  readName : Ident → m Value
  assign : Ident → Value → m Value
  requireDeclared : EntityKind → Ident → m Nat
  print : Value → m Unit
  /-- Carries out the block of a class. -/
  inClass : ClassId → m Unit → m Unit
  /-- Repeats the body of the loop at a line while its condition holds. -/
  loop : Nat → m Bool → m Unit → m Unit
  implementations : MethodId → m (List BodyId)
  /-- Carries out the block of a body with arguments. -/
  invoke : BodyHead → List Value → m Unit → m Unit

/-- How methods are called in a monad. -/
abbrev Calls (m : Type → Type) := MethodId → Ident → List Value → m Value

/-! ## Carrying out programs -/

namespace Interpretation

section Programs

variable {m : Type → Type} [Monad m]

/-- The result of an operation. -/
def ofExcept (I : Interpretation m) {α : Type} : Except EvalError α → m α
  | .ok a => pure a
  | .error cause => I.fail cause

/-- Calls what a callee stands for. -/
def call (I : Interpretation m) (calls : Calls m) (callee : Callee) (arguments : List Value) :
    m Value :=
  match callee.target, arguments with
  | .builtin .print, [value] => do
    I.print value
    return .null
  | .builtin f, arguments => I.fail (.builtinArity f arguments.length callee.name.line)
  | .method id, arguments => calls id callee.name arguments

mutual

/-- The value of an expression. -/
def expr (I : Interpretation m) (calls : Calls m) : Expr → m Value
  | .assign target value => do
    let v ← I.expr calls value
    I.assign target v
  | .binary level left op right => do
    let a ← I.expr calls left
    let b ← I.expr calls right
    I.ofExcept (level.apply op a b)
  | .unary op operand => do
    let a ← I.expr calls operand
    I.ofExcept (applyUnary op a)
  | .grouping inner => I.expr calls inner
  | .literal value => pure value
  | .name id => I.readName id
  | .call callee arguments => do
    let values ← I.exprs calls arguments
    I.call calls callee values

/-- The values of expressions. -/
def exprs (I : Interpretation m) (calls : Calls m) : List Expr → m (List Value)
  | [] => pure []
  | e :: es => do
    let v ← I.expr calls e
    let vs ← I.exprs calls es
    return v :: vs

end

/-- The truth value of a condition. -/
def condition (I : Interpretation m) (calls : Calls m) (e : Expr) (line : Nat) : m Bool := do
  let value ← I.expr calls e
  match value.asBool? with
  | some b => return b
  | none => I.fail (.nonBooleanCondition value.typeName line)

/-- Whether patterns accept arguments. -/
def accepts (I : Interpretation m) (calls : Calls m) : List Pattern → List Value → m Bool
  | .binding _ :: patterns, _ :: values => I.accepts calls patterns values
  | .value e :: patterns, value :: values => do
    let expected ← I.expr calls e
    if expected.equals value then I.accepts calls patterns values else return false
  | _, _ => return true

/-- The first of some bodies that takes the arguments. -/
def select (I : Interpretation m) (bodies : Array MethodBody) (calls : Calls m)
    (arguments : List Value) : List BodyId → m (Option MethodBody)
  | [] => return none
  | id :: ids => do
    match bodies[id]? with
    | some body =>
      if body.head.patterns.length = arguments.length then
        if ← I.accepts calls body.head.patterns arguments then
          return some body
        else
          I.select bodies calls arguments ids
      else
        I.select bodies calls arguments ids
    | none => I.select bodies calls arguments ids

mutual

/-- Carries out an item. -/
def item (I : Interpretation m) (calls : Calls m) : Item → m Unit
  | .classDecl name body => do
    let id ← I.requireDeclared .cls name
    I.inClass id (I.items calls body)
  | .methodDecl name _ _ => do
    let _ ← I.requireDeclared .method name
  | .varDecl name _ => do
    let _ ← I.requireDeclared .var name
  | .assign target value => do
    let v ← I.expr calls value
    let _ ← I.assign target v
  | .ifThen e body line => do
    if ← I.condition calls e line then
      I.items calls body
  | .whileLoop e body line => I.loop line (I.condition calls e line) (I.items calls body)
  | .methodBody _ _ => pure ()
  | .call callee arguments => do
    let values ← I.exprs calls arguments
    let _ ← I.call calls callee values
  | .expr e => do
    let _ ← I.expr calls e

/-- Carries out items in order. -/
def items (I : Interpretation m) (calls : Calls m) : List Item → m Unit
  | [] => pure ()
  | item :: items => do
    I.item calls item
    I.items calls items

end

/-- Calls of methods whose blocks make the calls `calls`. -/
def enter (I : Interpretation m) (bodies : Array MethodBody) (calls : Calls m) : Calls m :=
  fun method name arguments => do
    let ids ← I.implementations method
    match ← I.select bodies calls arguments ids with
    | some body =>
      I.invoke body.head arguments (I.items calls body.block)
      return .null
    | none => I.fail (.noMatchingImplementation name.name arguments name.line)

end Programs

/-- Calls of methods, at most `fuel` inside one another; the steps may depend on the
    fuel as well. -/
def calls {m : Type → Type} [Monad m] (I : Nat → Interpretation m) (bodies : Array MethodBody) :
    Nat → Calls m
  | 0 => fun _ _ _ => (I 0).outOfFuel
  | fuel + 1 => (I fuel).enter bodies (calls I bodies fuel)

/-! ## Runs as they are -/

/-- The steps of a run with a limit on the rounds of loops. -/
def plain (limit : Option Nat) (fuel : Nat) : Interpretation EvalM where
  fail := EvalM.fail
  outOfFuel := throw .outOfFuel
  readName := EvalM.readName
  assign := EvalM.assign
  requireDeclared := EvalM.requireDeclared
  print value := EvalM.print value.text
  inClass id block := EvalM.withCursor (.inClass id) block
  loop line condition body := EvalM.loop limit line condition body fuel 0
  implementations method := do return (← get).scopes.implementations method
  invoke := EvalM.invoke

section Plain

variable (limit : Option Nat) (fuel : Nat) (d : Dispatch)

theorem plain_ofExcept {α : Type} (result : Except EvalError α) :
    (plain limit fuel).ofExcept result = EvalM.ofExcept result := by
  cases result <;> rfl

mutual

theorem plain_expr : ∀ e, (plain limit fuel).expr d e = evalExpr d e
  | .assign target value => by
      rw [expr, evalExpr, plain_expr value]
      rfl
  | .binary level left op right => by
      rw [expr, evalExpr, plain_expr left, plain_expr right]
      simp only [plain_ofExcept]
  | .unary op operand => by
      rw [expr, evalExpr, plain_expr operand]
      simp only [plain_ofExcept]
  | .grouping inner => by rw [expr, evalExpr, plain_expr inner]
  | .literal value => rfl
  | .name id => rfl
  | .call callee arguments => by
      rw [expr, evalExpr, plain_exprs arguments]
      rfl

theorem plain_exprs : ∀ es, (plain limit fuel).exprs d es = evalExprs d es
  | [] => rfl
  | e :: es => by rw [exprs, evalExprs, plain_expr e, plain_exprs es]

end

theorem plain_condition (e : Expr) (line : Nat) :
    (plain limit fuel).condition d e line = evalCondition d e line := by
  rw [condition, evalCondition, plain_expr]
  rfl

theorem plain_accepts (patterns : List Pattern) (values : List Value) :
    (plain limit fuel).accepts d patterns values = patternsAccept d patterns values := by
  induction patterns generalizing values with
  | nil => rfl
  | cons p patterns ih =>
      cases values with
      | nil => cases p <;> rfl
      | cons value values =>
          cases p with
          | binding name => exact ih values
          | value e => rw [accepts, patternsAccept, plain_expr, ih]

theorem plain_select (bodies : Array MethodBody) (arguments : List Value) (ids : List BodyId) :
    (plain limit fuel).select bodies d arguments ids = selectBody bodies d arguments ids := by
  induction ids with
  | nil => rfl
  | cons id ids ih =>
      rw [select, selectBody, ih]
      cases bodies[id]? with
      | none => rfl
      | some body =>
          dsimp only
          rw [plain_accepts]

mutual

theorem plain_item : ∀ i, (plain limit fuel).item d i = execItem limit fuel d i
  | .classDecl name body => by
      rw [item, execItem, plain_items body]
      rfl
  | .methodDecl _ _ _ => rfl
  | .varDecl _ _ => rfl
  | .assign target value => by
      rw [item, execItem, plain_expr]
      rfl
  | .ifThen e body line => by rw [item, execItem, plain_condition, plain_items body]
  | .whileLoop e body line => by
      rw [item, execItem, plain_condition, plain_items body]
      rfl
  | .methodBody _ _ => rfl
  | .call callee arguments => by
      rw [item, execItem, plain_exprs]
      rfl
  | .expr e => by rw [item, execItem, plain_expr]

theorem plain_items : ∀ is, (plain limit fuel).items d is = execItems limit fuel d is
  | [] => rfl
  | i :: is => by rw [items, execItems, plain_item i, plain_items is]

end

end Plain

theorem plain_calls (p : Executable) (fuel : Nat) :
    calls (plain p.limit) p.bodies fuel = p.dispatch fuel := by
  induction fuel with
  | zero => rfl
  | succ fuel ih =>
      funext method name arguments
      rw [calls, ih, enter]
      simp only [plain_select, plain_items]
      rfl

/-! ## Related interpretations -/

/-- The steps of two interpretations are related, and the relation holds of what is put
    together from related computations. -/
structure Related {m n : Type → Type} [Monad m] [Monad n] (R : (α : Type) → m α → n α → Prop)
    (I : Interpretation m) (J : Interpretation n) : Prop where
  pure {α : Type} (a : α) : R α (pure a) (pure a)
  bind {α β : Type} {x : m α} {y : n α} {f : α → m β} {g : α → n β} :
    R α x y → (∀ a, R β (f a) (g a)) → R β (x >>= f) (y >>= g)
  fail {α : Type} (cause : EvalError) : R α (I.fail cause) (J.fail cause)
  readName (id : Ident) : R Value (I.readName id) (J.readName id)
  assign (target : Ident) (value : Value) : R Value (I.assign target value) (J.assign target value)
  requireDeclared (kind : EntityKind) (name : Ident) :
    R Nat (I.requireDeclared kind name) (J.requireDeclared kind name)
  print (value : Value) : R Unit (I.print value) (J.print value)
  inClass (id : ClassId) {x : m Unit} {y : n Unit} :
    R Unit x y → R Unit (I.inClass id x) (J.inClass id y)
  loop (line : Nat) {x : m Bool} {y : n Bool} {x' : m Unit} {y' : n Unit} :
    R Bool x y → R Unit x' y' → R Unit (I.loop line x x') (J.loop line y y')
  implementations (method : MethodId) :
    R (List BodyId) (I.implementations method) (J.implementations method)
  invoke (head : BodyHead) (arguments : List Value) {x : m Unit} {y : n Unit} :
    R Unit x y → R Unit (I.invoke head arguments x) (J.invoke head arguments y)

/-- Calls with the same arguments are related. -/
def RelatedCalls {m n : Type → Type} (R : (α : Type) → m α → n α → Prop) (c : Calls m)
    (d : Calls n) : Prop :=
  ∀ method name arguments, R Value (c method name arguments) (d method name arguments)

namespace Related

variable {m n : Type → Type} [Monad m] [Monad n] {R : (α : Type) → m α → n α → Prop}
  {I : Interpretation m} {J : Interpretation n} (h : Related R I J)
include h

theorem ofExcept {α : Type} (result : Except EvalError α) :
    R α (I.ofExcept result) (J.ofExcept result) := by
  cases result with
  | ok a => exact h.pure a
  | error cause => exact h.fail cause

/-- A computation whose result is dropped. -/
theorem discard {α : Type} {x : m α} {y : n α} (hx : R α x y) :
    R Unit (do let _ ← x) (do let _ ← y) := h.bind hx fun _ => h.pure ()

variable {c : Calls m} {d : Calls n}

theorem call (hc : RelatedCalls R c d) (callee : Callee) (arguments : List Value) :
    R Value (I.call c callee arguments) (J.call d callee arguments) := by
  unfold Interpretation.call
  split
  · exact h.bind (h.print _) fun _ => h.pure _
  · exact h.fail _
  · exact hc _ _ _

mutual

theorem expr (hc : RelatedCalls R c d) : ∀ e, R Value (I.expr c e) (J.expr d e)
  | .assign target value => by
      rw [Interpretation.expr, Interpretation.expr]
      exact h.bind (expr hc value) fun v => h.assign target v
  | .binary level left op right => by
      rw [Interpretation.expr, Interpretation.expr]
      exact h.bind (expr hc left) fun a => h.bind (expr hc right) fun b => h.ofExcept _
  | .unary op operand => by
      rw [Interpretation.expr, Interpretation.expr]
      exact h.bind (expr hc operand) fun a => h.ofExcept _
  | .grouping inner => by
      rw [Interpretation.expr, Interpretation.expr]
      exact expr hc inner
  | .literal value => by
      rw [Interpretation.expr, Interpretation.expr]
      exact h.pure value
  | .name id => by
      rw [Interpretation.expr, Interpretation.expr]
      exact h.readName id
  | .call callee arguments => by
      rw [Interpretation.expr, Interpretation.expr]
      exact h.bind (exprs hc arguments) fun values => h.call hc callee values

theorem exprs (hc : RelatedCalls R c d) : ∀ es, R (List Value) (I.exprs c es) (J.exprs d es)
  | [] => by
      rw [Interpretation.exprs, Interpretation.exprs]
      exact h.pure []
  | e :: es => by
      rw [Interpretation.exprs, Interpretation.exprs]
      exact h.bind (expr hc e) fun v => h.bind (exprs hc es) fun vs => h.pure (v :: vs)

end

theorem condition (hc : RelatedCalls R c d) (e : Expr) (line : Nat) :
    R Bool (I.condition c e line) (J.condition d e line) := by
  apply h.bind (h.expr hc e)
  intro value
  split
  · exact h.pure _
  · exact h.fail _

theorem accepts (hc : RelatedCalls R c d) (patterns : List Pattern) (values : List Value) :
    R Bool (I.accepts c patterns values) (J.accepts d patterns values) := by
  induction patterns generalizing values with
  | nil => exact h.pure true
  | cons p patterns ih =>
      cases values with
      | nil => cases p <;> exact h.pure true
      | cons value values =>
          cases p with
          | binding name => exact ih values
          | value e =>
              apply h.bind (h.expr hc e)
              intro expected
              split
              · exact ih values
              · exact h.pure false

theorem select (hc : RelatedCalls R c d) (bodies : Array MethodBody) (arguments : List Value)
    (ids : List BodyId) :
    R (Option MethodBody) (I.select bodies c arguments ids) (J.select bodies d arguments ids) := by
  induction ids with
  | nil => exact h.pure none
  | cons id ids ih =>
      rw [Interpretation.select, Interpretation.select]
      split
      · split
        · apply h.bind (h.accepts hc _ arguments)
          intro accepted
          split
          · exact h.pure _
          · exact ih
        · exact ih
      · exact ih

mutual

theorem item (hc : RelatedCalls R c d) : ∀ i, R Unit (I.item c i) (J.item d i)
  | .classDecl name body => by
      rw [Interpretation.item, Interpretation.item]
      exact h.bind (h.requireDeclared .cls name) fun id => h.inClass id (items hc body)
  | .methodDecl name _ _ => by
      rw [Interpretation.item, Interpretation.item]
      exact h.discard (h.requireDeclared .method name)
  | .varDecl name _ => by
      rw [Interpretation.item, Interpretation.item]
      exact h.discard (h.requireDeclared .var name)
  | .assign target value => by
      rw [Interpretation.item, Interpretation.item]
      exact h.bind (h.expr hc value) fun v => h.discard (h.assign target v)
  | .ifThen e body line => by
      rw [Interpretation.item, Interpretation.item]
      apply h.bind (h.condition hc e line)
      intro holds
      split
      · exact items hc body
      · exact h.pure ()
  | .whileLoop e body line => by
      rw [Interpretation.item, Interpretation.item]
      exact h.loop line (h.condition hc e line) (items hc body)
  | .methodBody _ _ => by
      rw [Interpretation.item, Interpretation.item]
      exact h.pure ()
  | .call callee arguments => by
      rw [Interpretation.item, Interpretation.item]
      exact h.bind (h.exprs hc arguments) fun values => h.discard (h.call hc callee values)
  | .expr e => by
      rw [Interpretation.item, Interpretation.item]
      exact h.discard (h.expr hc e)

theorem items (hc : RelatedCalls R c d) : ∀ is, R Unit (I.items c is) (J.items d is)
  | [] => by
      rw [Interpretation.items, Interpretation.items]
      exact h.pure ()
  | i :: is => by
      rw [Interpretation.items, Interpretation.items]
      exact h.bind (item hc i) fun _ => items hc is

end

theorem enter (hc : RelatedCalls R c d) (bodies : Array MethodBody) :
    RelatedCalls R (I.enter bodies c) (J.enter bodies d) := by
  intro method name arguments
  apply h.bind (h.implementations method)
  intro ids
  apply h.bind (h.select hc bodies arguments ids)
  intro chosen
  split
  · exact h.bind (h.invoke _ arguments (h.items hc _)) fun _ => h.pure _
  · exact h.fail _

end Related

/-- With steps that are related for each amount of fuel, calls are related. -/
theorem related_calls {m n : Type → Type} [Monad m] [Monad n]
    {R : (α : Type) → m α → n α → Prop} {I : Nat → Interpretation m} {J : Nat → Interpretation n}
    (h : ∀ fuel, Related R (I fuel) (J fuel))
    (hfuel : R Value (I 0).outOfFuel (J 0).outOfFuel) (bodies : Array MethodBody) (fuel : Nat) :
    RelatedCalls R (calls I bodies fuel) (calls J bodies fuel) := by
  induction fuel with
  | zero => exact fun _ _ _ => hfuel
  | succ fuel ih => exact (h fuel).enter ih bodies

end Interpretation

end BlockLang
