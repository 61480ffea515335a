/-
  BlockLang.Proofs.Eval.Layout

  Runs do not depend on lines.

  Lines go into the errors that stop a run and into nothing else.  So carrying out a program
  without its lines does the same as carrying out the program itself, step by step, and stops
  with the same error up to its line.
-/
import BlockLang.Proofs.Eval.Outcome
import BlockLang.Proofs.Tree.Lines

namespace BlockLang

/-! ## Errors without their lines -/

/-- An error without its line. -/
def EvalError.unlined : EvalError → EvalError
  | scope cause _ => scope cause 0
  | unassignedVariable name _ => unassignedVariable name 0
  | invalidOperands operator left right _ => invalidOperands operator left right 0
  | invalidOperand operator operand _ => invalidOperand operator operand 0
  | unknownOperator kind operator _ => unknownOperator kind operator 0
  | nonBooleanCondition found _ => nonBooleanCondition found 0
  | divisionByZero _ => divisionByZero 0
  | integerOverflow operator _ => integerOverflow operator 0
  | noMatchingImplementation method arguments _ => noMatchingImplementation method arguments 0
  | loopLimitExceeded limit _ => loopLimitExceeded limit 0
  | builtinArity f found _ => builtinArity f found 0

/-- A stop without the line of its error. -/
def Stop.unlined : Stop → Stop
  | error cause => error cause.unlined
  | outOfFuel => outOfFuel

/-- The end of a run without the line of its error. -/
def Outcome.unlined : Outcome → Outcome
  | finished output => finished output
  | failed cause output => failed cause.unlined output
  | outOfFuel => outOfFuel

namespace EvalM

variable {α β : Type}

/-- A computation that stops without the lines of its errors. -/
def unlined (x : EvalM α) : EvalM α := fun r =>
  ((x.outcome r).1.mapError Stop.unlined, (x.outcome r).2)

theorem outcome_unlined (x : EvalM α) (r : RunState) :
    x.unlined.outcome r = ((x.outcome r).1.mapError Stop.unlined, (x.outcome r).2) := rfl

@[simp] theorem unlined_pure (a : α) : (pure a : EvalM α).unlined = pure a := rfl

@[simp] theorem unlined_get : (get : EvalM RunState).unlined = get := rfl

@[simp] theorem unlined_set (r : RunState) : (set r : EvalM PUnit).unlined = set r := rfl

@[simp] theorem unlined_print (line : String) : (print line).unlined = print line := rfl

@[simp] theorem unlined_fail (e : EvalError) :
    (fail e : EvalM α).unlined = fail e.unlined := rfl

@[simp] theorem unlined_bind (x : EvalM α) (f : α → EvalM β) :
    (x >>= f).unlined = x.unlined >>= fun a => (f a).unlined := by
  funext r
  show (x >>= f).unlined.outcome r = (x.unlined >>= fun a => (f a).unlined).outcome r
  rw [outcome_unlined, outcome_bind, outcome_bind, outcome_unlined]
  rcases x.outcome r with ⟨stop | a, r₁⟩
  · rfl
  · rfl

@[simp] theorem unlined_ite {c : Prop} [Decidable c] (x y : EvalM α) :
    (if c then x else y).unlined = if c then x.unlined else y.unlined := apply_ite unlined c x y

theorem unlined_ofExcept (x : Except EvalError α) :
    (ofExcept x).unlined = ofExcept (x.mapError EvalError.unlined) := by
  cases x <;> rfl

theorem unlined_withCursor (c : Cursor) (x : EvalM α) :
    (withCursor c x).unlined = withCursor c x.unlined := rfl

theorem unlined_withFreshVariables (m : MethodId) (x : EvalM α) :
    (withFreshVariables m x).unlined = withFreshVariables m x.unlined := rfl

/-! ## Single steps -/

theorem readName_unlined (id : Ident) : readName id.unlined = (readName id).unlined := by
  rw [readName, readName, unlined_bind, unlined_get]
  refine bind_congr fun s => ?_
  rw [Ident.unlined_name]
  split
  · split <;> rfl
  · rfl
  · rfl

theorem assign_unlined (target : Ident) (value : Value) :
    assign target.unlined value = (assign target value).unlined := by
  rw [assign, assign, unlined_bind, unlined_get]
  refine bind_congr fun s => ?_
  rw [Ident.unlined_name]
  split
  · rfl
  · rfl
  · rfl

theorem requireDeclared_unlined (kind : EntityKind) (name : Ident) :
    requireDeclared kind name.unlined = (requireDeclared kind name).unlined := by
  rw [requireDeclared, requireDeclared, unlined_bind, unlined_get]
  refine bind_congr fun s => ?_
  rw [Ident.unlined_name]
  split
  · rfl
  · rfl

theorem bindParameters_unlined (frame : Cursor) (patterns : List Pattern) (values : List Value) :
    bindParameters frame (patterns.map Pattern.unlined) values =
      (bindParameters frame patterns values).unlined := by
  induction patterns generalizing values with
  | nil => rfl
  | cons p patterns ih =>
      cases values with
      | nil => cases p <;> rfl
      | cons value values =>
          cases p with
          | value e => exact ih values
          | binding name =>
              rw [List.map_cons, Pattern.unlined, bindParameters, bindParameters, unlined_bind,
                unlined_get]
              refine bind_congr fun s => ?_
              rw [Ident.unlined_name]
              split
              · rw [unlined_bind, unlined_set, ih]
              · rfl

theorem invoke_unlined (head : BodyHead) (arguments : List Value) (run : EvalM Unit) :
    invoke head.unlined arguments run.unlined = (invoke head arguments run).unlined := by
  rw [invoke, invoke, unlined_bind, unlined_get]
  refine bind_congr fun s => ?_
  rw [unlined_withFreshVariables, unlined_bind, unlined_withCursor, ← bindParameters_unlined]
  rfl

theorem loop_unlined (limit : Option Nat) (line : Nat) (condition : EvalM Bool)
    (body : EvalM Unit) (fuel rounds : Nat) :
    loop limit 0 condition.unlined body.unlined fuel rounds =
      (loop limit line condition body fuel rounds).unlined := by
  induction fuel generalizing rounds with
  | zero => rfl
  | succ fuel ih =>
      cases limit with
      | none =>
          rw [loop, loop, unlined_bind]
          refine bind_congr fun goOn => ?_
          rw [unlined_ite, unlined_bind, ih]
          rfl
      | some most =>
          rw [loop, loop, unlined_bind]
          refine bind_congr fun goOn => ?_
          rw [unlined_ite, unlined_ite, unlined_bind, ih]
          rfl

end EvalM

/-! ## Operators -/

section Operators

variable (op : Operator) (left right : Value)

theorem applyLogic_unlined :
    applyLogic op.unlined left right = (applyLogic op left right).mapError EvalError.unlined := by
  unfold applyLogic
  split
  · rw [Operator.unlined_kind]
    split <;> rfl
  · rfl

theorem applyEquality_unlined :
    applyEquality op.unlined left right =
      (applyEquality op left right).mapError EvalError.unlined := by
  unfold applyEquality
  rw [Operator.unlined_kind]
  split <;> rfl

theorem applyComparison_unlined :
    applyComparison op.unlined left right =
      (applyComparison op left right).mapError EvalError.unlined := by
  unfold applyComparison
  split
  · rw [Operator.unlined_kind]
    split <;> rfl
  · rfl

theorem exactInteger_unlined (n : Int) :
    exactInteger op.unlined n = (exactInteger op n).mapError EvalError.unlined := by
  unfold exactInteger
  split <;> rfl

theorem applyArithmetic_unlined :
    applyArithmetic op.unlined left right =
      (applyArithmetic op left right).mapError EvalError.unlined := by
  unfold applyArithmetic
  split
  · unfold applyIntegers
    rw [Operator.unlined_kind]
    split
    · exact exactInteger_unlined op _
    · exact exactInteger_unlined op _
    · exact exactInteger_unlined op _
    · split
      · rfl
      · exact exactInteger_unlined op _
    · rfl
  · unfold applyFloats
    rw [Operator.unlined_kind]
    split <;> rfl
  · rfl

theorem Level.apply_unlined (level : Level) :
    level.apply op.unlined left right =
      (level.apply op left right).mapError EvalError.unlined := by
  cases level with
  | logic => exact applyLogic_unlined op left right
  | equality => exact applyEquality_unlined op left right
  | comparison => exact applyComparison_unlined op left right
  | addition => exact applyArithmetic_unlined op left right
  | multiplication => exact applyArithmetic_unlined op left right

theorem applyUnary_unlined (operand : Value) :
    applyUnary op.unlined operand = (applyUnary op operand).mapError EvalError.unlined := by
  unfold applyUnary
  rw [Operator.unlined_kind]
  split
  · split <;> rfl
  · split
    · exact exactInteger_unlined op _
    · rfl
    · rfl
  · rfl

end Operators

/-! ## Expressions and items -/

open EvalM (unlined_bind unlined_ofExcept unlined_pure)

/-- Two ways to call methods that are the same up to lines. -/
def Dispatch.Unlines (dispatch dispatch' : Dispatch) : Prop :=
  ∀ method name arguments,
    dispatch' method name.unlined arguments = (dispatch method name arguments).unlined

section Tree

variable {dispatch dispatch' : Dispatch}

theorem callWith_unlined (hd : Dispatch.Unlines dispatch dispatch') (callee : Callee)
    (arguments : List Value) :
    callWith dispatch' callee.unlined arguments = (callWith dispatch callee arguments).unlined := by
  obtain ⟨name, target⟩ := callee
  cases target with
  | method id => exact hd id name arguments
  | builtin f =>
      cases f
      rcases arguments with _ | ⟨value, _ | ⟨value', values⟩⟩ <;> rfl

mutual

theorem evalExpr_unlined (hd : Dispatch.Unlines dispatch dispatch') :
    ∀ e, evalExpr dispatch' e.unlined = (evalExpr dispatch e).unlined
  | .assign target value => by
      rw [Expr.unlined, evalExpr, evalExpr, unlined_bind, evalExpr_unlined hd value]
      exact bind_congr fun v => EvalM.assign_unlined target v
  | .binary level left op right => by
      rw [Expr.unlined, evalExpr, evalExpr, unlined_bind, evalExpr_unlined hd left]
      refine bind_congr fun a => ?_
      rw [unlined_bind, evalExpr_unlined hd right]
      refine bind_congr fun b => ?_
      rw [unlined_ofExcept, Level.apply_unlined]
  | .unary op operand => by
      rw [Expr.unlined, evalExpr, evalExpr, unlined_bind, evalExpr_unlined hd operand]
      refine bind_congr fun a => ?_
      rw [unlined_ofExcept, applyUnary_unlined]
  | .grouping inner => by
      rw [Expr.unlined, evalExpr, evalExpr, evalExpr_unlined hd inner]
  | .literal value => rfl
  | .name id => EvalM.readName_unlined id
  | .call callee arguments => by
      rw [Expr.unlined, evalExpr, evalExpr, unlined_bind, evalExprs_unlined hd arguments]
      exact bind_congr fun values => callWith_unlined hd callee values

theorem evalExprs_unlined (hd : Dispatch.Unlines dispatch dispatch') :
    ∀ es, evalExprs dispatch' (unlinedExprs es) = (evalExprs dispatch es).unlined
  | [] => rfl
  | e :: es => by
      rw [unlinedExprs, evalExprs, evalExprs, unlined_bind, evalExpr_unlined hd e]
      refine bind_congr fun v => ?_
      rw [unlined_bind, evalExprs_unlined hd es]
      rfl

end

theorem evalCondition_unlined (hd : Dispatch.Unlines dispatch dispatch') (condition : Expr)
    (line : Nat) :
    evalCondition dispatch' condition.unlined 0 =
      (evalCondition dispatch condition line).unlined := by
  rw [evalCondition, evalCondition, unlined_bind, evalExpr_unlined hd]
  refine bind_congr fun value => ?_
  split <;> rfl

theorem patternsAccept_unlined (hd : Dispatch.Unlines dispatch dispatch')
    (patterns : List Pattern) (values : List Value) :
    patternsAccept dispatch' (patterns.map Pattern.unlined) values =
      (patternsAccept dispatch patterns values).unlined := by
  induction patterns generalizing values with
  | nil => rfl
  | cons p patterns ih =>
      cases values with
      | nil => cases p <;> rfl
      | cons value values =>
          cases p with
          | binding name => exact ih values
          | value e =>
              rw [List.map_cons, Pattern.unlined, patternsAccept, patternsAccept, unlined_bind,
                evalExpr_unlined hd]
              refine bind_congr fun expected => ?_
              rw [EvalM.unlined_ite, ih]
              rfl

theorem selectBody_unlined (hd : Dispatch.Unlines dispatch dispatch')
    (bodies : Array MethodBody) (arguments : List Value) (ids : List BodyId) :
    selectBody (bodies.map MethodBody.unlined) dispatch' arguments ids =
      Option.map MethodBody.unlined <$> (selectBody bodies dispatch arguments ids).unlined := by
  induction ids with
  | nil => rfl
  | cons id ids ih =>
      rw [selectBody, selectBody, Array.getElem?_map]
      cases bodies[id]? with
      | none => exact ih
      | some body =>
          have hlength : body.unlined.head.patterns.length = body.head.patterns.length :=
            List.length_map _
          simp only [Option.map_some]
          rw [hlength]
          by_cases hcount : body.head.patterns.length = arguments.length
          · rw [if_pos hcount, if_pos hcount, unlined_bind, map_bind]
            have haccept := patternsAccept_unlined hd body.head.patterns arguments
            rw [show body.unlined.head.patterns = body.head.patterns.map Pattern.unlined from rfl,
              haccept]
            refine bind_congr fun accepted => ?_
            cases accepted with
            | true => rfl
            | false => exact ih
          · rw [if_neg hcount, if_neg hcount]
            exact ih

mutual

theorem execItem_unlined (hd : Dispatch.Unlines dispatch dispatch')
    (limit : Option Nat) (fuel : Nat) :
    ∀ i, execItem limit fuel dispatch' i.unlined = (execItem limit fuel dispatch i).unlined
  | .classDecl name body => by
      rw [Item.unlined, execItem, execItem, unlined_bind, EvalM.requireDeclared_unlined]
      refine bind_congr fun id => ?_
      rw [execItems_unlined hd limit fuel body]
      rfl
  | .methodDecl name _ _ => by
      rw [Item.unlined, execItem, execItem, unlined_bind, EvalM.requireDeclared_unlined]
      rfl
  | .varDecl name _ => by
      rw [Item.unlined, execItem, execItem, unlined_bind, EvalM.requireDeclared_unlined]
      rfl
  | .assign target value => by
      rw [Item.unlined, execItem, execItem, unlined_bind, evalExpr_unlined hd value]
      refine bind_congr fun v => ?_
      rw [unlined_bind, EvalM.assign_unlined]
      rfl
  | .ifThen condition body line => by
      rw [Item.unlined, execItem, execItem, unlined_bind,
        evalCondition_unlined hd condition line]
      refine bind_congr fun b => ?_
      rw [EvalM.unlined_ite, execItems_unlined hd limit fuel body]
      rfl
  | .whileLoop condition body line => by
      rw [Item.unlined, execItem, execItem, evalCondition_unlined hd condition line,
        execItems_unlined hd limit fuel body]
      exact EvalM.loop_unlined limit line _ _ fuel 0
  | .methodBody _ _ => rfl
  | .call callee arguments => by
      rw [Item.unlined, execItem, execItem, unlined_bind, evalExprs_unlined hd arguments]
      refine bind_congr fun values => ?_
      rw [unlined_bind, callWith_unlined hd]
      rfl
  | .expr e => by
      rw [Item.unlined, execItem, execItem, unlined_bind, evalExpr_unlined hd e]
      rfl

theorem execItems_unlined (hd : Dispatch.Unlines dispatch dispatch')
    (limit : Option Nat) (fuel : Nat) :
    ∀ is, execItems limit fuel dispatch' (unlinedItems is) =
      (execItems limit fuel dispatch is).unlined
  | [] => rfl
  | i :: is => by
      rw [unlinedItems, execItems, execItems, unlined_bind, execItem_unlined hd limit fuel i]
      exact bind_congr fun _ => execItems_unlined hd limit fuel is

end

end Tree

/-! ## Runs -/

namespace Executable

/-- A program that is ready to run, without its lines. -/
def unlined (p : Executable) : Executable :=
  ⟨unlinedItems p.items, p.scopes, p.bodies.map MethodBody.unlined, p.limit⟩

theorem dispatch_unlined (p : Executable) (fuel : Nat) :
    Dispatch.Unlines (p.dispatch fuel) (p.unlined.dispatch fuel) := by
  induction fuel with
  | zero => exact fun _ _ _ => rfl
  | succ fuel ih =>
      intro m name arguments
      rw [dispatch, dispatch, unlined_bind]
      refine bind_congr fun s => ?_
      have hselect := selectBody_unlined ih p.bodies arguments (s.scopes.implementations m)
      rw [show p.unlined.bodies = p.bodies.map MethodBody.unlined from rfl]
      dsimp only
      rw [hselect, unlined_bind, bind_map_left]
      refine bind_congr fun body => ?_
      cases body with
      | none => rfl
      | some body =>
          dsimp only [Option.map_some]
          rw [unlined_bind, ← EvalM.invoke_unlined, ← execItems_unlined ih]
          rfl

theorem outcome_unlined (p : Executable) (fuel : Nat) :
    p.unlined.outcome fuel = (p.outcome fuel).unlined := by
  have hrun : p.unlined.run fuel =
      ((p.run fuel).1.mapError Stop.unlined, (p.run fuel).2) := by
    have hitems := execItems_unlined (p.dispatch_unlined fuel) p.limit fuel p.items
    exact congrFun hitems p.initial
  rw [outcome, outcome, hrun]
  rcases p.run fuel with ⟨stop | _, r⟩
  · cases stop <;> rfl
  · rfl

end Executable

/-! ## Preparing a run -/

mutual

theorem Item.bodies_unlined : ∀ i : Item, i.unlined.bodies = i.bodies.map MethodBody.unlined
  | .classDecl _ body => bodiesOf_unlined body
  | .ifThen _ body _ => bodiesOf_unlined body
  | .whileLoop _ body _ => bodiesOf_unlined body
  | .methodBody head body => by
      rw [Item.unlined, Item.bodies, Item.bodies, bodiesOf_unlined body]
      rfl
  | .methodDecl _ _ _ => rfl
  | .varDecl _ _ => rfl
  | .assign _ _ => rfl
  | .call _ _ => rfl
  | .expr _ => rfl

theorem bodiesOf_unlined :
    ∀ is : List Item, bodiesOf (unlinedItems is) = (bodiesOf is).map MethodBody.unlined
  | [] => rfl
  | i :: is => by
      rw [unlinedItems, bodiesOf, bodiesOf, Item.bodies_unlined i, bodiesOf_unlined is,
        List.map_append]

end

theorem indexBodies?_unlined (bodies : List MethodBody) (count : Nat) :
    indexBodies? (bodies.map MethodBody.unlined) count =
      (indexBodies? bodies count).map (Array.map MethodBody.unlined) := by
  have hfind (id : BodyId) : (bodies.map MethodBody.unlined).find? (·.head.id == id) =
      (bodies.find? (·.head.id == id)).map MethodBody.unlined := List.find?_map
  have hall (ids : List BodyId) :
      (ids.mapM fun id => (bodies.map MethodBody.unlined).find? (·.head.id == id)) =
        (ids.mapM fun id => bodies.find? (·.head.id == id)).map (List.map MethodBody.unlined) := by
    induction ids with
    | nil => rfl
    | cons id ids ih =>
        rw [List.mapM_cons, List.mapM_cons, ih, hfind]
        cases bodies.find? (·.head.id == id) with
        | none => rfl
        | some body =>
            cases ids.mapM fun id => bodies.find? (·.head.id == id) with
            | none => rfl
            | some found => rfl
  rw [indexBodies?, indexBodies?, List.length_map]
  split
  · rw [hall, Option.map_map, Option.map_map]
    congr 1
    funext found
    simp
  · rfl

theorem Parsed.prepare?_unlined (p : Parsed) (limit : Option Nat) :
    p.unlined.prepare? limit = (p.prepare? limit).map Executable.unlined := by
  have hbodies := indexBodies?_unlined (bodiesOf p.items) p.scopes.bodyCount
  rw [← bodiesOf_unlined] at hbodies
  rw [Parsed.prepare?, Parsed.prepare?, Option.map_map]
  show Option.map _ (indexBodies? (bodiesOf (unlinedItems p.items)) p.scopes.bodyCount) = _
  rw [hbodies, Option.map_map]
  rfl

end BlockLang
