/-
  BlockLang.Proofs.Eval.Stops

  Where runs stop.

  `Visits` describes a run from the outside.  That it leaves nothing out shows when a
  run stops: the stop is always one that a visited phrase causes by itself, in the
  state in which it is visited.
-/
import BlockLang.Proofs.Eval.Visits

namespace BlockLang

/-- A computation of two steps stops in the first or in the second one. -/
theorem EvalM.outcome_bind_error {α β : Type} {y : EvalM α} {f : α → EvalM β} {r : RunState}
    {stop : Stop} (h : ((y >>= f).outcome r).1 = .error stop) :
    (y.outcome r).1 = .error stop ∨
      ∃ a r₁, y.outcome r = (.ok a, r₁) ∧ ((f a).outcome r₁).1 = .error stop := by
  rw [outcome_bind] at h
  rcases hy : y.outcome r with ⟨stop' | a, r₁⟩
  · simp only [hy] at h
    exact .inl (congrArg Except.error (Except.error.inj h))
  · simp only [hy] at h
    exact .inr ⟨a, r₁, rfl, h⟩

namespace Phrase

/-- The kind and the name of what a phrase declares. -/
def declares? : Phrase → Option (EntityKind × Ident)
  | item (.classDecl name _) => some (.cls, name)
  | item (.methodDecl name _ _) => some (.method, name)
  | item (.varDecl name _) => some (.var, name)
  | _ => none

/-- The target and the value of a phrase that is an assignment. -/
def assignment? : Phrase → Option (Ident × Expr)
  | expr (.assign target e) => some (target, e)
  | item (.assign target e) => some (target, e)
  | _ => none

/-- Carrying out a phrase from `r` stops. -/
def Halts (x : Executable) (n : Nat) (r : RunState) (stop : Stop) : Phrase → Prop
  | expr e => ((evalExpr (x.dispatch n) e).outcome r).1 = .error stop
  | arguments es => ((evalExprs (x.dispatch n) es).outcome r).1 = .error stop
  | item i => ((execItem x.limit n (x.dispatch n) i).outcome r).1 = .error stop
  | items is => ((execItems x.limit n (x.dispatch n) is).outcome r).1 = .error stop
  | _ => False

end Phrase

namespace Executable

variable (x : Executable)

/-- A condition is evaluated in a state in which `φ` is carried out from `r`. -/
inductive Tests (n : Nat) : Phrase → RunState → Expr → Nat → RunState → Prop where
  | ifThen {e body line r} : Tests n (.item (.ifThen e body line)) r e line r
  | whileLoop {e body line r k r'} : x.Round n e body line r k r' → k < n →
      Tests n (.item (.whileLoop e body line)) r e line r'

/-- A phrase that is carried out from `r` stops by itself, when all that it comes to
    has succeeded. -/
inductive Stops (n : Nat) (φ : Phrase) (r : RunState) : Stop → Prop where
  | name {id stop} : φ = .expr (.name id) → ((EvalM.readName id).outcome r).1 = .error stop →
      Stops n φ r stop
  | assign {target e v r₁ stop} : φ.assignment? = some (target, e) →
      (evalExpr (x.dispatch n) e).outcome r = (.ok v, r₁) →
      ((EvalM.assign target v).outcome r₁).1 = .error stop → Stops n φ r stop
  | binary {level a op b v r₁ w r₂ e} : φ = .expr (.binary level a op b) →
      (evalExpr (x.dispatch n) a).outcome r = (.ok v, r₁) →
      (evalExpr (x.dispatch n) b).outcome r₁ = (.ok w, r₂) →
      level.apply op v w = .error e → Stops n φ r (.error e)
  | unary {op a v r₁ e} : φ = .expr (.unary op a) →
      (evalExpr (x.dispatch n) a).outcome r = (.ok v, r₁) →
      applyUnary op v = .error e → Stops n φ r (.error e)
  | declaration {kind name stop} : φ.declares? = some (kind, name) →
      ((EvalM.requireDeclared kind name).outcome r).1 = .error stop → Stops n φ r stop
  | condition {e line r₁ v r₂} : x.Tests n φ r e line r₁ →
      (evalExpr (x.dispatch n) e).outcome r₁ = (.ok v, r₂) → v.asBool? = none →
      Stops n φ r (.error (.nonBooleanCondition v.typeName line))
  | rounds {e body line k r₁ r₂ most} : φ = .item (.whileLoop e body line) →
      x.Round n e body line r k r₁ → k < n →
      (evalCondition (x.dispatch n) e line).outcome r₁ = (.ok true, r₂) →
      x.limit = some most → most ≤ k → Stops n φ r (.error (.loopLimitExceeded most line))
  | loopFuel {e body line r₁} : φ = .item (.whileLoop e body line) →
      x.Round n e body line r n r₁ → Stops n φ r .outOfFuel
  | builtin {callee es vs r₁ f} : φ.call? = some (callee, es) → callee.target = .builtin f →
      (evalExprs (x.dispatch n) es).outcome r = (.ok vs, r₁) → vs.length ≠ f.arity →
      Stops n φ r (.error (.builtinArity f vs.length callee.name.line))
  | callFuel {callee es vs r₁ m} : φ.call? = some (callee, es) → callee.target = .method m →
      (evalExprs (x.dispatch n) es).outcome r = (.ok vs, r₁) → n = 0 → Stops n φ r .outOfFuel
  | select {callee es vs r₁ m n' stop} : φ.call? = some (callee, es) →
      callee.target = .method m → (evalExprs (x.dispatch n) es).outcome r = (.ok vs, r₁) →
      n = n' + 1 →
      ((selectBody x.bodies (x.dispatch n') vs (r₁.scopes.implementations m)).outcome r₁).1 =
        .error stop → Stops n φ r stop
  | unmatched {callee es vs r₁ m n' r₂} : φ.call? = some (callee, es) →
      callee.target = .method m → (evalExprs (x.dispatch n) es).outcome r = (.ok vs, r₁) →
      n = n' + 1 →
      (selectBody x.bodies (x.dispatch n') vs (r₁.scopes.implementations m)).outcome r₁ =
        (.ok none, r₂) →
      Stops n φ r (.error (.noMatchingImplementation callee.name.name vs callee.name.line))
  | parameters {callee es vs r₁ m n' b r₂ stop} : φ.call? = some (callee, es) →
      callee.target = .method m → (evalExprs (x.dispatch n) es).outcome r = (.ok vs, r₁) →
      n = n' + 1 →
      (selectBody x.bodies (x.dispatch n') vs (r₁.scopes.implementations m)).outcome r₁ =
        (.ok (some b), r₂) →
      ((EvalM.bindParameters (r₂.scopes.bodyCursor b.head.method) b.head.patterns vs).outcome
        { r₂ with scopes := r₂.scopes.clear (r₂.scopes.members (.method b.head.method)).vars }).1 =
          .error stop → Stops n φ r stop

/-- A stop of a phrase that is carried out from `r` is its own, that of a part, or that
    of the block of a body that it calls. -/
inductive Arises (n : Nat) (φ : Phrase) (r : RunState) (stop : Stop) : Prop where
  | own : x.Stops n φ r stop → Arises n φ r stop
  | part {k part r'} : x.Reaches n φ r k r' → φ.parts[k]? = some part →
      part.Halts x n r' stop → Arises n φ r stop
  | body {n' b r'} : n = n' + 1 → x.Invokes n' φ r b r' →
      (Phrase.items b.block).Halts x n' r' stop → Arises n φ r stop

variable {x} {n : Nat} {φ : Phrase} {r : RunState} {stop : Stop}

theorem arises_of_condition {e : Expr} {line : Nat} {r₁ : RunState}
    (h : ((evalCondition (x.dispatch n) e line).outcome r₁).1 = .error stop)
    (htest : x.Tests n φ r e line r₁) (hreach : x.Reaches n φ r 0 r₁)
    (hpart : φ.parts[0]? = some (.expr e)) : x.Arises n φ r stop := by
  rcases EvalM.outcome_bind_error h with he | ⟨v, r₂, he, hv⟩
  · exact .part hreach hpart he
  · split at hv
    · exact absurd hv nofun
    · next hbool =>
        obtain rfl := Except.error.inj hv
        exact .own (.condition htest he hbool)

/-- A loop that stops in one of its later rounds. -/
theorem arises_of_loop {e : Expr} {body : List Item} {line fuel k : Nat} {r₁ : RunState}
    (hround : x.Round n e body line r k r₁) (hk : fuel + k = n)
    (h : ((EvalM.loop x.limit line (evalCondition (x.dispatch n) e line)
      (execItems x.limit n (x.dispatch n) body) fuel k).outcome r₁).1 = .error stop) :
    x.Arises n (.item (.whileLoop e body line)) r stop := by
  induction fuel generalizing k r₁ with
  | zero =>
      obtain rfl : k = n := by omega
      obtain rfl := Except.error.inj h
      exact .own (.loopFuel rfl hround)
  | succ fuel ih =>
      have hlt : k < n := by omega
      rcases EvalM.outcome_bind_error h with hcondition | ⟨holds, r₂, hcondition, hrest⟩
      · exact arises_of_condition hcondition (.whileLoop hround hlt) (.whileCondition hround hlt)
          rfl
      cases holds with
      | false => exact absurd hrest nofun
      | true =>
          -- What happens behind the look at the limit.
          have hgo (hlimit : ∀ most, x.limit = some most → k < most)
              (hgo : ((do
                execItems x.limit n (x.dispatch n) body
                EvalM.loop x.limit line (evalCondition (x.dispatch n) e line)
                  (execItems x.limit n (x.dispatch n) body) fuel (k + 1) : EvalM Unit).outcome
                    r₂).1 = .error stop) : x.Arises n (.item (.whileLoop e body line)) r stop := by
            rcases EvalM.outcome_bind_error hgo with hbody | ⟨_, r₃, hbody, hloop⟩
            · exact .part (.whileBlock hround hlt hcondition hlimit) rfl hbody
            · exact ih (.next hround hlt hcondition hlimit hbody) (by omega) hloop
          rw [if_pos rfl] at hrest
          split at hrest
          · next most hlimit =>
              split at hrest
              · next hle =>
                  obtain rfl := Except.error.inj hrest
                  exact .own (.rounds rfl hround hlt hcondition hlimit hle)
              · next hle =>
                  refine hgo (fun most' hmost => ?_) hrest
                  obtain rfl := Option.some.inj (hlimit.symm.trans hmost)
                  omega
          · next hlimit =>
              exact hgo (fun most hmost => absurd (hlimit.symm.trans hmost) nofun) hrest

/-- A call of a method stops for want of fuel or of a body, in choosing or entering a
    body, or in its block. -/
theorem arises_of_dispatch {callee : Callee} {es : List Expr} {vs : List Value} {m : MethodId}
    {r₁ : RunState} (hcall : φ.call? = some (callee, es)) (htarget : callee.target = .method m)
    (hargs : (evalExprs (x.dispatch n) es).outcome r = (.ok vs, r₁))
    (h : ((x.dispatch n m callee.name vs).outcome r₁).1 = .error stop) : x.Arises n φ r stop := by
  cases n with
  | zero =>
      obtain rfl := Except.error.inj h
      exact .own (.callFuel hcall htarget hargs rfl)
  | succ n =>
      rw [dispatch, EvalM.outcome_get_bind] at h
      rcases EvalM.outcome_bind_error h with h | ⟨chosen, r₂, hselect, h⟩
      · exact .own (.select hcall htarget hargs rfl h)
      cases chosen with
      | none =>
          obtain rfl := Except.error.inj h
          exact .own (.unmatched hcall htarget hargs rfl hselect)
      | some b =>
          rcases EvalM.outcome_bind_error h with h | ⟨_, _, _, h⟩
          · rw [EvalM.invoke, EvalM.outcome_get_bind, EvalM.outcome_withFreshVariables] at h
            rcases EvalM.outcome_bind_error h with h | ⟨_, r₃, hbind, h⟩
            · exact .own (.parameters hcall htarget hargs rfl hselect h)
            · exact .body rfl (.intro hcall htarget hargs hselect hbind) h
          · exact absurd h nofun

theorem arises_of_call {callee : Callee} {es : List Expr} {vs : List Value} {r₁ : RunState}
    (hcall : φ.call? = some (callee, es))
    (hargs : (evalExprs (x.dispatch n) es).outcome r = (.ok vs, r₁))
    (h : ((callWith (x.dispatch n) callee vs).outcome r₁).1 = .error stop) :
    x.Arises n φ r stop := by
  unfold callWith at h
  split at h
  · exact absurd h nofun
  · next f htarget hmany =>
      obtain rfl := Except.error.inj h
      refine .own (.builtin hcall htarget hargs fun hlength => ?_)
      cases f with
      | print =>
          obtain ⟨v, hv⟩ := List.length_eq_one_iff.mp hlength
          exact hmany v hv rfl
  · next htarget => exact arises_of_dispatch hcall htarget hargs h

theorem arises_of_expr {e : Expr} (h : (Phrase.expr e).Halts x n r stop) :
    x.Arises n (.expr e) r stop := by
  -- A sequence of steps stops in the first of them, or behind it in a state that the first one
  -- leads to: the parts are taken off in the order of evaluation.
  cases e with
  | assign target e =>
      rcases EvalM.outcome_bind_error h with h | ⟨v, r₁, he, h⟩
      · exact .part .assigned rfl h
      · exact .own (.assign rfl he h)
  | binary level a op b =>
      rcases EvalM.outcome_bind_error h with h | ⟨v, r₁, ha, h⟩
      · exact .part .left rfl h
      rcases EvalM.outcome_bind_error h with h | ⟨w, r₂, hb, h⟩
      · exact .part (.right ha) rfl h
      cases hop : level.apply op v w with
      | ok _ =>
          rw [hop] at h
          exact absurd h nofun
      | error e =>
          rw [hop] at h
          obtain rfl := Except.error.inj h
          exact .own (.binary rfl ha hb hop)
  | unary op a =>
      rcases EvalM.outcome_bind_error h with h | ⟨v, r₁, ha, h⟩
      · exact .part .operand rfl h
      cases hop : applyUnary op v with
      | ok _ =>
          rw [hop] at h
          exact absurd h nofun
      | error e =>
          rw [hop] at h
          obtain rfl := Except.error.inj h
          exact .own (.unary rfl ha hop)
  | grouping e => exact .part .inner rfl h
  | literal v => exact absurd h nofun
  | name id => exact .own (.name rfl h)
  | call callee es =>
      rcases EvalM.outcome_bind_error h with h | ⟨vs, r₁, hargs, h⟩
      · exact .part .arguments rfl h
      · exact arises_of_call rfl hargs h

theorem requireDeclared_eq_ok {kind : EntityKind} {name : Ident} {id : Nat} {r r₁ : RunState}
    (h : (EvalM.requireDeclared kind name).outcome r = (.ok id, r₁)) :
    r.scopes.findDeclared kind name.name r.cursor = some id ∧ r₁ = r := by
  rw [EvalM.requireDeclared, EvalM.outcome_get_bind] at h
  split at h
  · next id' hid =>
      obtain ⟨hok, rfl⟩ := Prod.mk.inj h
      obtain rfl := Except.ok.inj hok
      exact ⟨hid, rfl⟩
  · exact absurd (Prod.mk.inj h).1 nofun

theorem arises_of_item {i : Item} (h : (Phrase.item i).Halts x n r stop) :
    x.Arises n (.item i) r stop := by
  cases i with
  | classDecl name body =>
      rcases EvalM.outcome_bind_error h with h | ⟨id, r₁, hid, hblock⟩
      · exact .own (.declaration rfl h)
      · obtain ⟨hfound, rfl⟩ := requireDeclared_eq_ok hid
        exact .part (.classBlock hfound) rfl hblock
  | methodDecl name returnType types =>
      rcases EvalM.outcome_bind_error h with h | ⟨_, _, _, h⟩
      · exact .own (.declaration rfl h)
      · exact absurd h nofun
  | varDecl name type =>
      rcases EvalM.outcome_bind_error h with h | ⟨_, _, _, h⟩
      · exact .own (.declaration rfl h)
      · exact absurd h nofun
  | assign target e =>
      rcases EvalM.outcome_bind_error h with h | ⟨v, r₁, he, h⟩
      · exact .part .assignedItem rfl h
      rcases EvalM.outcome_bind_error h with h | ⟨_, _, _, h⟩
      · exact .own (.assign rfl he h)
      · exact absurd h nofun
  | ifThen e body line =>
      rcases EvalM.outcome_bind_error h with h | ⟨holds, r₁, he, h⟩
      · exact arises_of_condition h .ifThen .ifCondition rfl
      cases holds with
      | false => exact absurd h nofun
      | true => exact .part (.ifBlock he) rfl h
  | whileLoop e body line => exact arises_of_loop .first rfl h
  | methodBody head body => exact absurd h nofun
  | call callee es =>
      rcases EvalM.outcome_bind_error h with h | ⟨vs, r₁, hargs, h⟩
      · exact .part .argumentsItem rfl h
      rcases EvalM.outcome_bind_error h with h | ⟨_, _, _, h⟩
      · exact arises_of_call rfl hargs h
      · exact absurd h nofun
  | expr e =>
      rcases EvalM.outcome_bind_error h with h | ⟨_, _, _, h⟩
      · exact .part .exprItem rfl h
      · exact absurd h nofun

/-- Where the stop of a phrase comes from. -/
theorem arises_of_halts (h : φ.Halts x n r stop) : x.Arises n φ r stop := by
  cases φ with
  | expr e => exact arises_of_expr h
  | arguments es =>
      cases es with
      | nil => exact absurd h nofun
      | cons e es =>
          rcases EvalM.outcome_bind_error h with h | ⟨v, r₁, he, h⟩
          · exact .part .argument rfl h
          rcases EvalM.outcome_bind_error h with h | ⟨_, _, _, h⟩
          · exact .part (.moreArguments he) rfl h
          · exact absurd h nofun
  | item i => exact arises_of_item h
  | items is =>
      cases is with
      | nil => exact absurd h nofun
      | cons i is =>
          rcases EvalM.outcome_bind_error h with h | ⟨_, r₁, hi, h⟩
          · exact .part .item rfl h
          · exact .part (.moreItems hi) rfl h
  | _ => exact absurd h id

/-- When a visited phrase stops, there is a visited phrase that stops by itself. -/
theorem Visits.stops (hx : x.WellScoped) {start : Nat} {path : Path}
    (hvisit : x.Visits start n path φ r) (h : φ.Halts x n r stop) :
    ∃ n' path' ψ r', x.Visits start n' path' ψ r' ∧ x.Stops n' ψ r' stop := by
  -- Parts have the same fuel and are smaller; blocks of bodies have less fuel.
  induction n using Nat.strong_induction_on generalizing path φ r with
  | _ n ihfuel =>
      induction φ using Phrase.induction_on_parts generalizing path r with
      | h φ ihparts =>
          cases arises_of_halts h with
          | own hstops => exact ⟨n, path, φ, r, hvisit, hstops⟩
          | part hreach hk hpart =>
              exact ihparts _ (List.mem_of_getElem? hk) (.part hvisit hreach hk) hpart
          | @body n' b r' hn hinvoke hblock =>
              subst hn
              obtain ⟨hat, hstands⟩ := hvisit.placed hx
              have hwithin := hx.tree.within_at_path hx.coherent (ScopeTable.within_global _) hat
              obtain ⟨⟨id, hb⟩, -⟩ := hinvoke.stands hx hwithin (hx.tree.at_path hat) hstands
              obtain ⟨-, path', hpath⟩ := hx.body id b hb
              exact ihfuel n' (Nat.lt_succ_self n') (.body hvisit hinvoke hpath) hblock

end Executable

end BlockLang
