/-
  BlockLang.Proofs.Eval.Safety

  Computations that keep to their place.

  A safe computation comes back to the place at which it started, changes nothing in
  the table but values, leaves the variables of all methods alone that are not among
  those around it, and does not stop with an error that only a tree which does not
  fit its table could cause.  It keeps to this whether it succeeds or stops.
-/
import BlockLang.Proofs.Eval.Outcome
import BlockLang.Proofs.Scope.Scoped

namespace BlockLang

/-- Errors that arise only when a tree does not fit its table. -/
def EvalError.isInternal : EvalError → Bool
  | scope (.undeclaredName _) _ => true
  | scope (.undeclared _ _) _ => true
  | unknownOperator _ _ _ => true
  | _ => false

/-- The method `m` is `o` or one of the methods around it. -/
def ScopeTable.Encloses (t : ScopeTable) (o : Option MethodId) (m : MethodId) : Prop :=
  ∃ n, o = some n ∧ t.Around n m

namespace ScopeTable

theorem not_encloses_none (t : ScopeTable) (m : MethodId) : ¬t.Encloses none m := by
  rintro ⟨_, h, _⟩
  exact absurd h nofun

/-- The methods around a method are itself and those around the next one. -/
theorem encloses_some_iff (t : ScopeTable) (n m : MethodId) :
    t.Encloses (some n) m ↔ m = n ∨ t.Encloses (t.outerMethod? n) m := by
  constructor
  · rintro ⟨k, hk, h⟩
    obtain rfl : n = k := Option.some.inj hk
    cases h with
    | self => exact .inl rfl
    | outer hp h => exact .inr ⟨_, hp, h⟩
  · rintro (rfl | ⟨p, hp, h⟩)
    · exact ⟨m, rfl, .self m⟩
    · exact ⟨n, rfl, .outer hp h⟩

end ScopeTable

/-- Between the two states only values have changed, and only of variables that no
    method owns or that a method owns which is `o` or around it. -/
structure Steady (t : ScopeTable) (o : Option MethodId) (r r' : RunState) : Prop where
  cursor : r'.cursor = r.cursor
  table : r'.scopes.withoutValues = r.scopes.withoutValues
  frame : ∀ v m, t.ownerOf? (.var v) = some (.method m) → ¬t.Encloses o m →
    r'.scopes.value? v = r.scopes.value? v

namespace Steady

variable {t : ScopeTable} {o o' : Option MethodId} {r r₁ r₂ : RunState}

theorem refl (r : RunState) : Steady t o r r := ⟨rfl, rfl, fun _ _ _ _ => rfl⟩

theorem trans (h₁ : Steady t o r r₁) (h₂ : Steady t o r₁ r₂) : Steady t o r r₂ where
  cursor := h₂.cursor.trans h₁.cursor
  table := h₂.table.trans h₁.table
  frame v m hv hm := (h₂.frame v m hv hm).trans (h₁.frame v m hv hm)

/-- Leaving more methods alone. -/
theorem mono (h : Steady t o r r₁) (ho : ∀ m, t.Encloses o m → t.Encloses o' m) :
    Steady t o' r r₁ :=
  ⟨h.cursor, h.table, fun v m hv hm => h.frame v m hv fun hm' => hm (ho m hm')⟩

/-- Giving a value to a variable that no method owns, or one that may change. -/
theorem setValue {v : VariableId}
    (hv : ∀ m, t.ownerOf? (.var v) = some (.method m) → t.Encloses o m) (r : RunState)
    (value : Option Value) : Steady t o r { r with scopes := r.scopes.setValue v value } := by
  refine ⟨rfl, ScopeTable.withoutValues_setValue _ _ _, fun w m hw hm => ?_⟩
  refine ScopeTable.value?_setValue_of_ne _ ?_ _
  rintro rfl
  exact hm (hv m hw)

end Steady

/-- A result that satisfies `Q`, or a stop that is no internal error. -/
def Acceptable {α : Type} (Q : α → Prop) : Except Stop α → Prop
  | .ok a => Q a
  | .error (.error e) => e.isInternal = false
  | .error .outOfFuel => True

theorem Acceptable.mono {α : Type} {P P' : α → Prop} {result : Except Stop α}
    (h : Acceptable P result) (hP : ∀ a, P a → P' a) : Acceptable P' result := by
  rcases result with (_ | _) | a
  · exact h
  · exact h
  · exact hP a h

/-- Started at the place `c` with any values in the table `t`, the computation leaves
    alone what does not belong to `o`, and its result satisfies `Q`. -/
def Safe {α : Type} (t : ScopeTable) (o : Option MethodId) (c : Cursor) (x : EvalM α)
    (Q : α → Prop) : Prop :=
  ∀ r, r.scopes.withoutValues = t → r.cursor = c →
    Steady t o r (x.outcome r).2 ∧ Acceptable Q (x.outcome r).1

namespace Safe

variable {α β : Type} {t : ScopeTable} {o o' : Option MethodId} {c : Cursor}
  {x : EvalM α} {f : α → EvalM β} {P : α → Prop} {Q : β → Prop}

theorem pure {a : α} (h : P a) : Safe t o c (pure a) P := fun r _ _ => ⟨.refl r, h⟩

theorem fail {e : EvalError} (h : e.isInternal = false) : Safe t o c (EvalM.fail e : EvalM α) P :=
  fun r _ _ => ⟨.refl r, h⟩

theorem outOfFuel : Safe t o c (throw .outOfFuel : EvalM α) P := fun r _ _ => ⟨.refl r, trivial⟩

theorem bind (hx : Safe t o c x P) (hf : ∀ a, P a → Safe t o c (f a) Q) :
    Safe t o c (x >>= f) Q := by
  intro r ht hc
  obtain ⟨hsteady, hok⟩ := hx r ht hc
  rw [EvalM.outcome_bind]
  rcases hout : x.outcome r with ⟨stop | a, r₁⟩
  · rw [hout] at hsteady hok
    exact ⟨hsteady, by cases stop <;> exact hok⟩
  · rw [hout] at hsteady hok
    obtain ⟨hsteady', hok'⟩ := hf a hok r₁ (hsteady.table.trans ht) (hsteady.cursor.trans hc)
    exact ⟨hsteady.trans hsteady', hok'⟩

/-- A step that looks at the state first. -/
theorem get {f : RunState → EvalM β}
    (hf : ∀ r, r.scopes.withoutValues = t → r.cursor = c →
      Steady t o r ((f r).outcome r).2 ∧ Acceptable Q ((f r).outcome r).1) :
    Safe t o c (MonadState.get >>= f) Q := by
  intro r ht hc
  rw [EvalM.outcome_bind]
  exact hf r ht hc

theorem mono (h : Safe t o c x P) (ho : ∀ m, t.Encloses o m → t.Encloses o' m) :
    Safe t o' c x P := fun r ht hc => ⟨(h r ht hc).1.mono ho, (h r ht hc).2⟩

theorem of_none (h : Safe t none c x P) : Safe t o c x P :=
  h.mono fun m hm => absurd hm (t.not_encloses_none m)

theorem weaken {P' : α → Prop} (h : Safe t o c x P) (hP : ∀ a, P a → P' a) : Safe t o c x P' :=
  fun r ht hc => ⟨(h r ht hc).1, (h r ht hc).2.mono hP⟩

/-- What is carried out at another place comes back to this one. -/
theorem withCursor {c' : Cursor} (h : Safe t o c' x P) : Safe t o c (EvalM.withCursor c' x) P := by
  intro r ht hc
  obtain ⟨hsteady, hok⟩ := h { r with cursor := c' } ht rfl
  exact ⟨⟨rfl, hsteady.table, hsteady.frame⟩, hok⟩

end Safe

/-! ## Names -/

section Names

variable {t : ScopeTable} {o : Option MethodId} {c : Cursor}

theorem safe_readName {id : Ident} (h : (t.resolve id.name c).isSome) :
    Safe t o c (EvalM.readName id) fun _ => True := by
  refine .get fun r ht hc => ?_
  have hresolve : r.scopes.resolve id.name r.cursor = t.resolve id.name c := by
    rw [← ScopeTable.resolve_withoutValues, ht, hc]
  rw [hresolve]
  split
  · split
    · exact ⟨.refl r, trivial⟩
    · exact ⟨.refl r, rfl⟩
  · exact ⟨.refl r, trivial⟩
  · rename_i hnone
    rw [hnone] at h
    exact absurd h Bool.false_ne_true

/-- A variable that a name stands for belongs to no method or to one around. -/
theorem ScopeTable.Coherent.encloses_of_resolve (ht : t.Coherent) (hc : t.Within c) {name : String}
    {v : VariableId} (h : t.resolve name c = some (.var v)) {m : MethodId}
    (hm : t.ownerOf? (.var v) = some (.method m)) : t.Encloses c.method m := by
  obtain ⟨owner, howner, hfind⟩ := resolve_eq_some h
  have hown := (ht.owned owner .var v).mp (find?_eq_some hfind).1
  obtain rfl : owner = .method m := Option.some.inj (hown.symm.trans hm)
  exact (ht.method_mem_lookupChain hc).mp howner

theorem safe_assign (hcoh : t.Coherent) (hwithin : t.Within c) {target : Ident} {value : Value}
    (h : (t.resolve target.name c).isSome) :
    Safe t c.method c (EvalM.assign target value) fun _ => True := by
  refine .get fun r ht hc => ?_
  have hresolve : r.scopes.resolve target.name r.cursor = t.resolve target.name c := by
    rw [← ScopeTable.resolve_withoutValues, ht, hc]
  rw [hresolve]
  split
  · rename_i v hv
    rw [EvalM.outcome_bind, EvalM.outcome_set]
    exact ⟨.setValue (fun _ => hcoh.encloses_of_resolve hwithin hv) r _, trivial⟩
  · exact ⟨.refl r, rfl⟩
  · rename_i hnone
    rw [hnone] at h
    exact absurd h Bool.false_ne_true

theorem safe_requireDeclared {kind : EntityKind} {name : Ident}
    (h : (t.findDeclared kind name.name c).isSome) :
    Safe t o c (EvalM.requireDeclared kind name) fun id =>
      t.findDeclared kind name.name c = some id := by
  refine .get fun r ht hc => ?_
  have hfind : r.scopes.findDeclared kind name.name r.cursor = t.findDeclared kind name.name c := by
    rw [← ScopeTable.findDeclared_withoutValues, ht, hc]
  rw [hfind]
  split
  · rename_i id hid
    exact ⟨.refl r, hid⟩
  · rename_i hnone
    rw [hnone] at h
    exact absurd h Bool.false_ne_true

end Names

/-! ## Operators -/

theorem exactInteger_isInternal {op : Operator} {n : Int} {e : EvalError}
    (h : exactInteger op n = .error e) : e.isInternal = false := by
  unfold exactInteger at h
  split at h
  · cases h
  · cases h
    rfl

theorem applyLogic_isInternal {op : Operator} {a b : Value} {e : EvalError}
    (hop : op.kind ∈ Level.logic.operators) (h : applyLogic op a b = .error e) :
    e.isInternal = false := by
  unfold applyLogic at h
  split at h
  · split at h
    · cases h
    · cases h
    · simp_all [Level.operators]
  · cases h
    rfl

theorem applyEquality_isInternal {op : Operator} {a b : Value} {e : EvalError}
    (hop : op.kind ∈ Level.equality.operators) (h : applyEquality op a b = .error e) :
    e.isInternal = false := by
  unfold applyEquality at h
  split at h
  · cases h
  · cases h
  · simp_all [Level.operators]

theorem applyComparison_isInternal {op : Operator} {a b : Value} {e : EvalError}
    (hop : op.kind ∈ Level.comparison.operators) (h : applyComparison op a b = .error e) :
    e.isInternal = false := by
  unfold applyComparison at h
  split at h
  · split at h
    · cases h
    · cases h
    · cases h
    · cases h
    · simp_all [Level.operators]
  · cases h
    rfl

theorem applyArithmetic_isInternal {op : Operator} {a b : Value} {e : EvalError}
    (hop : op.kind ∈ Level.addition.operators ∨ op.kind ∈ Level.multiplication.operators)
    (h : applyArithmetic op a b = .error e) : e.isInternal = false := by
  unfold applyArithmetic at h
  split at h
  · unfold applyIntegers at h
    split at h
    · exact exactInteger_isInternal h
    · exact exactInteger_isInternal h
    · exact exactInteger_isInternal h
    · split at h
      · cases h
        rfl
      · exact exactInteger_isInternal h
    · simp_all [Level.operators]
  · unfold applyFloats at h
    split at h
    · cases h
    · cases h
    · cases h
    · cases h
    · simp_all [Level.operators]
  · cases h
    rfl

/-- An operator that belongs to its level is known there. -/
theorem Level.apply_isInternal {level : Level} {op : Operator} {a b : Value} {e : EvalError}
    (hop : op.kind ∈ level.operators) (h : level.apply op a b = .error e) :
    e.isInternal = false := by
  cases level with
  | logic => exact applyLogic_isInternal hop h
  | equality => exact applyEquality_isInternal hop h
  | comparison => exact applyComparison_isInternal hop h
  | addition => exact applyArithmetic_isInternal (.inl hop) h
  | multiplication => exact applyArithmetic_isInternal (.inr hop) h

theorem applyUnary_isInternal {op : Operator} {a : Value} {e : EvalError}
    (hop : op.kind = .bang ∨ op.kind = .minus) (h : applyUnary op a = .error e) :
    e.isInternal = false := by
  unfold applyUnary at h
  split at h
  · split at h
    · cases h
    · cases h
      rfl
  · split at h
    · exact exactInteger_isInternal h
    · cases h
    · cases h
      rfl
  · simp_all

theorem safe_ofExcept {t : ScopeTable} {o : Option MethodId} {c : Cursor} {α : Type}
    {result : Except EvalError α} (h : ∀ e, result = .error e → e.isInternal = false) :
    Safe t o c (EvalM.ofExcept result) fun _ => True := by
  cases result with
  | ok a => exact .pure trivial
  | error e => exact .fail (h e rfl)

/-! ## Loops -/

theorem safe_loop {t : ScopeTable} {o : Option MethodId} {c : Cursor} {condition : EvalM Bool}
    {body : EvalM Unit} (hcondition : Safe t o c condition fun _ => True)
    (hbody : Safe t o c body fun _ => True) (limit : Option Nat) (line fuel rounds : Nat) :
    Safe t o c (EvalM.loop limit line condition body fuel rounds) fun _ => True := by
  -- Every round starts where the one before it ended, so the rest of the loop is safe again.
  induction fuel generalizing rounds with
  | zero => exact .outOfFuel
  | succ fuel ih =>
      have hround : Safe t o c (do body; EvalM.loop limit line condition body fuel (rounds + 1))
          fun _ => True := hbody.bind fun _ _ => ih (rounds + 1)
      refine hcondition.bind fun b _ => ?_
      split
      · split
        · split
          · exact .fail rfl
          · exact hround
        · exact hround
      · exact .pure trivial

/-! ## Bodies of methods -/

section Bodies

variable {t : ScopeTable} {c : Cursor}

theorem safe_bindParameters (hcoh : t.Coherent) {m : MethodId} {patterns : List Pattern}
    (hpatterns : ∀ name, .binding name ∈ patterns → (t.find? (.method m) .var name.name).isSome)
    (values : List Value) :
    Safe t (some m) c (EvalM.bindParameters (t.bodyCursor m) patterns values) fun _ => True := by
  induction patterns generalizing values with
  | nil => exact .pure trivial
  | cons p patterns ih =>
      have hrest := ih fun name hname => hpatterns name (List.mem_cons_of_mem p hname)
      cases values with
      | nil => cases p <;> exact .pure trivial
      | cons value values =>
          cases p with
          | value e => exact hrest values
          | binding name =>
              refine .get fun r ht hc => ?_
              have hfind : r.scopes.findDeclared .var name.name (t.bodyCursor m) =
                  t.find? (.method m) .var name.name := by
                rw [← ScopeTable.findDeclared_withoutValues, ht]
                rfl
              obtain ⟨v, hv⟩ := Option.isSome_iff_exists.mp (hpatterns name List.mem_cons_self)
              have hown := (hcoh.owned _ .var v).mp (ScopeTable.find?_eq_some hv).1
              rw [hfind, hv]
              simp only [EvalM.outcome_bind, EvalM.outcome_set]
              -- A parameter is a variable of the method itself, and these may change.
              have hset : Steady t (some m) r
                  { r with scopes := r.scopes.setValue v (some value) } := by
                refine .setValue (fun n hn => ?_) r _
                obtain rfl : n = m := by simpa using hn.symm.trans hown
                exact ⟨n, rfl, .self n⟩
              obtain ⟨hsteady, hok⟩ := hrest values _ (hset.table.trans ht) (hset.cursor.trans hc)
              exact ⟨hset.trans hsteady, hok⟩

/-- What is carried out with fresh variables of a method gives those variables back. -/
theorem safe_withFreshVariables (hcoh : t.Coherent) {m : MethodId} {α : Type} {x : EvalM α}
    {Q : α → Prop} (hx : Safe t (some m) c x Q) :
    Safe t (t.outerMethod? m) c (EvalM.withFreshVariables m x) Q := by
  intro r ht hc
  rw [EvalM.outcome_withFreshVariables]
  have howned (v : VariableId) : v ∈ (r.scopes.members (.method m)).vars ↔
      t.ownerOf? (.var v) = some (.method m) := by
    rw [← ScopeTable.members_withoutValues, ht]
    exact hcoh.owned (.method m) .var v
  generalize (r.scopes.members (.method m)).vars = owned at howned
  obtain ⟨hsteady, hok⟩ := hx { r with scopes := r.scopes.clear owned }
    ((ScopeTable.withoutValues_clear _ _).trans ht) hc
  have htable := hsteady.table.trans (ScopeTable.withoutValues_clear _ _)
  refine ⟨⟨hsteady.cursor, ?_, fun v n hv hn => ?_⟩, hok⟩
  · exact (ScopeTable.withoutValues_restore _ _ _).trans htable
  · dsimp only
    rw [ScopeTable.value?_restore (ScopeTable.size_vars_eq htable)]
    split
    · rfl
    · rename_i hmem
      -- Neither the method itself nor one around it owns the variable.
      have hne : n ≠ m := fun h => hmem ((howned v).mpr (h ▸ hv))
      have hout : ¬t.Encloses (some m) n := fun h =>
        ((t.encloses_some_iff m n).mp h).elim hne hn
      exact (hsteady.frame v n hv hout).trans (ScopeTable.value?_clear_of_not_mem _ hmem)

theorem safe_invoke (hcoh : t.Coherent) {head : BodyHead} {arguments : List Value}
    {run : EvalM Unit}
    (hpatterns : ∀ name, .binding name ∈ head.patterns →
      (t.find? (.method head.method) .var name.name).isSome)
    (hrun : Safe t (some head.method) (t.bodyCursor head.method) run fun _ => True) :
    Safe t (t.outerMethod? head.method) c (EvalM.invoke head arguments run) fun _ => True := by
  refine .get fun r ht hc => ?_
  have hframe : r.scopes.bodyCursor head.method = t.bodyCursor head.method := by
    rw [← ScopeTable.bodyCursor_withoutValues, ht]
  rw [hframe]
  refine safe_withFreshVariables hcoh ?_ r ht hc
  exact (safe_bindParameters hcoh hpatterns arguments).bind fun _ _ => hrun.withCursor

end Bodies

end BlockLang
