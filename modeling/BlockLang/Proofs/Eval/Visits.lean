/-
  BlockLang.Proofs.Eval.Visits

  Which phrases a run carries out, and in which states.

  `Reaches` says for each construct when its parts have their turn: operands from
  left to right, blocks behind conditions that hold, loops round by round.  `Invokes`
  says which body a call leads to.  A run visits the phrases to which these two lead
  from the start.  Whatever it visits, it does so at the place that follows from the
  tree, with the table of the program under some values.
-/
import BlockLang.Proofs.Eval.Soundness

namespace BlockLang

namespace Executable

variable (x : Executable)

/-- A loop that starts in `r` is in `r'` in front of its round number `k`, with fuel
    for `n` rounds. -/
inductive Round (n : Nat) (e : Expr) (body : List Item) (line : Nat) (r : RunState) :
    Nat → RunState → Prop where
  | first : Round n e body line r 0 r
  | next {k : Nat} {r₁ r₂ r₃ : RunState} : Round n e body line r k r₁ → k < n →
      (evalCondition (x.dispatch n) e line).outcome r₁ = (.ok true, r₂) →
      (∀ most, x.limit = some most → k < most) →
      (execItems x.limit n (x.dispatch n) body).outcome r₂ = (.ok (), r₃) →
      Round n e body line r (k + 1) r₃

/-- Carrying out a phrase from `r` comes to its part number `k` in `r'`. -/
inductive Reaches (n : Nat) : Phrase → RunState → Nat → RunState → Prop where
  | assigned {target e r} : Reaches n (.expr (.assign target e)) r 0 r
  | left {level a op b r} : Reaches n (.expr (.binary level a op b)) r 0 r
  | right {level a op b r v r'} : (evalExpr (x.dispatch n) a).outcome r = (.ok v, r') →
      Reaches n (.expr (.binary level a op b)) r 1 r'
  | operand {op e r} : Reaches n (.expr (.unary op e)) r 0 r
  | inner {e r} : Reaches n (.expr (.grouping e)) r 0 r
  | arguments {callee es r} : Reaches n (.expr (.call callee es)) r 0 r
  | argument {e es r} : Reaches n (.arguments (e :: es)) r 0 r
  | moreArguments {e es r v r'} : (evalExpr (x.dispatch n) e).outcome r = (.ok v, r') →
      Reaches n (.arguments (e :: es)) r 1 r'
  | classBlock {name body r id} : r.scopes.findDeclared .cls name.name r.cursor = some id →
      Reaches n (.item (.classDecl name body)) r 0 { r with cursor := .inClass id }
  | assignedItem {target e r} : Reaches n (.item (.assign target e)) r 0 r
  | ifCondition {e body line r} : Reaches n (.item (.ifThen e body line)) r 0 r
  | ifBlock {e body line r r'} :
      (evalCondition (x.dispatch n) e line).outcome r = (.ok true, r') →
      Reaches n (.item (.ifThen e body line)) r 1 r'
  | whileCondition {e body line r k r'} : x.Round n e body line r k r' → k < n →
      Reaches n (.item (.whileLoop e body line)) r 0 r'
  | whileBlock {e body line r k r₁ r₂} : x.Round n e body line r k r₁ → k < n →
      (evalCondition (x.dispatch n) e line).outcome r₁ = (.ok true, r₂) →
      (∀ most, x.limit = some most → k < most) →
      Reaches n (.item (.whileLoop e body line)) r 1 r₂
  | argumentsItem {callee es r} : Reaches n (.item (.call callee es)) r 0 r
  | exprItem {e r} : Reaches n (.item (.expr e)) r 0 r
  | item {i is r} : Reaches n (.items (i :: is)) r 0 r
  | moreItems {i is r r'} :
      (execItem x.limit n (x.dispatch n) i).outcome r = (.ok (), r') →
      Reaches n (.items (i :: is)) r 1 r'

end Executable

/-- The callee and the arguments of a phrase that is a call. -/
def Phrase.call? : Phrase → Option (Callee × List Expr)
  | expr (.call callee es) => some (callee, es)
  | item (.call callee es) => some (callee, es)
  | _ => none

namespace Executable

variable (x : Executable)

/-- Carrying out a call from `r` with fuel for one more than `n` calls comes to the
    block of the body `b` in `r'`: arguments are evaluated, a body is chosen, the
    variables of its method are cleared and its parameters bound. -/
inductive Invokes (n : Nat) (φ : Phrase) (r : RunState) (b : MethodBody) : RunState → Prop where
  | intro {callee es m vs r₁ r₂ r₃} : φ.call? = some (callee, es) → callee.target = .method m →
      (evalExprs (x.dispatch (n + 1)) es).outcome r = (.ok vs, r₁) →
      (selectBody x.bodies (x.dispatch n) vs (r₁.scopes.implementations m)).outcome r₁ =
        (.ok (some b), r₂) →
      (EvalM.bindParameters (r₂.scopes.bodyCursor b.head.method) b.head.patterns vs).outcome
        { r₂ with scopes := r₂.scopes.clear (r₂.scopes.members (.method b.head.method)).vars } =
          (.ok (), r₃) →
      Invokes n φ r b { r₃ with cursor := r₂.scopes.bodyCursor b.head.method }

/-- A run with fuel `start` comes to the phrase at a path in a state, with fuel `n`
    left there. -/
inductive Visits (start : Nat) : Nat → Path → Phrase → RunState → Prop where
  | start : Visits start start [] (.items x.items) x.initial
  | part {n path φ r k ψ r'} : Visits start n path φ r → x.Reaches n φ r k r' →
      φ.parts[k]? = some ψ → Visits start n (path ++ [k]) ψ r'
  | body {n path φ r b r' path'} : Visits start (n + 1) path φ r → x.Invokes n φ r b r' →
      (Phrase.items x.items).at? path' = some (.item (.methodBody b.head b.block)) →
      Visits start n (path' ++ [1]) (.items b.block) r'

end Executable

/-! ## States of a run -/

/-- The state `r` stands at the place `c`, with some values in the table `t`. -/
structure RunState.Stands (r : RunState) (t : ScopeTable) (c : Cursor) : Prop where
  table : r.scopes.withoutValues = t
  cursor : r.cursor = c

theorem RunState.Stands.steady {r r' : RunState} {t : ScopeTable} {c : Cursor}
    {o : Option MethodId} (h : r.Stands t c) (hs : Steady t o r r') : r'.Stands t c :=
  ⟨hs.table.trans h.table, hs.cursor.trans h.cursor⟩

/-- A safe computation leads from one such state to another one. -/
theorem Safe.stands {α : Type} {t : ScopeTable} {c : Cursor} {o : Option MethodId} {y : EvalM α}
    {P : α → Prop} (hy : Safe t o c y P) {r r' : RunState} {result : Except Stop α}
    (h : r.Stands t c) (hout : y.outcome r = (result, r')) : r'.Stands t c := by
  have hsteady := (hy r h.table h.cursor).1
  rw [hout] at hsteady
  exact h.steady hsteady

namespace Executable

variable {x : Executable} (hx : x.WellScoped) {n : Nat} {c : Cursor} (hc : x.scopes.Within c)
include hx hc

theorem Round.stands {e : Expr} {body : List Item} {line k : Nat} {r r' : RunState}
    (hs : (Phrase.item (.whileLoop e body line)).Scoped x.scopes c)
    (h : x.Round n e body line r k r') (hr : r.Stands x.scopes c) : r'.Stands x.scopes c := by
  have he := (hs.part List.mem_cons_self).runsSafely hx.coherent (hx.safeCalls n) x.limit n hc
  have hbody := (hs.part (List.mem_cons_of_mem _ List.mem_cons_self)).runsSafely hx.coherent
    (hx.safeCalls n) x.limit n hc
  induction h with
  | first => exact hr
  | next _ _ hcondition _ hround ih =>
      exact Safe.stands hbody ((safe_evalCondition he).stands ih hcondition) hround

/-- The parts of a phrase are carried out at the place inside it. -/
theorem Reaches.stands {φ : Phrase} {r r' : RunState} {k : Nat} (hs : φ.Scoped x.scopes c)
    (h : x.Reaches n φ r k r') (hr : r.Stands x.scopes c) :
    r'.Stands x.scopes (φ.cursorInside x.scopes c) := by
  have hpart (ψ : Phrase) (hψ : ψ ∈ φ.parts) :=
    (hs.part hψ).runsSafely hx.coherent (hx.safeCalls n) x.limit n
      (hs.fits.within_cursorInside hx.coherent hc)
  cases h with
  | right hleft => exact Safe.stands (hpart _ List.mem_cons_self) hr hleft
  | moreArguments he => exact Safe.stands (hpart _ List.mem_cons_self) hr he
  | classBlock hid =>
      rw [← ScopeTable.findDeclared_withoutValues, hr.table, hr.cursor] at hid
      rw [Phrase.cursorInside, hid]
      exact ⟨hr.table, rfl⟩
  | ifBlock hcondition =>
      exact (safe_evalCondition (hpart _ List.mem_cons_self)).stands hr hcondition
  | whileCondition hround _ => exact hround.stands hx hc hs hr
  | whileBlock hround _ hcondition _ =>
      have hr₁ := hround.stands hx hc hs hr
      exact (safe_evalCondition (hpart _ List.mem_cons_self)).stands hr₁ hcondition
  | moreItems hitem => exact Safe.stands (hpart _ List.mem_cons_self) hr hitem
  | _ => exact hr

theorem safe_arguments_of_call {φ : Phrase} {callee : Callee} {es : List Expr}
    (hs : φ.Scoped x.scopes c) (h : φ.call? = some (callee, es)) :
    Safe x.scopes c.method c (evalExprs (x.dispatch n) es) fun _ => True := by
  have hsafe (hs : (Phrase.arguments es).Scoped x.scopes c) :
      Safe x.scopes c.method c (evalExprs (x.dispatch n) es) fun _ => True :=
    hs.runsSafely hx.coherent (hx.safeCalls n) x.limit n hc
  unfold Phrase.call? at h
  split at h
  · cases h
    exact hsafe (hs.part List.mem_cons_self)
  · cases h
    exact hsafe (hs.part List.mem_cons_self)
  · cases h

/-- What is called is a body of the program, and its block is carried out at the place
    inside a body of its method. -/
theorem Invokes.stands {φ : Phrase} {r r' : RunState} {b : MethodBody}
    (hs : φ.Scoped x.scopes c) (h : x.Invokes n φ r b r') (hr : r.Stands x.scopes c) :
    (∃ id : Nat, x.bodies[id]? = some b) ∧
      r'.Stands x.scopes (x.scopes.bodyCursor b.head.method) := by
  cases h with
  | @intro callee es m vs r₁ r₂ r₃ hcall htarget hargs hselect hbind =>
      have hr₁ := (safe_arguments_of_call hx hc hs hcall).stands hr hargs
      have hsafe := hx.safe_select (c := c) (x.dispatch n) vs (r₁.scopes.implementations m)
      have hr₂ := hsafe.stands hr₁ hselect
      have hchosen := (hsafe r₁ hr₁.table hr₁.cursor).2
      rw [hselect] at hchosen
      obtain ⟨id, _, hb⟩ := hchosen b rfl
      -- Up to here only values have changed, so the place inside the body is the program's.
      have hframe : r₂.scopes.bodyCursor b.head.method = x.scopes.bodyCursor b.head.method := by
        rw [← ScopeTable.bodyCursor_withoutValues, hr₂.table]
      rw [hframe] at hbind ⊢
      have hparameters := safe_bindParameters (c := c) hx.coherent (hx.bindings_found hb) vs
      refine ⟨⟨id, hb⟩, (Safe.stands hparameters ?_ hbind).table, rfl⟩
      exact ⟨(ScopeTable.withoutValues_clear _ _).trans hr₂.table, hr₂.cursor⟩

omit hc

/-- Whatever a run visits, it does so at the place that follows from the tree. -/
theorem Visits.placed {start : Nat} {path : Path} {φ : Phrase} {r : RunState}
    (h : x.Visits start n path φ r) : (Phrase.items x.items).at? path = some φ ∧
      r.Stands x.scopes ((Phrase.items x.items).cursorAt x.scopes .global path) := by
  induction h with
  | start =>
      exact ⟨rfl, ScopeTable.withoutValues_of_unassigned hx.unassigned, rfl⟩
  | part _ hreach hpart ih =>
      obtain ⟨hat, hstands⟩ := ih
      have hwithin := hx.tree.within_at_path hx.coherent (ScopeTable.within_global _) hat
      rw [Phrase.cursorAt_part hat hpart]
      exact ⟨Phrase.at?_part hat hpart, hreach.stands hx hwithin (hx.tree.at_path hat) hstands⟩
  | body _ hinvoke hbody ih =>
      obtain ⟨hat, hstands⟩ := ih
      have hwithin := hx.tree.within_at_path hx.coherent (ScopeTable.within_global _) hat
      rw [Phrase.cursorAt_part hbody rfl]
      exact ⟨Phrase.at?_part hbody rfl,
        (hinvoke.stands hx hwithin (hx.tree.at_path hat) hstands).2⟩

end Executable

end BlockLang
