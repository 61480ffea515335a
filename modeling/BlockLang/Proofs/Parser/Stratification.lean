/-
  BlockLang.Proofs.Parser.Stratification

  What is read is stratified.

  Each reader of expressions yields expressions that are tight enough for the places where
  it is used: a level of operators adds operations of its own tightness to what the next
  tighter level yields.  This is about results only, so it holds from every state and for
  every budget, and the expressions in items are stratified even in programs with errors.
-/
import BlockLang.Proofs.Parser.Acceptance
import BlockLang.Proofs.Tree.Stratified

namespace BlockLang

/-- A stratified expression that holds together at least this tightly. -/
def Expr.Tight (k : Nat) (e : Expr) : Prop := k ≤ e.tightness ∧ e.Stratified

theorem Expr.Tight.mono {k k' : Nat} {e : Expr} (h : e.Tight k) (hk : k' ≤ k) : e.Tight k' :=
  ⟨hk.trans h.1, h.2⟩

namespace ParseM

variable {α β : Type} {V : α → Prop} {W : β → Prop}

/-! ## Results of readers -/

/-- Whether all results of a reader are such that `V` holds of them. -/
def Yields (V : α → Prop) (x : ParseM α) : Prop :=
  ∀ s a s', x.outcome s = (.ok a, s') → V a

theorem yields_any (x : ParseM α) : Yields (fun _ => True) x := fun _ _ _ _ => trivial

theorem Yields.mono {V' : α → Prop} {x : ParseM α} (h : Yields V x) (hV : ∀ a, V a → V' a) :
    Yields V' x :=
  fun s a s' ha => hV a (h s a s' ha)

theorem yields_pure {a : α} (ha : V a) : Yields V (pure a : ParseM α) := by
  intro s b s' h
  cases h
  exact ha

theorem yields_throw (e : ParseError) : Yields V (throw e : ParseM α) :=
  fun _ _ _ h => nomatch h

theorem yields_bind {x : ParseM α} {f : α → ParseM β} (hx : Yields V x)
    (hf : ∀ a, V a → Yields W (f a)) : Yields W (x >>= f) := by
  intro s b s' h
  obtain ⟨a, s₁, ha, hb⟩ := outcome_bind_ok.mp h
  exact hf a (hx s a s₁ ha) s₁ b s' hb

/-- A step whose result does not matter. -/
theorem yields_step {x : ParseM α} {f : α → ParseM β} (hf : ∀ a, Yields W (f a)) :
    Yields W (x >>= f) :=
  yields_bind (yields_any x) fun a _ => hf a

theorem yields_ite {c : Prop} [Decidable c] {x y : ParseM α} (hx : Yields V x)
    (hy : Yields V y) : Yields V (if c then x else y) := by
  split
  · exact hx
  · exact hy

theorem yields_withCursor {c : Cursor} {x : ParseM α} (hx : Yields V x) :
    Yields V (withCursor c x) := by
  intro s a s' h
  obtain ⟨s₁, hread, -⟩ := withCursor_ok h
  exact hx _ a s₁ hread

theorem yields_separated {element : ParseM α} (h : Yields V element) (budget : Nat) :
    Yields (fun as => ∀ a ∈ as, V a) (separated element budget) := by
  intro s as s' has
  refine (separated_ok (P := fun as _ _ => ∀ a ∈ as, V a) ?_ ?_ has).2
  · intro s a s' ha
    exact List.forall_mem_singleton.mpr (h s a s' ha)
  · intro s a s₁ b bs s' ha _ hbs
    exact List.forall_mem_cons.mpr ⟨h s a s₁ ha, hbs⟩

/-! ## Operations -/

theorem yields_binaryRest {level : Level} {operand : ParseM Expr}
    (hop : Yields (Expr.Tight (level.tightness + 1)) operand) (budget : Nat) {left : Expr}
    (hleft : left.Tight level.tightness) :
    Yields (Expr.Tight level.tightness) (binaryRest level operand budget left) := by
  -- The left operand that grows round by round is an operation of the level itself.
  induction budget generalizing left with
  | zero => exact yields_pure hleft
  | succ budget ih =>
      intro s e s' h
      rw [binaryRest, outcome_bind, outcome_get] at h
      dsimp only at h
      split at h
      · rename_i hcontains
        have hkind : s.current.kind ∈ level.operators := by simpa using hcontains
        refine yields_step (fun _ => yields_bind hop fun right hright => ih ?_) s e s' h
        refine ⟨le_rfl, Phrase.each_expr ⟨hkind, hleft.1, hright.1⟩ ?_⟩
        exact List.forall_mem_cons.mpr ⟨hleft.2, List.forall_mem_singleton.mpr hright.2⟩
      · cases h
        exact hleft

theorem yields_binary (level : Level) {operand : ParseM Expr}
    (hop : Yields (Expr.Tight (level.tightness + 1)) operand) (budget : Nat) :
    Yields (Expr.Tight level.tightness) (binary budget level operand) :=
  yields_bind hop fun _ hleft => yields_binaryRest hop budget (hleft.mono (Nat.le_succ _))

section Nested

variable {nested : ParseM Expr} (hn : Yields Expr.Stratified nested)
include hn

theorem yields_arguments (budget : Nat) :
    Yields (fun args => (Phrase.arguments args).Each Expr.Layered) (arguments budget nested) := by
  refine yields_step fun _ => yields_step fun s => yields_ite ?_ ?_
  · refine yields_bind (yields_pure (V := (· = [])) rfl) fun args hargs => ?_
    exact yields_step fun _ => yields_pure (Phrase.each_arguments.mpr (by simp [hargs]))
  · refine yields_bind (yields_separated hn budget) fun args hargs => ?_
    exact yields_step fun _ => yields_pure (Phrase.each_arguments.mpr hargs)

theorem yields_call (budget : Nat) :
    Yields (fun p => (Phrase.arguments p.2).Each Expr.Layered) (call budget nested) :=
  yields_step fun _ => yields_step fun _ =>
    yields_bind (yields_arguments hn budget) fun _ hargs => yields_pure hargs

theorem yields_assignment : Yields (fun p => p.2.Stratified) (assignment nested) :=
  yields_step fun _ => yields_step fun _ => yields_step fun _ =>
    yields_bind hn fun _ hvalue => yields_pure hvalue

/-- An expression without operators is as tight as can be. -/
theorem yields_primary (budget : Nat) :
    Yields (Expr.Tight (signTightness + 1)) (primary budget nested) := by
  have hleaf {e : Expr} (hparts : (Phrase.expr e).parts = []) (he : e.Layered) : e.Stratified :=
    Phrase.each_expr he fun part hpart => absurd (hparts ▸ hpart) List.not_mem_nil
  have hliteral : Yields (Expr.Tight (signTightness + 1)) literal := by
    refine yields_step fun t => ?_
    split
    · exact yields_pure ⟨le_rfl, hleaf rfl trivial⟩
    · exact yields_throw _
  have hname : Yields (Expr.Tight (signTightness + 1)) nameUse := by
    refine yields_step fun t => yields_step fun s => yields_ite ?_ (yields_throw _)
    exact yields_pure ⟨le_rfl, hleaf rfl trivial⟩
  have hnone : Yields (Expr.Tight (signTightness + 1)) noExpression :=
    yields_step fun _ => yields_throw _
  have hcall : Yields (Expr.Tight (signTightness + 1))
      (call budget nested >>= fun p => pure (.call p.1 p.2)) := by
    refine yields_bind (yields_call hn budget) fun p hargs => yields_pure ⟨le_rfl, ?_⟩
    exact Phrase.each_expr trivial (List.forall_mem_singleton.mpr hargs)
  have hgrouping : Yields (Expr.Tight (signTightness + 1)) (grouping nested) := by
    refine yields_step fun _ => yields_bind hn fun inner hinner => yields_step fun _ => ?_
    refine yields_ite (yields_pure ⟨le_rfl, ?_⟩) (yields_throw _)
    exact Phrase.each_expr trivial (List.forall_mem_singleton.mpr hinner)
  refine yields_step fun s => ?_
  dsimp only
  split
  case h_6 => exact yields_ite hcall hname
  case h_7 => exact yields_ite hcall hnone
  case h_8 => exact hgrouping
  case h_9 => exact hnone
  all_goals exact hliteral

theorem yields_unary (budget signs : Nat) :
    Yields (Expr.Tight signTightness) (unary budget nested signs) := by
  have hprimary := (yields_primary hn budget).mono fun _ he => he.mono (Nat.le_succ signTightness)
  induction signs with
  | zero => exact hprimary
  | succ signs ih =>
      refine yields_step fun s => ?_
      dsimp only
      split
      · rename_i hsign
        refine yields_step fun _ => yields_bind ih fun operand hoperand => ?_
        refine yields_pure ⟨le_rfl, Phrase.each_expr ⟨?_, hoperand.1⟩ ?_⟩
        · simpa [Operator.ofToken] using hsign
        · exact List.forall_mem_singleton.mpr hoperand.2
      · exact hprimary

theorem yields_operation (budget : Nat) : Yields Expr.Stratified (operation budget nested) := by
  have hmultiplication := yields_binary .multiplication (yields_unary hn budget budget) budget
  have haddition := yields_binary .addition hmultiplication budget
  have hcomparison := yields_binary .comparison haddition budget
  have hequality := yields_binary .equality hcomparison budget
  exact (yields_binary .logic hequality budget).mono fun _ he => he.2

end Nested

/-- Every expression that is read is stratified. -/
theorem yields_expression (budget : Nat) : Yields Expr.Stratified (expression budget) := by
  induction budget with
  | zero => exact yields_step fun _ => yields_throw _
  | succ budget ih =>
      refine yields_step fun s => yields_ite ?_ (yields_operation ih (budget + 1))
      refine yields_bind (yields_assignment ih) fun p hvalue => yields_pure ?_
      exact Phrase.each_expr trivial (List.forall_mem_singleton.mpr hvalue)

/-! ## Items -/

theorem yields_pattern (budget : Nat) (m : MethodId) :
    Yields (fun p => (Phrase.pattern m p).Each Expr.Layered) (pattern budget m) := by
  refine yields_step fun s => yields_ite ?_ ?_
  · refine yields_step fun t => yields_step fun _ => yields_pure ?_
    exact Phrase.each_parts nofun fun _ hpart => absurd hpart List.not_mem_nil
  · refine yields_bind (yields_unary (yields_expression budget) budget budget) ?_
    intro value hvalue
    refine yields_ite (yields_pure ?_) (yields_throw _)
    exact Phrase.each_parts nofun (List.forall_mem_singleton.mpr hvalue.2)

theorem each_patterns {m : MethodId} {ps : List Pattern} {P : Expr → Prop}
    (h : ∀ p ∈ ps, (Phrase.pattern m p).Each P) : (Phrase.patterns m ps).Each P := by
  induction ps with
  | nil => exact Phrase.each_parts nofun fun _ hpart => absurd hpart List.not_mem_nil
  | cons p ps ih =>
      obtain ⟨hp, hps⟩ := List.forall_mem_cons.mp h
      refine Phrase.each_parts nofun (List.forall_mem_cons.mpr ⟨hp, ?_⟩)
      exact List.forall_mem_singleton.mpr (ih hps)

section Items

variable {content : StateM ParseState (List Item)}
  (hc : ∀ s, (Phrase.items (content.run s).1).Each Expr.Layered)
include hc

theorem yields_block (construct : Construct) (line : Nat) :
    Yields (fun body => (Phrase.items body).Each Expr.Layered) (block construct line content) := by
  intro s body s' h
  obtain ⟨rfl, -, -⟩ := block_ok h
  exact hc s

theorem yields_conditional (budget : Nat) (construct : Construct)
    {make : Expr → List Item → Nat → Item}
    (hmake : ∀ e body line, (Phrase.item (make e body line)).parts = [.expr e, .items body]) :
    Yields (fun i => (Phrase.item i).Each Expr.Layered)
      (conditional budget construct make content) := by
  refine yields_step fun t => yields_bind (yields_expression budget) fun e he => ?_
  refine yields_step fun _ => yields_bind (yields_block hc construct t.line) fun body hbody => ?_
  refine yields_pure (Phrase.each_parts nofun ?_)
  rw [hmake]
  exact List.forall_mem_cons.mpr ⟨he, List.forall_mem_singleton.mpr hbody⟩

theorem yields_methodBodyRest (budget : Nat) (name : Ident) (m : MethodId) :
    Yields (fun i => (Phrase.item i).Each Expr.Layered)
      (methodBodyRest budget name m content) := by
  have hbody := yields_block hc .methodBody name.line
  have hparts {ps : List Pattern} {body : List Item} (id : BodyId)
      (hps : ∀ p ∈ ps, (Phrase.pattern m p).Each Expr.Layered)
      (hbody : (Phrase.items body).Each Expr.Layered) :
      (Phrase.item (.methodBody ⟨id, m, name, ps⟩ body)).Each Expr.Layered :=
    Phrase.each_parts nofun
      (List.forall_mem_cons.mpr ⟨each_patterns hps, List.forall_mem_singleton.mpr hbody⟩)
  refine yields_step fun _ => yields_step fun s => yields_ite ?_ ?_
  · refine yields_bind (yields_pure (V := (· = [])) rfl) fun ps hps => ?_
    refine yields_step fun _ => yields_step fun _ => yields_bind hbody fun body hitems => ?_
    exact yields_step fun _ => yields_step fun _ => yields_pure (hparts _ (by simp [hps]) hitems)
  · refine yields_bind (yields_separated (yields_pattern budget m) budget) fun ps hps => ?_
    refine yields_step fun _ => yields_step fun _ => yields_bind hbody fun body hitems => ?_
    exact yields_step fun _ => yields_step fun _ => yields_pure (hparts _ hps hitems)

theorem yields_bareStatement (budget : Nat) :
    Yields (fun i => (Phrase.item i).Each Expr.Layered) (bareStatement budget content) := by
  have hexpr : Yields (fun i => (Phrase.item i).Each Expr.Layered)
      (expression budget >>= fun e => pure (.expr e)) :=
    yields_bind (yields_expression budget) fun e he =>
      yields_pure (Phrase.each_parts nofun (List.forall_mem_singleton.mpr he))
  have hcall : Yields (fun i => (Phrase.item i).Each Expr.Layered) (callStatement budget) :=
    yields_bind (yields_call (yields_expression budget) budget) fun p hargs =>
      yields_pure (Phrase.each_parts nofun (List.forall_mem_singleton.mpr hargs))
  have hassign : Yields (fun i => (Phrase.item i).Each Expr.Layered)
      (assignment (expression budget) >>= fun p => pure (.assign p.1 p.2)) :=
    yields_bind (yields_assignment (yields_expression budget)) fun p hvalue =>
      yields_pure (Phrase.each_parts nofun (List.forall_mem_singleton.mpr hvalue))
  have hbody : Yields (fun i => (Phrase.item i).Each Expr.Layered)
      (methodBody budget content) := by
    refine yields_step fun t => yields_step fun s => ?_
    split
    · exact yields_withCursor (yields_methodBodyRest hc budget _ _)
    · exact yields_step fun _ => yields_throw _
  refine yields_step fun s => ?_
  dsimp only
  split
  · exact yields_conditional hc budget .whileLoop fun _ _ _ => rfl
  · exact yields_conditional hc budget .ifThen fun _ _ _ => rfl
  · exact yields_ite (yields_ite hbody hcall) (yields_ite hassign hexpr)
  · exact yields_ite hcall hexpr
  · exact hexpr

theorem yields_item (budget : Nat) :
    Yields (fun i => (Phrase.item i).Each Expr.Layered) (item budget content) := by
  have htypes (names : List String) : (Phrase.types names).Each Expr.Layered := by
    induction names with
    | nil => exact Phrase.each_parts nofun fun _ hpart => absurd hpart List.not_mem_nil
    | cons name names ih =>
        refine Phrase.each_parts nofun ?_
        cases names with
        | nil => exact fun _ hpart => absurd hpart List.not_mem_nil
        | cons name' names => exact List.forall_mem_singleton.mpr ih
  have hclass : Yields (fun i => (Phrase.item i).Each Expr.Layered)
      (classDeclaration content) := by
    refine yields_step fun t => yields_step fun t' => yields_step fun s => ?_
    split
    · refine yields_step fun _ => ?_
      refine yields_bind (yields_withCursor (yields_block hc .classDecl t.line)) ?_
      intro body hbody
      exact yields_pure (Phrase.each_parts nofun (List.forall_mem_singleton.mpr hbody))
    · exact yields_step fun _ => yields_throw _
  have hmethod : Yields (fun i => (Phrase.item i).Each Expr.Layered)
      (methodDeclaration budget) :=
    yields_step fun _ => yields_step fun _ => yields_step fun _ => yields_step fun _ =>
      yields_step fun types => yields_step fun _ => yields_step fun _ =>
        yields_pure (Phrase.each_parts nofun (List.forall_mem_singleton.mpr (htypes types)))
  have hvar : Yields (fun i => (Phrase.item i).Each Expr.Layered) varDeclaration :=
    yields_step fun _ => yields_step fun _ => yields_step fun _ => yields_step fun _ =>
      yields_step fun _ =>
        yields_pure (Phrase.each_parts nofun fun _ hpart => absurd hpart List.not_mem_nil)
  refine yields_step fun s => ?_
  refine yields_ite hclass (yields_ite hmethod (yields_ite hvar ?_))
  exact yields_bind (yields_bareStatement hc budget) fun i hi => yields_step fun _ => yields_pure hi

end Items

end ParseM

/-- Every expression in items that are read is stratified. -/
theorem each_parseItems (budget : Nat) (inBlock : Bool) (s : ParseState) :
    (Phrase.items ((parseItems budget inBlock).run s).1).Each Expr.Layered := by
  have hnil : (Phrase.items []).Each Expr.Layered :=
    Phrase.each_parts nofun fun _ hpart => absurd hpart List.not_mem_nil
  induction budget generalizing inBlock s with
  | zero => exact hnil
  | succ budget ih =>
      rw [parseItems_succ]
      split
      · exact hnil
      · split
        · rename_i i s₁ hi
          have hitem := ParseM.yields_item (ih true) (budget + 1) s i s₁ hi
          refine Phrase.each_parts nofun (List.forall_mem_cons.mpr ⟨hitem, ?_⟩)
          exact List.forall_mem_singleton.mpr (ih inBlock s₁)
        · exact ih inBlock _

end BlockLang
