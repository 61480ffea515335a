/-
  BlockLang.Proofs.Scope.Valuation

  Tables that differ in the values of their variables only.

  A run changes values and nothing else in its table.  Lookups do not read values,
  so they give the same results throughout a run.  The second part says what setting,
  clearing and restoring variables does to values.
-/
import BlockLang.Proofs.Scope.Extension

namespace BlockLang.ScopeTable

/-- The table with no values. -/
def withoutValues (t : ScopeTable) : ScopeTable :=
  { t with vars := t.vars.map fun v => { v with value := none } }

theorem withoutValues_of_unassigned {t : ScopeTable} (h : ∀ v, t.value? v = none) :
    t.withoutValues = t := by
  have hvars : (t.vars.map fun v => { v with value := none }) = t.vars := by
    refine Array.ext (by simp) fun i hi hi' => ?_
    have hvalue := h i
    rw [value?, Array.getElem?_eq_getElem hi', Option.bind_some] at hvalue
    simp [← hvalue]
  rw [withoutValues, hvars]

/-- Two tables that differ in values only and have the same values are the same. -/
theorem eq_of_values {t u : ScopeTable} (htable : t.withoutValues = u.withoutValues)
    (hvalues : ∀ v, t.value? v = u.value? v) : t = u := by
  obtain ⟨classes, methods, vars, global, bodyCount⟩ := t
  obtain ⟨classes', methods', vars', global', bodyCount'⟩ := u
  simp only [withoutValues, mk.injEq] at htable
  obtain ⟨rfl, rfl, hvars, rfl, rfl⟩ := htable
  have hsize : vars.size = vars'.size := by simpa using congrArg Array.size hvars
  congr 1
  refine Array.ext hsize fun i hi hi' => ?_
  -- The entries agree in their values and in all the rest.
  have hentry := congrArg (·[i]?) hvars
  have hvalue := hvalues i
  simp only [value?, Array.getElem?_map, Array.getElem?_eq_getElem hi,
    Array.getElem?_eq_getElem hi', Option.map_some, Option.bind_some] at hentry hvalue
  generalize vars[i] = entry at hentry hvalue ⊢
  generalize vars'[i] = entry' at hentry hvalue ⊢
  cases entry
  cases entry'
  simp_all

/-! ## Lookups -/

@[simp] theorem members_withoutValues (t : ScopeTable) (owner : Owner) :
    t.withoutValues.members owner = t.members owner := by
  cases owner <;> rfl

@[simp] theorem heading?_withoutValues (t : ScopeTable) (e : Entity) :
    t.withoutValues.heading? e = t.heading? e := by
  cases e <;> simp [withoutValues, heading?, Function.comp_def]

@[simp] theorem name?_withoutValues (t : ScopeTable) (e : Entity) :
    t.withoutValues.name? e = t.name? e := by
  rw [name?_eq, heading?_withoutValues, ← name?_eq]

@[simp] theorem ownerOf?_withoutValues (t : ScopeTable) (e : Entity) :
    t.withoutValues.ownerOf? e = t.ownerOf? e := by
  rw [ownerOf?, place?, heading?_withoutValues, ← place?, ← ownerOf?]

@[simp] theorem implementations_withoutValues (t : ScopeTable) (m : MethodId) :
    t.withoutValues.implementations m = t.implementations m := rfl

@[simp] theorem bodyCursor_withoutValues (t : ScopeTable) (m : MethodId) :
    t.withoutValues.bodyCursor m = t.bodyCursor m := rfl

@[simp] theorem size_vars_withoutValues (t : ScopeTable) :
    t.withoutValues.vars.size = t.vars.size := by
  simp [withoutValues]

@[simp] theorem find?_withoutValues (t : ScopeTable) (owner : Owner) (kind : EntityKind)
    (name : String) : t.withoutValues.find? owner kind name = t.find? owner kind name := by
  simp [find?]

@[simp] theorem findDeclared_withoutValues (t : ScopeTable) (kind : EntityKind) (name : String)
    (c : Cursor) : t.withoutValues.findDeclared kind name c = t.findDeclared kind name c :=
  find?_withoutValues t _ _ _

theorem methodsAround_withoutValues (t : ScopeTable) (budget : Nat) (m : Option MethodId) :
    t.withoutValues.methodsAround budget m = t.methodsAround budget m := by
  induction budget generalizing m with
  | zero => rfl
  | succ budget ih =>
      cases m with
      | none => rfl
      | some m => rw [methodsAround_succ, methodsAround_succ, ih]; rfl

@[simp] theorem lookupChain_withoutValues (t : ScopeTable) (c : Cursor) :
    t.withoutValues.lookupChain c = t.lookupChain c := by
  rw [lookupChain, lookupChain, methodsAround_withoutValues]
  rfl

@[simp] theorem resolve_withoutValues (t : ScopeTable) (name : String) (c : Cursor) :
    t.withoutValues.resolve name c = t.resolve name c := by
  have hentity : t.withoutValues.entityIn? name = t.entityIn? name := by
    funext owner
    simp [entityIn?]
  rw [resolve, resolve, lookupChain_withoutValues, hentity]

theorem Within.of_withoutValues {t : ScopeTable} {c : Cursor} (h : t.withoutValues.Within c) :
    t.Within c := ⟨h.cls, h.method⟩

theorem Coherent.of_withoutValues {t : ScopeTable} (h : t.withoutValues.Coherent) :
    t.Coherent := by
  have hplace (e : Entity) : t.withoutValues.place? e = t.place? e := by
    rw [place?, heading?_withoutValues, ← place?]
  constructor
  · intro owner kind id
    have howned := h.owned owner kind id
    rw [members_withoutValues, ownerOf?_withoutValues] at howned
    exact howned
  · exact fun e c hc => .of_withoutValues (h.within e c ((hplace e).trans hc))
  · exact fun id c outer hc => h.outer_class_lt id c outer ((hplace _).trans hc)
  · exact fun id c outer hc => h.outer_method_lt id c outer ((hplace _).trans hc)
  · exact h.implemented
  · exact h.one_method

/-! ## Setting values -/

@[simp] theorem withoutValues_setValue (t : ScopeTable) (v : VariableId) (x : Option Value) :
    (t.setValue v x).withoutValues = t.withoutValues := by
  have hvars : ((t.vars.modify v fun e => { e with value := x }).map
      fun e => { e with value := none }) = t.vars.map fun e => { e with value := none } := by
    refine Array.ext (by simp) fun i hi hi' => ?_
    simp only [Array.getElem_map, Array.getElem_modify]
    split <;> rfl
  simp only [withoutValues, setValue, hvars]

theorem value?_setValue_of_ne (t : ScopeTable) {v w : VariableId} (h : w ≠ v) (x : Option Value) :
    (t.setValue v x).value? w = t.value? w := by
  simp [value?, setValue, Array.getElem?_modify, Ne.symm h]

theorem value?_setValue_self {t : ScopeTable} {v : VariableId} (h : v < t.vars.size)
    (x : Option Value) : (t.setValue v x).value? v = x := by
  rw [value?, setValue, Array.getElem?_modify, if_pos rfl, Array.getElem?_eq_getElem h]
  rfl

theorem value?_of_size_le {t : ScopeTable} {v : VariableId} (h : t.vars.size ≤ v) :
    t.value? v = none := by
  simp [value?, Array.getElem?_eq_none h]

theorem size_vars_eq {t u : ScopeTable} (h : t.withoutValues = u.withoutValues) :
    t.vars.size = u.vars.size := by
  rw [← size_vars_withoutValues, h, size_vars_withoutValues]

/-- Takes the values of some variables away. -/
def clear (t : ScopeTable) (vs : List VariableId) : ScopeTable :=
  vs.foldl (fun t v => t.setValue v none) t

@[simp] theorem withoutValues_clear (t : ScopeTable) (vs : List VariableId) :
    (t.clear vs).withoutValues = t.withoutValues := by
  induction vs generalizing t with
  | nil => rfl
  | cons v vs ih => exact (ih _).trans (withoutValues_setValue t v none)

theorem value?_clear_of_not_mem (t : ScopeTable) {vs : List VariableId} {w : VariableId}
    (h : w ∉ vs) : (t.clear vs).value? w = t.value? w := by
  induction vs generalizing t with
  | nil => rfl
  | cons v vs ih =>
      rw [List.mem_cons, not_or] at h
      exact (ih _ h.2).trans (value?_setValue_of_ne t h.1 none)

theorem value?_clear_of_mem (t : ScopeTable) {vs : List VariableId} {w : VariableId}
    (h : w ∈ vs) : (t.clear vs).value? w = none := by
  by_cases hlt : w < t.vars.size
  · induction vs generalizing t with
    | nil => cases h
    | cons v vs ih =>
        show ((t.setValue v none).clear vs).value? w = none
        have hlt' : w < (t.setValue v none).vars.size := by simpa [setValue] using hlt
        by_cases hmem : w ∈ vs
        · exact ih _ hmem hlt'
        · obtain rfl : w = v := (List.mem_cons.mp h).resolve_right hmem
          rw [value?_clear_of_not_mem _ hmem, value?_setValue_self hlt]
  · refine value?_of_size_le ?_
    rw [size_vars_eq (withoutValues_clear t vs)]
    exact Nat.le_of_not_lt hlt

/-- Gives some variables the values that they have in another table. -/
def restore (t u : ScopeTable) (vs : List VariableId) : ScopeTable :=
  (vs.map fun v => (v, u.value? v)).foldr (fun (v, value) t => t.setValue v value) t

@[simp] theorem withoutValues_restore (t u : ScopeTable) (vs : List VariableId) :
    (t.restore u vs).withoutValues = t.withoutValues := by
  induction vs with
  | nil => rfl
  | cons v vs ih => exact (withoutValues_setValue _ v _).trans ih

theorem value?_restore {t u : ScopeTable} (h : t.vars.size = u.vars.size) (vs : List VariableId)
    (w : VariableId) : (t.restore u vs).value? w = if w ∈ vs then u.value? w else t.value? w := by
  induction vs with
  | nil => simp [restore]
  | cons v vs ih =>
      have hstep : t.restore u (v :: vs) = (t.restore u vs).setValue v (u.value? v) := rfl
      rw [hstep]
      by_cases hw : w = v
      · subst hw
        rw [if_pos List.mem_cons_self]
        by_cases hlt : w < t.vars.size
        · refine value?_setValue_self ?_ _
          rw [size_vars_eq (withoutValues_restore t u vs)]
          exact hlt
        · -- An id outside of the table has no value in either of the two.
          have hle : t.vars.size ≤ w := Nat.le_of_not_lt hlt
          have hu : u.value? w = none := value?_of_size_le (h ▸ hle)
          rw [hu]
          refine value?_of_size_le ?_
          rw [size_vars_eq ((withoutValues_setValue _ w _).trans (withoutValues_restore t u vs))]
          exact hle
      · rw [value?_setValue_of_ne _ hw, ih]
        simp [hw]

end BlockLang.ScopeTable
