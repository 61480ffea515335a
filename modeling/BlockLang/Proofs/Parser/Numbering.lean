/-
  BlockLang.Proofs.Parser.Numbering

  How the parser numbers bodies.

  A body gets its number behind its block, so bodies are numbered in the order in which
  they end, without gaps, and each number goes to the end of the list of its method.
  Nothing else touches the numbers or the lists.
-/
import BlockLang.Proofs.Parser.Acceptance
import BlockLang.Proofs.Parser.Passage

namespace BlockLang

/-- Both orders list the same bodies. -/
theorem Phrase.perm_bodiesByEnd (φ : Phrase) : φ.bodiesByEnd.Perm φ.bodies := by
  induction φ using induction_on_parts with
  | _ φ ih =>
      rw [bodiesByEnd_eq, bodies_eq]
      have hparts : (φ.parts.flatMap bodiesByEnd).Perm (φ.parts.flatMap bodies) :=
        List.Perm.flatMap_left φ.parts ih
      exact (hparts.append_right _).trans List.perm_append_comm

namespace ScopeTable

/-- From the first table to the second one exactly these bodies are numbered, in this
    order. -/
structure Numbers (t : ScopeTable) (bodies : List MethodBody) (u : ScopeTable) : Prop where
  bodyCount : u.bodyCount = t.bodyCount + bodies.length
  ids : bodies.map (·.head.id) = List.range' t.bodyCount bodies.length
  implementations : ∀ m, u.implementations m =
    t.implementations m ++ (bodies.filter (·.head.method == m)).map (·.head.id)

namespace Numbers

variable {t u v : ScopeTable}

/-- No body is numbered where the count and the lists stay as they are. -/
theorem of_none (hcount : u.bodyCount = t.bodyCount)
    (himplementations : ∀ m, u.implementations m = t.implementations m) : t.Numbers [] u where
  bodyCount := hcount
  ids := rfl
  implementations m := by
    rw [himplementations m, List.filter_nil, List.map_nil, List.append_nil]

@[simp] theorem refl (t : ScopeTable) : t.Numbers [] t := of_none rfl fun _ => rfl

theorem append {bodies bodies' : List MethodBody} (h : t.Numbers bodies u)
    (h' : u.Numbers bodies' v) : t.Numbers (bodies ++ bodies') v where
  bodyCount := by
    rw [h'.bodyCount, h.bodyCount, List.length_append, Nat.add_assoc]
  ids := by
    rw [List.map_append, h.ids, h'.ids, h.bodyCount, List.length_append, List.range'_append_1]
  implementations m := by
    rw [h'.implementations, h.implementations, List.filter_append, List.map_append,
      List.append_assoc]

/-- Declarations number no body. -/
theorem of_registers {kind : EntityKind} {new : Heading} (h : t.Registers kind new u) :
    t.Numbers [] u :=
  of_none h.bodyCount h.implementations

theorem bindParameter {m : MethodId} (hm : m < t.methods.size) (name : String) :
    t.Numbers [] (t.bindParameter m name).2 := by
  rcases bindParameter_cases hm name with ⟨_, hsame⟩ | ⟨_, hnew⟩
  · rw [hsame]
    exact .refl t
  · exact .of_registers hnew

theorem addImplementation {m : MethodId} (hm : m < t.methods.size) (name : Ident)
    (ps : List Pattern) (block : List Item) :
    t.Numbers [⟨⟨(t.addImplementation m).1, m, name, ps⟩, block⟩] (t.addImplementation m).2 where
  bodyCount := rfl
  ids := rfl
  implementations id := by
    rw [implementations_addImplementation hm]
    by_cases hid : id = m
    · subst hid
      simp [ScopeTable.addImplementation]
    · simp [hid, Ne.symm hid]

/-- Counting from an empty table gives every number below the count. -/
theorem ids_of_empty {bodies : List MethodBody} (h : empty.Numbers bodies u) :
    bodies.map (·.head.id) = List.range u.bodyCount := by
  rw [h.ids, h.bodyCount, List.range_eq_range', show empty.bodyCount = 0 from rfl, Nat.zero_add]

theorem implementations_of_empty {bodies : List MethodBody} (h : empty.Numbers bodies u)
    (m : MethodId) : u.implementations m =
      (bodies.filter (·.head.method == m)).map (·.head.id) := by
  have hnone : empty.implementations m = [] := by
    simp [empty, ScopeTable.implementations]
  rw [h.implementations, hnone, List.nil_append]

end Numbers

end ScopeTable

/-- Passages follow one another from table to table, and between them no body is
    numbered. -/
def Following (t : ScopeTable) : List Passage → ScopeTable → Prop
  | [], u => t.Numbers [] u
  | σ :: parts, u => t.Numbers [] σ.before.scopes ∧ Following σ.after.scopes parts u

/-- A production numbers the body that it makes, if any, behind its parts. -/
theorem Production.following {φ : Phrase} {s s' : ParseState} {parts : List Passage}
    (h : Production φ s parts s') (hs : s.Ready φ) (hparts : ∀ σ ∈ parts, σ.Read) :
    ∃ u, Following s.scopes parts u ∧ u.Numbers φ.ownBody s'.scopes := by
  have hspan := h.spans_of_read hs hparts
  induction h with
  | @binding s m _ =>
      have hm : m < s.scopes.methods.size := hs.within.method m (hs.inBody m rfl)
      exact ⟨_, .refl _, .bindParameter hm _⟩
  | classDecl _ _ hadd _ =>
      obtain ⟨-, -, hreg⟩ := ScopeTable.registers_declareClass (hs.within.hasOwner .cls) hadd
      exact ⟨_, ⟨.of_registers hreg, .refl _⟩, by simp [Phrase.ownBody]⟩
  | @methodDecl s s₁ id scopes types _ _ _ _ hadd =>
      have hσ := hspan.ready _ List.mem_cons_self
      have hs₁ := hσ.grows ((hparts _ List.mem_cons_self).grows hσ)
      obtain ⟨-, -, hreg⟩ := ScopeTable.registers_declareMethod (hs₁.within.hasOwner .method) hadd
      rw [ParseState.pass_scopes]
      exact ⟨_, ⟨by simp, .refl _⟩, .of_registers hreg⟩
  | @varDecl s id scopes _ _ _ hadd =>
      obtain ⟨-, -, hreg⟩ := ScopeTable.registers_declareVariable (hs.within.hasOwner .var) hadd
      rw [ParseState.pass_scopes]
      exact ⟨_, .refl _, .of_registers hreg⟩
  | @assignItem _ _ target e _ hprod ih =>
      have hs₁ := hs.part (ψ := .expr (.assign target e)) (.refl _) rfl
      rw [ParseState.pass_scopes]
      exact ih hs₁ hparts (hprod.spans_of_read hs₁ hparts)
  | @callItem _ _ callee args _ hprod ih =>
      have hs₁ := hs.part (ψ := .expr (.call callee args)) (.refl _) rfl
      rw [ParseState.pass_scopes]
      exact ih hs₁ hparts (hprod.spans_of_read hs₁ hparts)
  | @methodBody s s₁ s₂ m ps body _ hm _ _ _ _ =>
      -- The method is in the table from the start, so it is there behind the block.
      have hlt : m < s₂.scopes.methods.size := by
        have h := (hs.coherent.resolveMethod_lt hm).trans_le
          (hspan.grows.extension.count_le .method)
        simpa [ScopeTable.count, ScopeTable.addImplementation] using h
      rw [ParseState.pass_scopes]
      exact ⟨s₂.scopes, ⟨by simp, by simp, .refl _⟩, .addImplementation hlt _ _ _⟩
  | _ =>
      refine ⟨_, ?_, .refl _⟩
      simp [Following]

/-- Passages that follow one another number the bodies in them one after the other. -/
theorem Following.numbers {t u : ScopeTable} {parts : List Passage} (h : Following t parts u)
    (hparts : ∀ σ ∈ parts, σ.before.scopes.Numbers σ.phrase.bodiesByEnd σ.after.scopes) :
    t.Numbers ((parts.map (·.phrase)).flatMap Phrase.bodiesByEnd) u := by
  induction parts generalizing t with
  | nil => exact h
  | cons σ parts ih =>
      obtain ⟨hbefore, hrest⟩ := h
      have hσ := hparts σ List.mem_cons_self
      have hmore := ih hrest fun τ hτ => hparts τ (List.mem_cons_of_mem σ hτ)
      exact (hbefore.append hσ).append hmore

/-- The bodies read in a passage are numbered in the order in which they end. -/
theorem Passage.Read.numbers {ρ : Passage} (h : ρ.Read) (hρ : ρ.before.Ready ρ.phrase) :
    ρ.before.scopes.Numbers ρ.phrase.bodiesByEnd ρ.after.scopes := by
  induction h with
  | @intro φ s s' parts hprod hparts ih =>
      have hspan := hprod.spans_of_read hρ hparts
      obtain ⟨u, hfollowing, hown⟩ := hprod.following hρ hparts
      have hinner := hfollowing.numbers fun σ hσ => ih σ hσ (hspan.ready σ hσ)
      rw [hprod.map_phrase] at hinner
      rw [Phrase.bodiesByEnd_eq]
      exact hinner.append hown

end BlockLang
