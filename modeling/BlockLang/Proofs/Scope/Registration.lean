/-
  BlockLang.Proofs.Scope.Registration

  What adding a declaration does to a scope table.

  Every operation that declares an entity gives it the next id of its kind, lists
  it behind the other members of its owner and changes nothing else; this is
  `Registers`, and all that is known about growing tables follows from it.
  Numbering a body is the one other way in which tables grow.
-/
import BlockLang.Proofs.Scope.Extension

namespace BlockLang.ScopeTable

/-! ## Changing members -/

/-- Whether an owner is in a table. -/
def HasOwner (t : ScopeTable) : Owner → Prop
  | .global => True
  | .cls id => id < t.classes.size
  | .method id => id < t.methods.size

theorem Within.hasOwner {t : ScopeTable} {c : Cursor} (hc : t.Within c) (kind : EntityKind) :
    t.HasOwner (c.owner kind) := by
  have hclass : t.HasOwner c.classOwner := by
    cases hcls : c.cls with
    | none => simp [Cursor.classOwner, hcls, HasOwner]
    | some id => simpa [Cursor.classOwner, hcls, HasOwner] using hc.cls id hcls
  have hmember : t.HasOwner c.memberOwner := by
    cases hm : c.method with
    | none => simpa [Cursor.memberOwner, hm] using hclass
    | some id => simpa [Cursor.memberOwner, hm, HasOwner] using hc.method id hm
  cases kind
  · exact hclass
  · exact hmember
  · exact hmember

@[simp] theorem heading?_modifyMembers (t : ScopeTable) (f : Members → Members) (owner : Owner)
    (e : Entity) : (t.modifyMembers f owner).heading? e = t.heading? e := by
  cases owner <;> cases e <;>
    simp [modifyMembers, heading?, Array.getElem?_modify] <;> split <;> simp [Function.comp_def]

@[simp] theorem implementations_modifyMembers (t : ScopeTable) (f : Members → Members)
    (owner : Owner) (id : MethodId) :
    (t.modifyMembers f owner).implementations id = t.implementations id := by
  cases owner <;> simp [modifyMembers, implementations, Array.getElem?_modify]
  split <;> simp [Function.comp_def]

@[simp] theorem bodyCount_modifyMembers (t : ScopeTable) (f : Members → Members) (owner : Owner) :
    (t.modifyMembers f owner).bodyCount = t.bodyCount := by
  cases owner <;> rfl

@[simp] theorem value?_modifyMembers (t : ScopeTable) (f : Members → Members) (owner : Owner)
    (id : VariableId) : (t.modifyMembers f owner).value? id = t.value? id := by
  cases owner <;> rfl

theorem members_modifyMembers {t : ScopeTable} (f : Members → Members) {owner : Owner}
    (ho : t.HasOwner owner) (owner' : Owner) :
    (t.modifyMembers f owner).members owner' =
      if owner' = owner then f (t.members owner) else t.members owner' := by
  cases owner with
  | global => cases owner' <;> simp [modifyMembers, members]
  | cls id =>
      obtain ⟨entry, hget⟩ : ∃ e, t.classes[id]? = some e := ⟨_, Array.getElem?_eq_getElem ho⟩
      cases owner' with
      | global => simp [modifyMembers, members]
      | method _ => simp [modifyMembers, members]
      | cls id' =>
          by_cases hid : id' = id
          · subst hid
            simp [modifyMembers, members, Array.getElem?_modify, hget]
          · simp [modifyMembers, members, Array.getElem?_modify, hid, Ne.symm hid]
  | method id =>
      obtain ⟨entry, hget⟩ : ∃ e, t.methods[id]? = some e := ⟨_, Array.getElem?_eq_getElem ho⟩
      cases owner' with
      | global => simp [modifyMembers, members]
      | cls _ => simp [modifyMembers, members]
      | method id' =>
          by_cases hid : id' = id
          · subst hid
            simp [modifyMembers, members, Array.getElem?_modify, hget]
          · simp [modifyMembers, members, Array.getElem?_modify, hid, Ne.symm hid]

/-! ## Registering an entity -/

/-- The table `t'` is `t` with one more entity of a kind. -/
structure Registers (t : ScopeTable) (kind : EntityKind) (new : Heading) (t' : ScopeTable) :
    Prop where
  heading : ∀ e, t'.heading? e =
    if e = kind.entity (t.count kind) then some new else t.heading? e
  members : ∀ owner k, (t'.members owner).ofKind k = (t.members owner).ofKind k ++
    if owner = new.place.owner kind ∧ k = kind then [t.count kind] else []
  implementations : ∀ id, t'.implementations id = t.implementations id
  bodyCount : t'.bodyCount = t.bodyCount
  value : ∀ id, t'.value? id = t.value? id

/-- An entry behind the others of its kind that is then listed by its owner is
    registered. -/
theorem registers_of_push {t u : ScopeTable} (kind : EntityKind) (new : Heading)
    (ho : u.HasOwner (new.place.owner kind))
    (hheading : ∀ e, u.heading? e =
      if e = kind.entity (t.count kind) then some new else t.heading? e)
    (hmembers : ∀ owner, u.members owner = t.members owner)
    (himplementations : ∀ id, u.implementations id = t.implementations id)
    (hbodyCount : u.bodyCount = t.bodyCount) (hvalue : ∀ id, u.value? id = t.value? id) :
    t.Registers kind new
      (u.modifyMembers (·.add (kind.entity (t.count kind))) (new.place.owner kind)) where
  heading e := by rw [heading?_modifyMembers, hheading]
  members owner k := by
    rw [members_modifyMembers _ ho, hmembers, hmembers]
    by_cases howner : owner = new.place.owner kind
    · subst howner
      rw [if_pos rfl, Members.ofKind_add_entity]
      by_cases hk : kind = k
      · simp [hk]
      · simp [hk, Ne.symm hk]
    · rw [if_neg howner, if_neg (fun h => howner h.1), List.append_nil]
  implementations id := by rw [implementations_modifyMembers, himplementations]
  bodyCount := by rw [bodyCount_modifyMembers, hbodyCount]
  value id := by rw [value?_modifyMembers, hvalue]

theorem HasOwner.of_count_le {t u : ScopeTable} {owner : Owner} (ho : t.HasOwner owner)
    (hc : t.classes.size ≤ u.classes.size) (hm : t.methods.size ≤ u.methods.size) :
    u.HasOwner owner := by
  cases owner with
  | global => trivial
  | cls id => exact Nat.lt_of_lt_of_le ho hc
  | method id => exact Nat.lt_of_lt_of_le ho hm

theorem requireFresh_ok {t : ScopeTable} {owner : Owner} {kind : EntityKind} {name : String}
    {r : Unit} (h : t.requireFresh owner kind name = .ok r) : t.find? owner kind name = none := by
  cases hf : t.find? owner kind name with
  | none => rfl
  | some id => simp [requireFresh, hf] at h

theorem registers_declareClass {t t' : ScopeTable} {name : String} {c : Cursor} {id : ClassId}
    (ho : t.HasOwner c.classOwner) (h : t.declareClass name c = .ok (id, t')) :
    t.find? c.classOwner .cls name = none ∧ id = t.classes.size ∧
      t.Registers .cls (.cls name c.cls) t' := by
  cases hfresh : t.requireFresh c.classOwner .cls name with
  | error e => simp [declareClass, hfresh, bind, Except.bind] at h
  | ok _ =>
      obtain ⟨rfl, rfl⟩ : t.classes.size = id ∧ _ = t' := by
        simpa [declareClass, hfresh, bind, Except.bind, pure, Except.pure] using h
      refine ⟨requireFresh_ok hfresh, rfl, ?_⟩
      refine registers_of_push .cls (.cls name c.cls) ?_ ?_ ?_ (fun _ => rfl) rfl (fun _ => rfl)
      · exact ho.of_count_le (by simp) (by simp)
      · intro e
        cases e <;> simp [heading?, Array.getElem?_push, EntityKind.entity, count]
        split <;> simp
      · intro owner
        cases owner <;> simp [members, Array.getElem?_push]
        split <;> simp_all

theorem registers_declareMethod {t t' : ScopeTable} {name returnType : String}
    {parameterTypes : List String} {c : Cursor} {id : MethodId} (ho : t.HasOwner c.memberOwner)
    (h : t.declareMethod name returnType parameterTypes c = .ok (id, t')) :
    t.find? c.memberOwner .method name = none ∧ id = t.methods.size ∧
      t.Registers .method (.method name returnType parameterTypes c) t' := by
  cases hfresh : t.requireFresh c.memberOwner .method name with
  | error e => simp [declareMethod, hfresh, bind, Except.bind] at h
  | ok _ =>
      obtain ⟨rfl, rfl⟩ : t.methods.size = id ∧ _ = t' := by
        simpa [declareMethod, hfresh, bind, Except.bind, pure, Except.pure] using h
      refine ⟨requireFresh_ok hfresh, rfl, ?_⟩
      refine registers_of_push .method (.method name returnType parameterTypes c) ?_ ?_ ?_ ?_ rfl
        (fun _ => rfl)
      · exact ho.of_count_le (by simp) (by simp)
      · intro e
        cases e <;> simp [heading?, Array.getElem?_push, EntityKind.entity, count]
        split <;> simp
      · intro owner
        cases owner <;> simp [members, Array.getElem?_push]
        split <;> simp_all
      · intro id
        simp only [implementations, Array.getElem?_push]
        split <;> simp_all

theorem registers_addVariable {t : ScopeTable} {c : Cursor} (ho : t.HasOwner c.memberOwner)
    (name : String) :
    t.Registers .var (.var name c) (t.addVariable c.memberOwner name c).2 := by
  refine registers_of_push .var (.var name c) ?_ ?_ ?_ (fun _ => rfl) rfl ?_
  · exact ho.of_count_le (Nat.le_refl _) (Nat.le_refl _)
  · intro e
    cases e <;> simp [heading?, Array.getElem?_push, EntityKind.entity, count]
    split <;> simp
  · intro owner
    cases owner <;> rfl
  · intro id
    simp only [value?, Array.getElem?_push]
    split <;> simp_all

theorem registers_declareVariable {t t' : ScopeTable} {name : String} {c : Cursor}
    {id : VariableId} (ho : t.HasOwner c.memberOwner)
    (h : t.declareVariable name c = .ok (id, t')) :
    t.find? c.memberOwner .var name = none ∧ id = t.vars.size ∧
      t.Registers .var (.var name c) t' := by
  cases hfresh : t.requireFresh c.memberOwner .var name with
  | error e => simp [declareVariable, hfresh, bind, Except.bind] at h
  | ok _ =>
      have hadd : t.addVariable c.memberOwner name c = (id, t') := by
        simpa [declareVariable, hfresh, bind, Except.bind, pure, Except.pure] using h
      have hreg := registers_addVariable ho name
      rw [hadd] at hreg
      exact ⟨requireFresh_ok hfresh, (congrArg Prod.fst hadd).symm, hreg⟩

/-- The parameter of a method is a variable of the method that was there before, or
    a new one. -/
theorem bindParameter_cases {t : ScopeTable} {m : MethodId} (hm : m < t.methods.size)
    (name : String) :
    ((t.find? (.method m) .var name).isSome ∧ (t.bindParameter m name).2 = t) ∨
      (t.find? (.method m) .var name = none ∧
        t.Registers .var (.var name (t.bodyCursor m)) (t.bindParameter m name).2) := by
  cases hf : t.find? (.method m) .var name with
  | some id => exact .inl ⟨rfl, by rw [bindParameter, hf]⟩
  | none =>
      refine .inr ⟨rfl, ?_⟩
      rw [bindParameter, hf]
      exact registers_addVariable (c := t.bodyCursor m) hm name

/-! ## Growing tables -/

namespace Registers

variable {t t' : ScopeTable} {kind : EntityKind} {new : Heading} (h : t.Registers kind new t')
include h

theorem extension : t.Extends t' where
  heading e d he := by
    have hne : e ≠ kind.entity (t.count kind) := by
      rintro rfl
      have hlt := (heading?_isSome_iff t (kind.entity (t.count kind))).mp (by rw [he]; rfl)
      simp at hlt
    rw [h.heading, if_neg hne, he]
  members owner k := by
    rw [h.members]
    exact List.prefix_append _ _
  implementations id := h.implementations id ▸ List.prefix_rfl
  bodyCount := by rw [h.bodyCount]
  value := h.value

/-- The new entity is one of the table. -/
theorem lt_count : t.count kind < t'.count kind := by
  have hsome : (t'.heading? (kind.entity (t.count kind))).isSome := by
    rw [h.heading, if_pos rfl]
    rfl
  simpa using (heading?_isSome_iff t' _).mp hsome

/-- The new entity is found under its name, unless an older one is. -/
theorem find?_new (ht : t.Coherent)
    (hfresh : t.find? (new.place.owner kind) kind new.name = none) :
    t'.find? (new.place.owner kind) kind new.name = some (t.count kind) := by
  have hnew : t'.name? (kind.entity (t.count kind)) = some new.name := by
    rw [name?_eq, h.heading, if_pos rfl, Option.map_some]
  have hold : ((t.members (new.place.owner kind)).ofKind kind).find?
      (fun id => t'.name? (kind.entity id) == some new.name) = none := by
    rw [List.find?_eq_none]
    intro id hid hname
    have hlt := ht.lt_count_of_mem hid
    have hne : kind.entity id ≠ kind.entity (t.count kind) := fun he =>
      absurd (EntityKind.entity_inj he) (Nat.ne_of_lt hlt)
    rw [name?_eq, h.heading, if_neg hne, ← name?_eq] at hname
    rw [ScopeTable.find?, List.find?_eq_none] at hfresh
    exact hfresh id hid hname
  rw [ScopeTable.find?, h.members, if_pos ⟨rfl, rfl⟩, List.find?_append, hold]
  simp [hnew]

/-- A place that is on record is that of the new entity or one from before. -/
theorem place?_cases {e : Entity} {c : Cursor} (hc : t'.place? e = some c) :
    (e = kind.entity (t.count kind) ∧ c = new.place) ∨ t.place? e = some c := by
  rw [place?, h.heading] at hc
  split at hc
  · exact .inl ⟨‹_›, (Option.some.inj hc).symm⟩
  · exact .inr hc

theorem place?_entity_cases {k : EntityKind} {id : Nat} {c : Cursor}
    (hc : t'.place? (k.entity id) = some c) :
    (k = kind ∧ id = t.count kind ∧ c = new.place) ∨ t.place? (k.entity id) = some c := by
  rcases h.place?_cases hc with ⟨he, hplace⟩ | hc
  · obtain rfl : k = kind := by simpa using congrArg Entity.kind he
    exact .inl ⟨rfl, EntityKind.entity_inj he, hplace⟩
  · exact .inr hc

theorem ownerOf?_eq (e : Entity) :
    t'.ownerOf? e = if e = kind.entity (t.count kind) then some (new.place.owner kind)
      else t.ownerOf? e := by
  rw [ownerOf?, ownerOf?, place?, place?, h.heading]
  split
  · rename_i he
    rw [he, EntityKind.kind_entity]
    rfl
  · rfl

/-- Members and owners still agree: the new entity is listed by its owner only. -/
theorem owned (ht : t.Coherent) (owner : Owner) (k : EntityKind) (id : Nat) :
    id ∈ (t'.members owner).ofKind k ↔ t'.ownerOf? (k.entity id) = some owner := by
  rw [h.members, List.mem_append, h.ownerOf?_eq]
  by_cases he : k.entity id = kind.entity (t.count kind)
  · obtain rfl : k = kind := by simpa using congrArg Entity.kind he
    obtain rfl : id = t.count k := EntityKind.entity_inj he
    -- No owner listed this id before: ids in lists are below the count.
    have hold : t.count k ∉ (t.members owner).ofKind k := fun hmem =>
      absurd (ht.lt_count_of_mem hmem) (Nat.lt_irrefl _)
    by_cases ho : owner = new.place.owner k
    · simp [ho]
    · simp [hold, ho, Ne.symm ho]
  · rw [if_neg he, ← ht.owned]
    have hne : ¬(k = kind ∧ id = t.count kind) := fun hk => he (by rw [hk.1, hk.2])
    by_cases hk : owner = new.place.owner kind ∧ k = kind
    · rw [if_pos hk, List.mem_singleton]
      exact or_iff_left fun hid => hne ⟨hk.2, hid⟩
    · rw [if_neg hk]
      simp

/-- The new entity stands inside older ones only, as its place was there before it. -/
theorem coherent (ht : t.Coherent) (hplace : t.Within new.place) : t'.Coherent where
  owned := h.owned ht
  within e c hc := by
    rcases h.place?_cases hc with ⟨-, rfl⟩ | hc
    · exact h.extension.within hplace
    · exact h.extension.within (ht.within e c hc)
  outer_class_lt id c outer hc houter := by
    rcases h.place?_entity_cases (k := .cls) hc with ⟨rfl, rfl, rfl⟩ | hc
    · exact hplace.cls outer houter
    · exact ht.outer_class_lt id c outer hc houter
  outer_method_lt id c outer hc houter := by
    rcases h.place?_entity_cases (k := .method) hc with ⟨rfl, rfl, rfl⟩ | hc
    · exact hplace.method outer houter
    · exact ht.outer_method_lt id c outer hc houter
  implemented id b hb := by
    rw [h.implementations] at hb
    rw [h.bodyCount]
    exact ht.implemented id b hb
  one_method m m' b hm hm' := by
    rw [h.implementations] at hm hm'
    exact ht.one_method m m' b hm hm'

/-- Also when the table grows further, the new entity is the one that its name finds. -/
theorem find?_later {u : ScopeTable} (ht : t.Coherent) (hplace : t.Within new.place)
    (hfresh : t.find? (new.place.owner kind) kind new.name = none) (hu : t'.Extends u) :
    u.find? (new.place.owner kind) kind new.name = some (t.count kind) :=
  hu.find? (h.coherent ht hplace).listed (h.find?_new ht hfresh)

end Registers

theorem extends_bindParameter {t : ScopeTable} {m : MethodId} (hm : m < t.methods.size)
    (name : String) : t.Extends (t.bindParameter m name).2 := by
  rcases bindParameter_cases hm name with ⟨_, hsame⟩ | ⟨_, hnew⟩
  · rw [hsame]
    exact .refl t
  · exact hnew.extension

theorem Coherent.bindParameter {t : ScopeTable} (ht : t.Coherent) {m : MethodId}
    (hm : m < t.methods.size) (name : String) : (t.bindParameter m name).2.Coherent := by
  rcases bindParameter_cases hm name with ⟨_, hsame⟩ | ⟨_, hnew⟩
  · rw [hsame]
    exact ht
  · exact hnew.coherent ht (ht.within_bodyCursor hm)

/-- The variable of a parameter is found among those of its method. -/
theorem find?_bindParameter {t : ScopeTable} (ht : t.Coherent) {m : MethodId}
    (hm : m < t.methods.size) (name : String) :
    ((t.bindParameter m name).2.find? (.method m) .var name).isSome := by
  rcases bindParameter_cases hm name with ⟨hold, hsame⟩ | ⟨hfresh, hnew⟩
  · rw [hsame]
    exact hold
  · have hfind := hnew.find?_new ht hfresh
    rw [show (Heading.var name (t.bodyCursor m)).place.owner .var = .method m from rfl] at hfind
    exact Option.isSome_iff_exists.mpr ⟨_, hfind⟩

/-- Numbering a body changes the bodies of its method and the count, nothing else. -/
theorem implementations_addImplementation {t : ScopeTable} {m : MethodId}
    (hm : m < t.methods.size) (id : MethodId) :
    (t.addImplementation m).2.implementations id =
      t.implementations id ++ if id = m then [t.bodyCount] else [] := by
  obtain ⟨entry, hget⟩ : ∃ e, t.methods[m]? = some e := ⟨_, Array.getElem?_eq_getElem hm⟩
  by_cases hid : id = m
  · subst hid
    simp [addImplementation, implementations, Array.getElem?_modify, hget]
  · simp [addImplementation, implementations, Array.getElem?_modify, hid, Ne.symm hid]

@[simp] theorem heading?_addImplementation (t : ScopeTable) (m : MethodId) (e : Entity) :
    (t.addImplementation m).2.heading? e = t.heading? e := by
  cases e <;> simp [addImplementation, heading?, Array.getElem?_modify]
  split <;> simp [Function.comp_def]

@[simp] theorem members_addImplementation (t : ScopeTable) (m : MethodId) (owner : Owner) :
    (t.addImplementation m).2.members owner = t.members owner := by
  cases owner <;> simp [addImplementation, members, Array.getElem?_modify]
  split <;> simp [Function.comp_def]

theorem extends_addImplementation {t : ScopeTable} {m : MethodId} (hm : m < t.methods.size) :
    t.Extends (t.addImplementation m).2 where
  heading e d he := by rw [heading?_addImplementation, he]
  members owner _ := (members_addImplementation t m owner).symm ▸ List.prefix_rfl
  implementations id := by
    rw [implementations_addImplementation hm]
    exact List.prefix_append _ _
  bodyCount := Nat.le_succ _
  value _ := rfl

@[simp] theorem place?_addImplementation (t : ScopeTable) (m : MethodId) (e : Entity) :
    (t.addImplementation m).2.place? e = t.place? e := by
  rw [place?, heading?_addImplementation, ← place?]

theorem mem_implementations_addImplementation {t : ScopeTable} {m : MethodId}
    (hm : m < t.methods.size) (id b : Nat) :
    b ∈ (t.addImplementation m).2.implementations id ↔
      b ∈ t.implementations id ∨ (id = m ∧ b = t.bodyCount) := by
  rw [implementations_addImplementation hm, List.mem_append]
  split <;> simp [*]

theorem Coherent.addImplementation {t : ScopeTable} (ht : t.Coherent) {m : MethodId}
    (hm : m < t.methods.size) : (t.addImplementation m).2.Coherent where
  owned owner k id := by
    rw [members_addImplementation, ht.owned, ownerOf?, ownerOf?, place?_addImplementation]
  within e c hc := by
    rw [place?_addImplementation] at hc
    exact (extends_addImplementation hm).within (ht.within e c hc)
  outer_class_lt id c outer hc houter := by
    rw [place?_addImplementation] at hc
    exact ht.outer_class_lt id c outer hc houter
  outer_method_lt id c outer hc houter := by
    rw [place?_addImplementation] at hc
    exact ht.outer_method_lt id c outer hc houter
  implemented id b hb := by
    have hcount : (t.addImplementation m).2.bodyCount = t.bodyCount + 1 := rfl
    rw [hcount]
    rcases (mem_implementations_addImplementation hm id b).mp hb with hb | ⟨_, rfl⟩
    · exact Nat.lt_succ_of_lt (ht.implemented id b hb)
    · exact Nat.lt_succ_self _
  one_method m₁ m₂ b h₁ h₂ := by
    -- The new number is above those of all bodies before it.
    rcases (mem_implementations_addImplementation hm m₁ b).mp h₁ with h₁ | ⟨rfl, hb₁⟩
    · rcases (mem_implementations_addImplementation hm m₂ b).mp h₂ with h₂ | ⟨_, hb₂⟩
      · exact ht.one_method m₁ m₂ b h₁ h₂
      · exact absurd (ht.implemented m₁ b h₁) (hb₂ ▸ Nat.lt_irrefl _)
    · rcases (mem_implementations_addImplementation hm m₂ b).mp h₂ with h₂ | ⟨rfl, _⟩
      · exact absurd (ht.implemented m₂ b h₂) (hb₁ ▸ Nat.lt_irrefl _)
      · rfl

end BlockLang.ScopeTable
