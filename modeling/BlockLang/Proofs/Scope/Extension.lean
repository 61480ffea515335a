/-
  BlockLang.Proofs.Scope.Extension

  How scope tables grow, and which lookups survive it.

  A table is coherent when its member lists and its parent links tell the same
  story and parents come before their children.  A table extends another one when
  it has all that the other one has, in the same order, and perhaps more.  In an
  extension of a coherent table every owner is found along the same chain and every
  member is still found; a name can only come to stand for something else by a
  member that is found earlier.
-/
import BlockLang.Scope.Declare
import Mathlib.Data.List.Find

namespace BlockLang

/-! ## What a declaration fixes -/

/-- What the declaration of an entity fixes: all but members, bodies and value. -/
inductive Heading where
  | cls (name : String) (parent : Option ClassId)
  | method (name returnType : String) (parameterTypes : List String) (place : Cursor)
  | var (name : String) (place : Cursor)
  deriving DecidableEq

namespace Heading

/-- The declared name. -/
def name : Heading → String
  | cls name _ => name
  | method name _ _ _ => name
  | var name _ => name

/-- The place of the declaration; methods do not own classes, so that of a class has
    no method. -/
def place : Heading → Cursor
  | cls _ parent => ⟨parent, none⟩
  | method _ _ _ place => place
  | var _ place => place

end Heading

/-- The id of an entity among those of its kind. -/
def Entity.id : Entity → Nat
  | cls id => id
  | method id => id
  | var id => id

@[simp] theorem Entity.kind_entity_id (e : Entity) : e.kind.entity e.id = e := by
  cases e <;> rfl

@[simp] theorem EntityKind.kind_entity (k : EntityKind) (id : Nat) : (k.entity id).kind = k := by
  cases k <;> rfl

@[simp] theorem EntityKind.id_entity (k : EntityKind) (id : Nat) : (k.entity id).id = id := by
  cases k <;> rfl

theorem EntityKind.entity_inj {k : EntityKind} {a b : Nat} (h : k.entity a = k.entity b) :
    a = b := by
  simpa using congrArg Entity.id h

namespace ScopeTable

/-- The heading of an entity. -/
def heading? (t : ScopeTable) : Entity → Option Heading
  | .cls id => t.classes[id]?.map fun e => .cls e.name e.parent
  | .method id => t.methods[id]?.map fun e =>
      .method e.name e.returnType e.parameterTypes ⟨e.parentClass, e.parentMethod⟩
  | .var id => t.vars[id]?.map fun e => .var e.name ⟨e.parentClass, e.parentMethod⟩

/-- The place of an entity's declaration as its parent links give it. -/
def place? (t : ScopeTable) (e : Entity) : Option Cursor := (t.heading? e).map Heading.place

theorem name?_eq (t : ScopeTable) (e : Entity) : t.name? e = (t.heading? e).map Heading.name := by
  cases e <;> simp [name?, heading?, Heading.name, Function.comp_def]

/-- The owner of an entity as its parent links give it. -/
def ownerOf? (t : ScopeTable) (e : Entity) : Option Owner :=
  (t.place? e).map fun c => c.owner e.kind

/-- The number of entities of a kind. -/
def count (t : ScopeTable) : EntityKind → Nat
  | .cls => t.classes.size
  | .method => t.methods.size
  | .var => t.vars.size

theorem heading?_isSome_iff (t : ScopeTable) (e : Entity) :
    (t.heading? e).isSome ↔ e.id < t.count e.kind := by
  cases e <;> simp [heading?, count, Entity.kind, Entity.id]

/-- Whether the class and the method of a place are in a table. -/
structure Within (t : ScopeTable) (c : Cursor) : Prop where
  cls : ∀ id, c.cls = some id → id < t.classes.size
  method : ∀ id, c.method = some id → id < t.methods.size

theorem within_global (t : ScopeTable) : t.Within .global :=
  ⟨fun _ h => (nomatch h), fun _ h => (nomatch h)⟩

theorem within_inClass {t : ScopeTable} {id : ClassId} (h : id < t.classes.size) :
    t.Within (.inClass id) :=
  ⟨fun _ hid => Option.some.inj hid ▸ h, fun _ hid => (nomatch hid)⟩

/-- The class around a place, outside of its methods. -/
theorem Within.outside {t : ScopeTable} {c : Cursor} (hc : t.Within c) : t.Within ⟨c.cls, none⟩ :=
  ⟨hc.cls, fun _ h => (nomatch h)⟩

/-- A table whose member lists and parent links agree. -/
structure Coherent (t : ScopeTable) : Prop where
  /-- An owner lists exactly the entities whose parent links name it. -/
  owned : ∀ owner kind id,
    id ∈ (t.members owner).ofKind kind ↔ t.ownerOf? (kind.entity id) = some owner
  /-- Parents are entities of the table. -/
  within : ∀ e c, t.place? e = some c → t.Within c
  /-- A class comes behind the class around it. -/
  outer_class_lt : ∀ id c outer, t.place? (.cls id) = some c → c.cls = some outer → outer < id
  /-- A method comes behind the method around it. -/
  outer_method_lt : ∀ id c outer,
    t.place? (.method id) = some c → c.method = some outer → outer < id
  /-- Bodies are numbered below the count of bodies. -/
  implemented : ∀ id b, b ∈ t.implementations id → b < t.bodyCount
  /-- A body belongs to one method. -/
  one_method : ∀ m m' b, b ∈ t.implementations m → b ∈ t.implementations m' → m = m'

/-- Whether only entities of the table are listed as members. -/
def Listed (t : ScopeTable) : Prop :=
  ∀ owner kind, ∀ id ∈ (t.members owner).ofKind kind, id < t.count kind

theorem coherent_empty : empty.Coherent := by
  constructor
  · intro owner kind id
    cases owner <;> cases kind <;>
      simp [empty, members, Members.ofKind, ownerOf?, place?, heading?, EntityKind.entity]
  · intro e c h
    cases e <;> simp [empty, place?, heading?] at h
  · intro id c outer h
    simp [empty, place?, heading?] at h
  · intro id c outer h
    simp [empty, place?, heading?] at h
  · intro id b h
    simp [empty, implementations] at h
  · intro m m' b h
    simp [empty, implementations] at h

namespace Coherent

variable {t : ScopeTable} (ht : t.Coherent)
include ht

/-- Members are entities of the table. -/
theorem lt_count_of_mem {owner : Owner} {kind : EntityKind} {id : Nat}
    (h : id ∈ (t.members owner).ofKind kind) : id < t.count kind := by
  have howner := (ht.owned owner kind id).mp h
  have hheading : (t.heading? (kind.entity id)).isSome := by
    cases hp : t.heading? (kind.entity id) with
    | none => simp [ownerOf?, place?, hp] at howner
    | some c => rfl
  simpa using (heading?_isSome_iff t (kind.entity id)).mp hheading

theorem listed : t.Listed := fun _ _ _ => ht.lt_count_of_mem

/-- The place inside a body of a method of the table. -/
theorem within_bodyCursor {id : MethodId} (h : id < t.methods.size) :
    t.Within (t.bodyCursor id) := by
  have hget : t.methods[id]? = some t.methods[id] := Array.getElem?_eq_getElem h
  have hplace : t.place? (.method id) =
      some ⟨t.methods[id].parentClass, t.methods[id].parentMethod⟩ := by
    simp [place?, heading?, hget, Heading.place]
  constructor
  · intro cls hcls
    simp only [bodyCursor, hget, Option.bind_some] at hcls
    exact (ht.within _ _ hplace).cls cls hcls
  · intro m hm
    simp only [bodyCursor, Option.some.injEq] at hm
    exact hm ▸ h

end Coherent

/-! ## Extension -/

/-- The table `u` has all that `t` has, in the same order, and no further values. -/
structure Extends (t u : ScopeTable) : Prop where
  heading : ∀ e h, t.heading? e = some h → u.heading? e = some h
  members : ∀ owner kind, (t.members owner).ofKind kind <+: (u.members owner).ofKind kind
  implementations : ∀ id, t.implementations id <+: u.implementations id
  bodyCount : t.bodyCount ≤ u.bodyCount
  value : ∀ id, u.value? id = t.value? id

namespace Extends

theorem refl (t : ScopeTable) : t.Extends t :=
  ⟨fun _ _ h => h, fun _ _ => List.prefix_rfl, fun _ => List.prefix_rfl, Nat.le_refl _,
    fun _ => rfl⟩

theorem trans {t u v : ScopeTable} (h₁ : t.Extends u) (h₂ : u.Extends v) : t.Extends v where
  heading e h he := h₂.heading e h (h₁.heading e h he)
  members owner kind := (h₁.members owner kind).trans (h₂.members owner kind)
  implementations id := (h₁.implementations id).trans (h₂.implementations id)
  bodyCount := h₁.bodyCount.trans h₂.bodyCount
  value id := (h₂.value id).trans (h₁.value id)

variable {t u : ScopeTable} (h : t.Extends u)
include h

/-- Entities of the smaller table have the same heading in both. -/
theorem heading?_eq {e : Entity} (he : e.id < t.count e.kind) : u.heading? e = t.heading? e := by
  obtain ⟨heading, hheading⟩ := Option.isSome_iff_exists.mp ((heading?_isSome_iff t e).mpr he)
  rw [hheading, h.heading e heading hheading]

/-- Entities keep their places. -/
theorem place? {e : Entity} {c : Cursor} (hc : t.place? e = some c) : u.place? e = some c := by
  obtain ⟨heading, hheading, rfl⟩ := Option.map_eq_some_iff.mp hc
  rw [ScopeTable.place?, h.heading e heading hheading, Option.map_some]

theorem count_le (kind : EntityKind) : t.count kind ≤ u.count kind := by
  by_contra hlt
  -- The first entity that `u` lacks would be one of `t`.
  have hnew : (t.heading? (kind.entity (u.count kind))).isSome :=
    (heading?_isSome_iff t _).mpr (by simpa using hlt)
  obtain ⟨heading, hheading⟩ := Option.isSome_iff_exists.mp hnew
  have hsome : (u.heading? (kind.entity (u.count kind))).isSome := by
    rw [h.heading _ _ hheading]
    rfl
  simpa using (heading?_isSome_iff u _).mp hsome

theorem within {c : Cursor} (hc : t.Within c) : u.Within c :=
  ⟨fun id hid => (hc.cls id hid).trans_le (h.count_le .cls),
    fun id hid => (hc.method id hid).trans_le (h.count_le .method)⟩

end Extends

/-! ## The chain of owners -/

/-- The method directly around a method. -/
def outerMethod? (t : ScopeTable) (id : MethodId) : Option MethodId :=
  t.methods[id]?.bind (·.parentMethod)

theorem outerMethod?_eq (t : ScopeTable) (id : MethodId) :
    t.outerMethod? id = (t.place? (.method id)).bind (·.method) := by
  cases h : t.methods[id]? <;> simp [outerMethod?, place?, heading?, h, Heading.place]

/-- The method `a` is `m` or one of the methods around it. -/
inductive Around (t : ScopeTable) : MethodId → MethodId → Prop where
  | self (m : MethodId) : Around t m m
  | outer {m p a : MethodId} : t.outerMethod? m = some p → Around t p a → Around t m a

theorem Coherent.outerMethod?_lt {t : ScopeTable} (ht : t.Coherent) {m p : Nat}
    (h : t.outerMethod? m = some p) : p < m := by
  rw [outerMethod?_eq] at h
  obtain ⟨c, hc, hp⟩ := Option.bind_eq_some_iff.mp h
  exact ht.outer_method_lt m c p hc hp

/-- Whether every method comes behind the method around it. -/
def Nested (t : ScopeTable) : Prop := ∀ m p : Nat, t.outerMethod? m = some p → p < m

theorem Coherent.nested {t : ScopeTable} (ht : t.Coherent) : t.Nested :=
  fun _ _ => ht.outerMethod?_lt

theorem Around.le {t : ScopeTable} (ht : t.Coherent) {m a : Nat} (h : t.Around m a) :
    a ≤ m := by
  induction h with
  | self m => exact Nat.le_refl m
  | outer hp _ ih => exact ih.trans (Nat.le_of_lt (ht.outerMethod?_lt hp))

theorem Around.trans {t : ScopeTable} {m p a : MethodId} (h₁ : t.Around m p)
    (h₂ : t.Around p a) : t.Around m a := by
  induction h₁ with
  | self m => exact h₂
  | outer hp _ ih => exact .outer hp (ih h₂)

theorem methodsAround_none (t : ScopeTable) (budget : Nat) : t.methodsAround budget none = [] := by
  cases budget <;> rfl

theorem methodsAround_succ (t : ScopeTable) (budget : Nat) (m : MethodId) :
    t.methodsAround (budget + 1) (some m) = m :: t.methodsAround budget (t.outerMethod? m) := rfl

/-- A budget above the id of a method reaches all methods around it. -/
theorem Coherent.mem_methodsAround {t : ScopeTable} (ht : t.Coherent) {a : Nat} :
    ∀ {m budget : Nat}, m < budget →
      (a ∈ t.methodsAround budget (some m) ↔ t.Around m a) := by
  intro m
  -- The method around `m` has a smaller id, so the budget lasts down the whole chain.
  induction m using Nat.strong_induction_on with
  | _ m ih =>
      intro budget hm
      obtain ⟨budget, rfl⟩ : ∃ n, budget = n + 1 := ⟨budget - 1, by omega⟩
      rw [methodsAround_succ, List.mem_cons]
      cases hp : t.outerMethod? m with
      | none =>
          rw [methodsAround_none]
          constructor
          · rintro (rfl | h)
            · exact .self a
            · exact absurd h List.not_mem_nil
          · rintro (_ | ⟨hq, _⟩)
            · exact .inl rfl
            · rw [hp] at hq
              exact absurd hq nofun
      | some p =>
          have hlt := ht.outerMethod?_lt hp
          rw [ih p hlt (by omega)]
          constructor
          · rintro (rfl | h)
            · exact .self a
            · exact .outer hp h
          · rintro (_ | ⟨hq, h⟩)
            · exact .inl rfl
            · rw [hp, Option.some.injEq] at hq
              exact .inr (hq ▸ h)

/-- The methods among the owners in which a name at a place is looked up. -/
theorem Coherent.method_mem_lookupChain {t : ScopeTable} (ht : t.Coherent) {c : Cursor}
    (hc : t.Within c) {a : MethodId} :
    Owner.method a ∈ t.lookupChain c ↔ ∃ m, c.method = some m ∧ t.Around m a := by
  cases hm : c.method with
  | none => simp [lookupChain, hm, methodsAround_none]
  | some m => simp [lookupChain, hm, ht.mem_methodsAround (hc.method m hm)]

namespace Extends

variable {t u : ScopeTable} (h : t.Extends u)
include h

/-- Methods keep the methods around them. -/
theorem outerMethod? {m : MethodId} (hm : m < t.methods.size) :
    u.outerMethod? m = t.outerMethod? m := by
  have hheading : u.heading? (.method m) = t.heading? (.method m) := h.heading?_eq hm
  rw [outerMethod?_eq, outerMethod?_eq, ScopeTable.place?, ScopeTable.place?, hheading]

theorem methodsAround (ht : t.Nested) :
    ∀ {m budget budget' : Nat}, m < t.methods.size → m < budget → m < budget' →
      u.methodsAround budget' (some m) = t.methodsAround budget (some m) := by
  intro m
  -- The two tables have different budgets; both are above the id of every method met.
  induction m using Nat.strong_induction_on with
  | _ m ih =>
      intro budget budget' hm hb hb'
      obtain ⟨budget, rfl⟩ : ∃ n, budget = n + 1 := ⟨budget - 1, by omega⟩
      obtain ⟨budget', rfl⟩ : ∃ n, budget' = n + 1 := ⟨budget' - 1, by omega⟩
      rw [methodsAround_succ, methodsAround_succ, h.outerMethod? hm]
      cases hp : t.outerMethod? m with
      | none => rw [methodsAround_none, methodsAround_none]
      | some p =>
          have hlt := ht m p hp
          have hrest : u.methodsAround budget' (some p) = t.methodsAround budget (some p) :=
            ih p hlt (by omega) (by omega) (by omega)
          rw [hrest]

/-- Names at a place are looked up in the same owners. -/
theorem lookupChain (ht : t.Nested) {c : Cursor} (hc : t.Within c) :
    u.lookupChain c = t.lookupChain c := by
  have hmethods : u.methodsAround u.methods.size c.method =
      t.methodsAround t.methods.size c.method := by
    cases hm : c.method with
    | none => rw [methodsAround_none, methodsAround_none]
    | some m =>
        have hlt := hc.method m hm
        exact h.methodsAround ht hlt hlt (hlt.trans_le (h.count_le .method))
  rw [ScopeTable.lookupChain, ScopeTable.lookupChain, hmethods]

theorem bodyCursor {m : MethodId} (hm : m < t.methods.size) : u.bodyCursor m = t.bodyCursor m := by
  have hcls (v : ScopeTable) : v.methods[m]?.bind (·.parentClass) =
      (v.place? (.method m)).bind (·.cls) := by
    cases hv : v.methods[m]? <;> simp [ScopeTable.place?, heading?, hv, Heading.place]
  have hheading : u.heading? (.method m) = t.heading? (.method m) := h.heading?_eq hm
  rw [ScopeTable.bodyCursor, ScopeTable.bodyCursor, hcls, hcls, ScopeTable.place?,
    ScopeTable.place?, hheading]

end Extends

/-! ## Lookup in an extension -/

theorem find?_eq_some {t : ScopeTable} {owner : Owner} {kind : EntityKind} {name : String}
    {id : Nat} (h : t.find? owner kind name = some id) :
    id ∈ (t.members owner).ofKind kind ∧ t.name? (kind.entity id) = some name :=
  ⟨List.mem_of_find?_eq_some h, by simpa using List.find?_some h⟩

theorem entityIn?_eq_some {t : ScopeTable} {owner : Owner} {name : String} {e : Entity}
    (h : t.entityIn? name owner = some e) : t.find? owner e.kind name = some e.id := by
  obtain ⟨kind, _, hkind⟩ := List.exists_of_findSome?_eq_some h
  obtain ⟨id, hid, rfl⟩ := Option.map_eq_some_iff.mp hkind
  simpa using hid

theorem resolve_eq_some {t : ScopeTable} {name : String} {c : Cursor} {e : Entity}
    (h : t.resolve name c = some e) :
    ∃ owner ∈ t.lookupChain c, t.find? owner e.kind name = some e.id := by
  obtain ⟨owner, howner, he⟩ := List.exists_of_findSome?_eq_some h
  exact ⟨owner, howner, entityIn?_eq_some he⟩

theorem resolveMethod_eq_some {t : ScopeTable} {name : String} {c : Cursor} {id : MethodId}
    (h : t.resolveMethod name c = some id) :
    ∃ owner ∈ t.lookupChain c, t.find? owner .method name = some id :=
  List.exists_of_findSome?_eq_some h

namespace Extends

variable {t u : ScopeTable} (h : t.Extends u)
include h

/-- Members are still found. -/
theorem find? (ht : t.Listed) {owner : Owner} {kind : EntityKind} {name : String} {id : Nat}
    (hf : t.find? owner kind name = some id) : u.find? owner kind name = some id := by
  obtain ⟨more, hmore⟩ := h.members owner kind
  have hnames : ∀ i ∈ (t.members owner).ofKind kind,
      (u.name? (kind.entity i) == some name) = (t.name? (kind.entity i) == some name) := by
    intro i hi
    have hlt := ht owner kind i hi
    rw [name?_eq, name?_eq, h.heading?_eq (by simpa using hlt)]
  rw [ScopeTable.find?, ← hmore, List.find?_append, List.find?_congr hnames]
  rw [ScopeTable.find?] at hf
  rw [hf, Option.some_or]

theorem entityIn?_isSome (ht : t.Listed) {owner : Owner} {name : String}
    (hs : (t.entityIn? name owner).isSome) : (u.entityIn? name owner).isSome := by
  obtain ⟨e, he⟩ := Option.isSome_iff_exists.mp hs
  have hfound := h.find? ht (entityIn?_eq_some he)
  rw [entityIn?, List.findSome?_isSome_iff]
  refine ⟨e.kind, ?_, ?_⟩
  · cases e <;> simp [Entity.kind]
  · rw [hfound]
    rfl

/-- A name that stands for something goes on standing for something. -/
theorem resolve_isSome (ht : t.Coherent) {name : String} {c : Cursor} (hc : t.Within c)
    (hs : (t.resolve name c).isSome) : (u.resolve name c).isSome := by
  rw [resolve, List.findSome?_isSome_iff] at hs ⊢
  rw [h.lookupChain ht.nested hc]
  obtain ⟨owner, howner, hin⟩ := hs
  exact ⟨owner, howner, h.entityIn?_isSome ht.listed hin⟩

end Extends

end ScopeTable

end BlockLang
