/-
  BlockLang.Proofs.Arrangement

  How the tables are arranged that operations build.

  Parent links say who owns an entity, and so do the lists of members.  In a table that
  is built by operations the two agree, each list is in order of declaration and has no
  name twice, parents come before their children, and the numbers of bodies are shared
  out among the methods.  An operation may stand at any place whose owner is in the
  table; in particular the class of a place need not be the one around its method.
-/
import BlockLang.Proofs.Scope.Operation

namespace BlockLang.ScopeTable

/-! ## Members -/

/-- A table whose lists of members are in order. -/
structure Arranged (t : ScopeTable) : Prop where
  /-- Every entity is listed once, by the owner that its parent links name. -/
  listed : ∀ kind id, id < t.count kind → ∃ owner, t.ownerOf? (kind.entity id) = some owner ∧
    ∀ other, ((t.members other).ofKind kind).count id = if other = owner then 1 else 0
  /-- Only entities of the table are listed. -/
  known : ∀ owner kind, ∀ id ∈ (t.members owner).ofKind kind, id < t.count kind
  /-- Members of a kind are listed in the order of their ids. -/
  ascending : ∀ owner kind, ((t.members owner).ofKind kind).Pairwise (· < ·)
  /-- Members of a kind have different names. -/
  distinct : ∀ owner kind,
    (((t.members owner).ofKind kind).map fun id => t.name? (kind.entity id)).Nodup
  /-- Methods own no classes. -/
  classless : ∀ m, (t.members (.method m)).classes = []
  /-- A class comes behind the class around it. -/
  outer_class_lt : ∀ id c outer, t.place? (.cls id) = some c → c.cls = some outer → outer < id
  /-- A method comes behind the method around it. -/
  outer_method_lt : ∀ id c outer,
    t.place? (.method id) = some c → c.method = some outer → outer < id

theorem arranged_empty : empty.Arranged where
  listed kind id h := by cases kind <;> exact absurd h (Nat.not_lt_zero id)
  known owner kind id h := by
    cases owner <;> cases kind <;> simp [empty, members, Members.ofKind] at h
  ascending owner kind := by
    cases owner <;> cases kind <;> simp [empty, members, Members.ofKind]
  distinct owner kind := by
    cases owner <;> cases kind <;> simp [empty, members, Members.ofKind]
  classless m := rfl
  outer_class_lt id c outer h := by simp [empty, place?, heading?] at h
  outer_method_lt id c outer h := by simp [empty, place?, heading?] at h

/-- The arrangement is one of headings and members. -/
theorem Arranged.congr {t u : ScopeTable} (ht : t.Arranged)
    (hheading : ∀ e, u.heading? e = t.heading? e)
    (hmembers : ∀ owner, u.members owner = t.members owner) : u.Arranged := by
  have hplace (e : Entity) : u.place? e = t.place? e := by rw [place?, place?, hheading]
  have howner (e : Entity) : u.ownerOf? e = t.ownerOf? e := by rw [ownerOf?, ownerOf?, hplace]
  have hname (e : Entity) : u.name? e = t.name? e := by rw [name?_eq, name?_eq, hheading]
  have hlt (kind : EntityKind) (id : Nat) : id < u.count kind ↔ id < t.count kind := by
    have hu := heading?_isSome_iff u (kind.entity id)
    have ht := heading?_isSome_iff t (kind.entity id)
    rw [hheading, ht] at hu
    simpa using hu.symm
  constructor
  · intro kind id hid
    obtain ⟨owner, hown, hcount⟩ := ht.listed kind id ((hlt kind id).mp hid)
    refine ⟨owner, (howner _).trans hown, fun other => ?_⟩
    rw [hmembers]
    exact hcount other
  · intro owner kind id hid
    rw [hmembers] at hid
    exact (hlt kind id).mpr (ht.known owner kind id hid)
  · intro owner kind
    rw [hmembers]
    exact ht.ascending owner kind
  · intro owner kind
    simp only [hmembers, hname]
    exact ht.distinct owner kind
  · intro m
    rw [hmembers]
    exact ht.classless m
  · exact fun id c outer hc => ht.outer_class_lt id c outer ((hplace _).symm.trans hc)
  · exact fun id c outer hc => ht.outer_method_lt id c outer ((hplace _).symm.trans hc)

namespace Registers

variable {t t' : ScopeTable} {kind : EntityKind} {new : Heading} (h : t.Registers kind new t')
include h

/-- The entities are the new one and those from before. -/
theorem lt_count_iff (k : EntityKind) (id : Nat) :
    id < t'.count k ↔ k.entity id = kind.entity (t.count kind) ∨ id < t.count k := by
  have hnew := heading?_isSome_iff t' (k.entity id)
  have hold := heading?_isSome_iff t (k.entity id)
  simp only [EntityKind.id_entity, EntityKind.kind_entity] at hnew hold
  rw [← hnew, ← hold, h.heading]
  by_cases he : k.entity id = kind.entity (t.count kind) <;> simp [he]

theorem name?_of_lt {k : EntityKind} {id : Nat} (hid : id < t.count k) :
    t'.name? (k.entity id) = t.name? (k.entity id) := by
  rw [name?_eq, name?_eq, h.extension.heading?_eq (by simpa using hid)]

theorem name?_new : t'.name? (kind.entity (t.count kind)) = some new.name := by
  rw [name?_eq, h.heading, if_pos rfl, Option.map_some]

theorem listed (ht : t.Arranged) (k : EntityKind) (id : Nat) (hid : id < t'.count k) :
    ∃ owner, t'.ownerOf? (k.entity id) = some owner ∧
      ∀ other, ((t'.members other).ofKind k).count id = if other = owner then 1 else 0 := by
  by_cases he : k.entity id = kind.entity (t.count kind)
  · obtain rfl : k = kind := by simpa using congrArg Entity.kind he
    obtain rfl : id = t.count k := EntityKind.entity_inj he
    refine ⟨new.place.owner k, by rw [h.ownerOf?_eq, if_pos rfl], fun other => ?_⟩
    -- No list had the new id before.
    have hold : ((t.members other).ofKind k).count (t.count k) = 0 :=
      List.count_eq_zero.mpr fun hmem => Nat.lt_irrefl _ (ht.known other k _ hmem)
    rw [h.members, List.count_append, hold, Nat.zero_add]
    by_cases hother : other = new.place.owner k <;> simp [hother]
  · have hid : id < t.count k := ((h.lt_count_iff k id).mp hid).resolve_left he
    obtain ⟨owner, hown, hcount⟩ := ht.listed k id hid
    refine ⟨owner, by rw [h.ownerOf?_eq, if_neg he, hown], fun other => ?_⟩
    rw [h.members, List.count_append, hcount, Nat.add_eq_left, List.count_eq_zero]
    intro hmem
    obtain ⟨⟨-, rfl⟩, rfl⟩ : (other = new.place.owner kind ∧ k = kind) ∧ id = t.count kind := by
      simpa using hmem
    exact he rfl

theorem distinct (ht : t.Arranged)
    (hfresh : t.find? (new.place.owner kind) kind new.name = none) (owner : Owner)
    (k : EntityKind) :
    (((t'.members owner).ofKind k).map fun id => t'.name? (k.entity id)).Nodup := by
  have hold : ((t.members owner).ofKind k).map (fun id => t'.name? (k.entity id)) =
      ((t.members owner).ofKind k).map fun id => t.name? (k.entity id) :=
    List.map_congr_left fun id hid => h.name?_of_lt (ht.known owner k id hid)
  rw [h.members, List.map_append, hold]
  by_cases hk : owner = new.place.owner kind ∧ k = kind
  · obtain ⟨rfl, rfl⟩ := hk
    rw [if_pos ⟨rfl, rfl⟩, List.map_singleton, h.name?_new]
    refine List.nodup_append.mpr ⟨ht.distinct _ _, by simp, ?_⟩
    -- The name of the new entity is not among those of the members before it.
    intro name hname name' hname' hsame
    obtain ⟨id, hid, rfl⟩ := List.mem_map.mp hname
    rw [List.mem_singleton.mp hname'] at hsame
    rw [ScopeTable.find?, List.find?_eq_none] at hfresh
    exact hfresh id hid (by simp [hsame])
  · rw [if_neg hk, List.map_nil, List.append_nil]
    exact ht.distinct owner k

theorem classless (ht : t.Arranged) (m : MethodId) : (t'.members (.method m)).classes = [] := by
  have hmembers := h.members (.method m) .cls
  have howner : ¬(Owner.method m = new.place.owner kind ∧ EntityKind.cls = kind) := by
    rintro ⟨howner, rfl⟩
    cases hcls : new.place.cls <;> simp [Cursor.owner, Cursor.classOwner, hcls] at howner
  rw [if_neg howner, List.append_nil] at hmembers
  exact hmembers.trans (ht.classless m)

/-- Registering an entity in an owner of the table keeps it arranged. -/
theorem arranged (ht : t.Arranged) (ho : t.HasOwner (new.place.owner kind))
    (hfresh : t.find? (new.place.owner kind) kind new.name = none) : t'.Arranged where
  listed := h.listed ht
  known owner k id hid := by
    rw [h.members, List.mem_append] at hid
    rw [h.lt_count_iff]
    rcases hid with hid | hid
    · exact .inr (ht.known owner k id hid)
    · split at hid
      · rename_i hk
        rw [hk.2, List.mem_singleton.mp hid]
        exact .inl rfl
      · exact absurd hid List.not_mem_nil
  ascending owner k := by
    rw [h.members]
    refine List.pairwise_append.mpr ⟨ht.ascending owner k, ?_, fun a ha b hb => ?_⟩
    · split <;> simp
    · split at hb
      · rename_i hk
        rw [List.mem_singleton.mp hb, ← hk.2]
        exact ht.known owner k a ha
      · exact absurd hb List.not_mem_nil
  distinct := h.distinct ht hfresh
  classless := h.classless ht
  outer_class_lt id c outer hc houter := by
    rcases h.place?_entity_cases (k := .cls) hc with ⟨rfl, rfl, rfl⟩ | hc
    · simpa [Cursor.owner, Cursor.classOwner, houter, HasOwner, count] using ho
    · exact ht.outer_class_lt id c outer hc houter
  outer_method_lt id c outer hc houter := by
    rcases h.place?_entity_cases (k := .method) hc with ⟨rfl, rfl, rfl⟩ | hc
    · simpa [Cursor.owner, Cursor.memberOwner, houter, HasOwner, count] using ho
    · exact ht.outer_method_lt id c outer hc houter

end Registers

/-! ## Bodies -/

/-- A table that shares out the numbers of bodies among its methods. -/
structure Numbered (t : ScopeTable) : Prop where
  /-- The bodies of a method are in the order of their numbers. -/
  ascending : ∀ m, (t.implementations m).Pairwise (· < ·)
  /-- No two methods have a body in common. -/
  disjoint : ∀ m m' b, b ∈ t.implementations m → b ∈ t.implementations m' → m = m'
  /-- The numbers from zero on, up to the count of bodies, are those of bodies. -/
  covering : ∀ b, b < t.bodyCount ↔ ∃ m, b ∈ t.implementations m

theorem numbered_empty : empty.Numbered where
  ascending m := by simp [empty, implementations]
  disjoint m m' b h := by simp [empty, implementations] at h
  covering b := by simp [empty, implementations]

theorem Numbered.congr {t u : ScopeTable} (ht : t.Numbered)
    (himplementations : ∀ m, u.implementations m = t.implementations m)
    (hcount : u.bodyCount = t.bodyCount) : u.Numbered := by
  constructor
  · intro m
    rw [himplementations]
    exact ht.ascending m
  · intro m m' b hm hm'
    rw [himplementations] at hm hm'
    exact ht.disjoint m m' b hm hm'
  · intro b
    simp only [himplementations, hcount]
    exact ht.covering b

theorem Numbered.addImplementation {t : ScopeTable} (ht : t.Numbered) {m : MethodId}
    (hm : m < t.methods.size) : (t.addImplementation m).2.Numbered := by
  have hbelow (m' b : Nat) (hb : b ∈ t.implementations m') : b < t.bodyCount :=
    (ht.covering b).mpr ⟨m', hb⟩
  constructor
  · intro id
    rw [implementations_addImplementation hm]
    refine List.pairwise_append.mpr ⟨ht.ascending id, by split <;> simp, fun a ha b hb => ?_⟩
    split at hb
    · rw [List.mem_singleton.mp hb]
      exact hbelow id a ha
    · exact absurd hb List.not_mem_nil
  · intro m₁ m₂ b h₁ h₂
    rw [mem_implementations_addImplementation hm] at h₁ h₂
    -- The new number is above those of all bodies before it.
    rcases h₁ with h₁ | ⟨rfl, rfl⟩
    · rcases h₂ with h₂ | ⟨-, rfl⟩
      · exact ht.disjoint m₁ m₂ b h₁ h₂
      · exact absurd (hbelow m₁ _ h₁) (Nat.lt_irrefl _)
    · rcases h₂ with h₂ | ⟨rfl, -⟩
      · exact absurd (hbelow m₂ _ h₂) (Nat.lt_irrefl _)
      · rfl
  · intro b
    have hcount : (t.addImplementation m).2.bodyCount = t.bodyCount + 1 := rfl
    simp only [hcount, mem_implementations_addImplementation hm, exists_or, ← ht.covering]
    constructor
    · intro hb
      by_cases hlt : b < t.bodyCount
      · exact .inl hlt
      · exact .inr ⟨m, rfl, by omega⟩
    · rintro (hb | ⟨-, -, rfl⟩) <;> omega

/-! ## Operations -/

theorem heading?_setValue (t : ScopeTable) (v : VariableId) (value : Option Value) (e : Entity) :
    (t.setValue v value).heading? e = t.heading? e := by
  rw [← heading?_withoutValues, withoutValues_setValue, heading?_withoutValues]

theorem members_setValue (t : ScopeTable) (v : VariableId) (value : Option Value)
    (owner : Owner) : (t.setValue v value).members owner = t.members owner := by
  rw [← members_withoutValues, withoutValues_setValue, members_withoutValues]

/-- An operation keeps a table arranged. -/
theorem Arranged.after {t : ScopeTable} (ht : t.Arranged) {op : Operation} (hop : op.InRange t) :
    (t.after op).Arranged := by
  have hchange := change_after hop
  generalize t.after op = u at hchange ⊢
  cases hchange with
  | known _ _ => exact ht
  | registered _ hfresh hnew howner _ hreg =>
      rw [hnew] at hfresh howner
      exact hreg.arranged ht howner hfresh
  | numbered hm =>
      exact ht.congr (heading?_addImplementation t _) (members_addImplementation t _)
  | valued v value => exact ht.congr (heading?_setValue t v value) (members_setValue t v value)

/-- An operation goes on with the numbers of bodies. -/
theorem Numbered.after {t : ScopeTable} (ht : t.Numbered) {op : Operation} (hop : op.InRange t) :
    (t.after op).Numbered := by
  have hchange := change_after hop
  generalize t.after op = u at hchange ⊢
  cases hchange with
  | known _ _ => exact ht
  | registered _ _ _ _ _ hreg => exact ht.congr hreg.implementations hreg.bodyCount
  | numbered hm => exact ht.addImplementation hm
  | valued v value => exact ht.congr (fun _ => rfl) rfl

/-! ## The way outward -/

/-- The methods that are met on the way from a method outward, all of them. -/
inductive Outward (t : ScopeTable) : Option MethodId → List MethodId → Prop where
  | outside : Outward t none []
  | inside {m : MethodId} {rest : List MethodId} :
      Outward t (t.outerMethod? m) rest → Outward t (some m) (m :: rest)

/-- The way outward ends: it comes to smaller ids with every step. -/
theorem Nested.outward {t : ScopeTable} (ht : t.Nested) :
    ∀ {m budget : Nat}, m < budget → t.Outward (some m) (t.methodsAround budget (some m)) := by
  intro m
  induction m using Nat.strong_induction_on with
  | _ m ih =>
      intro budget hm
      obtain ⟨budget, rfl⟩ : ∃ n, budget = n + 1 := ⟨budget - 1, by omega⟩
      rw [methodsAround_succ]
      apply Outward.inside
      cases hp : t.outerMethod? m with
      | none =>
          rw [methodsAround_none]
          exact .outside
      | some p =>
          have hlt := ht m p hp
          exact ih p hlt (by omega)

theorem Arranged.nested {t : ScopeTable} (ht : t.Arranged) : t.Nested := by
  intro m p hp
  rw [outerMethod?_eq] at hp
  obtain ⟨c, hc, hcp⟩ := Option.bind_eq_some_iff.mp hp
  exact ht.outer_method_lt m c p hc hcp

/-! ## Tables that are built by operations -/

theorem arranged_afterAll {ops : List Operation} (hops : empty.InRangeAll ops) :
    (empty.afterAll ops).Arranged :=
  afterAll_induction (fun _ _ ht hop => ht.after hop) arranged_empty hops

/-- Operations whose ids are in the table when they are used build a table in which every
    entity is listed once, by the owner that its parent links name; the lists are in order
    and have no name twice; methods own no classes; parents come before their children, so
    that the way outward from every method ends; and the numbers of bodies are shared out
    among the methods. -/
theorem operations_build_arranged_table {ops : List Operation} {t : ScopeTable}
    (hops : empty.InRangeAll ops) (ht : empty.afterAll ops = t) :
    t.Arranged ∧ t.Numbered ∧
      ∀ m, m < t.methods.size →
        t.Outward (some m) (t.methodsAround t.methods.size (some m)) := by
  subst ht
  have harranged := arranged_afterAll hops
  have hnumbered : (empty.afterAll ops).Numbered :=
    afterAll_induction (fun _ _ ht hop => ht.after hop) numbered_empty hops
  exact ⟨harranged, hnumbered, fun m hm => harranged.nested.outward hm⟩

/-- Declarations in a method at a place whose class is not the one around the method, a
    parameter that is a variable of the method already, one that is new, and a declaration
    that fails. -/
def crossedOperations : List Operation :=
  [ .declareClass "A" .global,
    .declareClass "B" .global,
    .declareMethod "f" "Int" ["Int"] (.inClass 0),
    .declareVariable "x" ⟨some 1, some 0⟩,
    .bindParameter 0 "x",
    .bindParameter 0 "n",
    .declareVariable "n" ⟨some 1, some 0⟩,
    .declareMethod "g" "Int" [] ⟨some 1, some 0⟩,
    .declareClass "C" ⟨some 1, some 0⟩,
    .addImplementation 1,
    .addImplementation 0,
    .addImplementation 1,
    .setValue 1 (some (.integer 5)) ]

/-- What `crossedOperations` build. -/
def crossedTable : ScopeTable where
  classes := #[⟨"A", none, { methods := [0] }⟩, ⟨"B", none, { classes := [2] }⟩,
    ⟨"C", some 1, {}⟩]
  methods := #[⟨"f", "Int", ["Int"], some 0, none, { methods := [1], vars := [0, 1] }, [1]⟩,
    ⟨"g", "Int", [], some 1, some 0, {}, [0, 2]⟩]
  vars := #[⟨"x", none, some 1, some 0⟩, ⟨"n", some (.integer 5), some 0, some 0⟩]
  global := { classes := [0, 1] }
  bodyCount := 3

theorem crossed_operations_build_arranged_table :
    empty.InRangeAll crossedOperations ∧ empty.afterAll crossedOperations = crossedTable ∧
      crossedTable.Arranged ∧ crossedTable.Numbered ∧ crossedTable.Outward (some 1) [1, 0] := by
  have hops : empty.InRangeAll crossedOperations := by decide
  have ht : empty.afterAll crossedOperations = crossedTable := by cbv
  obtain ⟨harranged, hnumbered, houtward⟩ := operations_build_arranged_table hops ht
  exact ⟨hops, ht, harranged, hnumbered, houtward 1 (by decide)⟩

end BlockLang.ScopeTable
