/-
  BlockLang.Proofs.NameMap

  A scope table is a map from names to ids.

  A table keeps its entities in arrays and finds them by going through the lists of their
  owners.  What can be seen of this from outside is a partial map: a key consists of an
  owner, a kind and a name.  Declarations and parameters add keys and nothing takes one
  away.  Names are looked up in this map, along the owners from the inside outward; so a
  new key matters only to lookups of its name that come to its owner in time.
-/
import BlockLang.Proofs.Arrangement
import BlockLang.Proofs.Scope.Precedence
import Mathlib.Data.List.Nodup
import Mathlib.Logic.Function.Basic

namespace BlockLang.ScopeTable

/-! ## The map of a table -/

/-- The ids that keys stand for, and for each kind the id that comes next. -/
structure NameMap where
  ids : Key → Option Nat
  next : EntityKind → Nat

namespace NameMap

/-- The map without keys. -/
def empty : NameMap := ⟨fun _ => none, fun _ => 0⟩

/-- Gives a key the next id of its kind, unless it has one. -/
def add (μ : NameMap) (k : Key) : NameMap :=
  match μ.ids k with
  | some _ => μ
  | none =>
    { ids := Function.update μ.ids k (some (μ.next k.kind))
      next := Function.update μ.next k.kind (μ.next k.kind + 1) }

/-- The map after an operation. -/
def after (μ : NameMap) (op : Operation) : NameMap :=
  match op.key? with
  | some k => μ.add k
  | none => μ

/-- What an operation answers that declares or binds a key.  A key can be declared only
    once, and bound again and again. -/
def answer (μ : NameMap) (op : Operation) (k : Key) : Except ScopeError Nat :=
  match μ.ids k with
  | some id => if op.declared? = some k then .error (.duplicate k.kind k.name) else .ok id
  | none => .ok (μ.next k.kind)

end NameMap

/-- The map that a table keeps. -/
def names (t : ScopeTable) : NameMap := ⟨t.lookup?, t.count⟩

theorem names_empty : empty.names = NameMap.empty := by
  have hids (k : Key) : empty.lookup? k = none := by
    obtain ⟨owner, kind, name⟩ := k
    cases owner <;> cases kind <;> simp [empty, lookup?, find?, members, Members.ofKind]
  have hnext (kind : EntityKind) : empty.count kind = 0 := by
    cases kind <;> rfl
  rw [names, NameMap.empty, funext hids, funext hnext]

/-- The map is one of headings and members. -/
theorem names_congr {t u : ScopeTable} (hheading : ∀ e, u.heading? e = t.heading? e)
    (hmembers : ∀ owner, u.members owner = t.members owner)
    (hcount : ∀ kind, u.count kind = t.count kind) : u.names = t.names := by
  have hlookup (k : Key) : u.lookup? k = t.lookup? k := by
    simp only [lookup?, find?, name?_eq, hheading, hmembers]
  rw [names, names, funext hlookup, funext hcount]

namespace Arranged

variable {t : ScopeTable} (ht : t.Arranged)
include ht

/-- An owner lists exactly the entities whose parent links name it. -/
theorem mem_iff (owner : Owner) (kind : EntityKind) (id : Nat) :
    id ∈ (t.members owner).ofKind kind ↔ t.ownerOf? (kind.entity id) = some owner := by
  constructor
  · intro hmem
    obtain ⟨owner', howner, hcount⟩ := ht.listed kind id (ht.known owner kind id hmem)
    by_cases hsame : owner = owner'
    · rw [hsame, howner]
    · have hnone := hcount owner
      rw [if_neg hsame, List.count_eq_zero] at hnone
      exact absurd hmem hnone
  · intro howner
    have hid : id < t.count kind := by
      have hheading : (t.heading? (kind.entity id)).isSome := by
        cases hh : t.heading? (kind.entity id) with
        | none => simp [ownerOf?, place?, hh] at howner
        | some heading => rfl
      simpa using (heading?_isSome_iff t _).mp hheading
    obtain ⟨owner', howner', hcount⟩ := ht.listed kind id hid
    obtain rfl : owner = owner' := Option.some.inj (howner.symm.trans howner')
    have hone := hcount owner
    rw [if_pos rfl] at hone
    exact List.count_pos_iff.mp (by omega)

/-- A key stands for the entity whose record has that owner and that name. -/
theorem lookup?_eq_some_iff (k : Key) (id : Nat) :
    t.lookup? k = some id ↔ t.ownerOf? (k.kind.entity id) = some k.owner ∧
      t.name? (k.kind.entity id) = some k.name := by
  constructor
  · intro h
    obtain ⟨hmem, hname⟩ := find?_eq_some h
    exact ⟨(ht.mem_iff _ _ _).mp hmem, hname⟩
  · rintro ⟨howner, hname⟩
    have hmem := (ht.mem_iff _ _ _).mpr howner
    have hsome : (t.lookup? k).isSome := by
      rw [lookup?, find?, List.find?_isSome]
      exact ⟨id, hmem, by simp [hname]⟩
    obtain ⟨id', hid'⟩ := Option.isSome_iff_exists.mp hsome
    obtain ⟨hmem', hname'⟩ := find?_eq_some hid'
    -- No two members of a kind have the same name.
    have hsame : id' = id := List.inj_on_of_nodup_map (ht.distinct k.owner k.kind) hmem' hmem
      (hname'.trans hname.symm)
    rw [hid', hsame]

end Arranged

/-! ## Operations on the map -/

namespace Registers

variable {t t' : ScopeTable} {kind : EntityKind} {new : Heading} (h : t.Registers kind new t')
include h

theorem count_eq : t'.count = Function.update t.count kind (t.count kind + 1) := by
  funext k
  apply eq_of_forall_lt_iff
  intro id
  rw [h.lt_count_iff]
  by_cases hk : k = kind
  · subst hk
    rw [Function.update_self, Nat.lt_succ_iff_lt_or_eq, or_comm]
    exact or_congr_right ⟨EntityKind.entity_inj, fun hid => by rw [hid]⟩
  · rw [Function.update_of_ne hk]
    refine or_iff_right fun he => hk ?_
    simpa using congrArg Entity.kind he

/-- Registering an entity adds its key and no other. -/
theorem lookup?_eq (ht : t.Arranged) (ht' : t'.Arranged) :
    t'.lookup? = Function.update t.lookup? ⟨new.place.owner kind, kind, new.name⟩
      (some (t.count kind)) := by
  funext k
  by_cases hk : k = ⟨new.place.owner kind, kind, new.name⟩
  · subst hk
    rw [Function.update_self, ht'.lookup?_eq_some_iff]
    exact ⟨by rw [h.ownerOf?_eq, if_pos rfl], h.name?_new⟩
  · rw [Function.update_of_ne hk]
    apply Option.ext
    intro id
    rw [ht'.lookup?_eq_some_iff, ht.lookup?_eq_some_iff, h.ownerOf?_eq, name?_eq, name?_eq,
      h.heading]
    by_cases he : k.kind.entity id = kind.entity (t.count kind)
    · rw [if_pos he, if_pos he]
      -- The new entity has another key, and it was not there before.
      have hnone : t.ownerOf? (k.kind.entity id) = none := by
        have hheading : ¬(t.heading? (k.kind.entity id)).isSome := by
          rw [heading?_isSome_iff, he]
          simp
        rw [ownerOf?, place?, Option.not_isSome_iff_eq_none.mp hheading]
        rfl
      rw [hnone]
      constructor
      · rintro ⟨howner, hname⟩
        refine absurd ?_ hk
        have hkind : k.kind = kind := by simpa using congrArg Entity.kind he
        obtain ⟨owner, kind', name⟩ := k
        exact congr (congr (congrArg Key.mk (Option.some.inj howner).symm) hkind)
          (Option.some.inj hname).symm
      · rintro ⟨howner, -⟩
        cases howner
    · rw [if_neg he, if_neg he]

end Registers

/-- What an operation does that declares or binds a key: it changes nothing when the key is
    there, and registers an entity otherwise. -/
theorem after_of_key? {t : ScopeTable} {op : Operation} {k : Key} (hop : op.InRange t)
    (hk : op.key? = some k) :
    ((t.lookup? k).isSome ∧ t.after op = t) ∨
      (t.lookup? k = none ∧ ∃ new, k = ⟨new.place.owner k.kind, k.kind, new.name⟩ ∧
        op.apply t = .ok (t.count k.kind, t.after op) ∧
        t.Registers k.kind new (t.after op)) := by
  have hchange := change_after hop
  generalize t.after op = u at hchange ⊢
  cases hchange with
  | known hk' hid =>
      obtain rfl := Option.some.inj (hk.symm.trans hk')
      exact .inl ⟨by rw [hid]; rfl, rfl⟩
  | registered hk' hid hnew _ hok hreg =>
      obtain rfl := Option.some.inj (hk.symm.trans hk')
      exact .inr ⟨hid, _, hnew, hok, hreg⟩
  | numbered _ => cases hk
  | valued _ _ => cases hk

/-- The map of a table follows the operations on the table. -/
theorem Arranged.names_after {t : ScopeTable} (ht : t.Arranged) {op : Operation}
    (hop : op.InRange t) : (t.after op).names = t.names.after op := by
  have ht' := ht.after hop
  cases hk : op.key? with
  | some k =>
      rw [NameMap.after, hk]
      dsimp only
      rcases after_of_key? hop hk with ⟨hsome, hsame⟩ | ⟨hnone, new, hnew, -, hreg⟩
      · obtain ⟨id, hid⟩ := Option.isSome_iff_exists.mp hsome
        have hid : t.names.ids k = some id := hid
        rw [hsame, NameMap.add, hid]
      · have hnone : t.names.ids k = none := hnone
        have hids := hreg.lookup?_eq ht ht'
        rw [← hnew] at hids
        rw [names, hids, hreg.count_eq, NameMap.add, hnone]
        rfl
  | none =>
      rw [NameMap.after, hk]
      have hchange := change_after hop
      generalize t.after op = u at hchange ⊢
      cases hchange with
      | known hk' _ => exact absurd (hk.symm.trans hk') nofun
      | registered hk' _ _ _ _ _ => exact absurd (hk.symm.trans hk') nofun
      | numbered _ =>
          refine names_congr (heading?_addImplementation t _) (members_addImplementation t _) ?_
          intro kind
          cases kind <;> simp [count, addImplementation]
      | valued v value =>
          refine names_congr (heading?_setValue t v value) (members_setValue t v value) ?_
          intro kind
          cases kind <;> simp [count, setValue]

theorem NameMap.ids_after {μ : NameMap} {op : Operation} {k : Key} {id : Nat}
    (h : μ.ids k = some id) : (μ.after op).ids k = some id := by
  unfold NameMap.after
  split
  · rename_i key _
    unfold NameMap.add
    split
    · exact h
    · rename_i hnone
      have hne : k ≠ key := by
        rintro rfl
        exact absurd (h.symm.trans hnone) nofun
      exact (Function.update_of_ne hne _ _).trans h
  · exact h

/-- Keys keep their ids. -/
theorem Arranged.lookup?_afterAll {t : ScopeTable} (ht : t.Arranged) {ops : List Operation}
    (hops : t.InRangeAll ops) {k : Key} {id : Nat} (h : t.lookup? k = some id) :
    (t.afterAll ops).lookup? k = some id := by
  have hkept : (t.afterAll ops).Arranged ∧ (t.afterAll ops).names.ids k = some id := by
    refine afterAll_induction (P := fun u => u.Arranged ∧ u.names.ids k = some id) ?_ ⟨ht, h⟩ hops
    rintro u op ⟨hu, hid⟩ hop
    refine ⟨hu.after hop, ?_⟩
    rw [hu.names_after hop]
    exact NameMap.ids_after hid
  exact hkept.2

theorem Arranged.names_afterAll {t : ScopeTable} (ht : t.Arranged) {ops : List Operation}
    (hops : t.InRangeAll ops) : (t.afterAll ops).names = ops.foldl NameMap.after t.names := by
  induction ops generalizing t with
  | nil => rfl
  | cons op ops ih =>
      rw [List.foldl_cons, ← ht.names_after hops.1]
      exact ih (ht.after hops.1) hops.2

/-- An operation answers what the map says. -/
theorem Operation.apply_answer {t : ScopeTable} {op : Operation} {k : Key} (hop : op.InRange t)
    (hk : op.key? = some k) : (op.apply t).map Prod.fst = t.names.answer op k := by
  rcases after_of_key? hop hk with ⟨hsome, -⟩ | ⟨hnone, -, -, hok, -⟩
  · obtain ⟨id, hid⟩ := Option.isSome_iff_exists.mp hsome
    have hids : t.names.ids k = some id := hid
    rw [NameMap.answer, hids]
    by_cases hdeclared : op.declared? = some k
    · rw [Operation.apply_of_some hdeclared hid]
      simp [hdeclared, Except.map]
    · -- The operation binds a parameter, as it does not declare its key.
      cases op with
      | bindParameter m name =>
          obtain rfl := Option.some.inj hk
          have hf : t.find? (.method m) .var name = some id := hid
          simp [apply, ScopeTable.bindParameter, hf, Except.map, declared?]
      | _ => exact absurd hk hdeclared
  · have hids : t.names.ids k = none := hnone
    rw [hok, NameMap.answer, hids]
    rfl

/-! ## Lookup in the map -/

/-- The owners in which a name at a place is looked up: the method of the place, the methods
    around it, the class of the place, the global scope. -/
def Searches (t : ScopeTable) (c : Cursor) (owners : List Owner) : Prop :=
  ∃ methods, t.Outward c.method methods ∧
    owners = methods.map .method ++ c.cls.toList.map .cls ++ [.global]

theorem Nested.searches {t : ScopeTable} (ht : t.Nested) {c : Cursor} (hc : t.Within c) :
    t.Searches c (t.lookupChain c) := by
  refine ⟨t.methodsAround t.methods.size c.method, ?_, rfl⟩
  cases hm : c.method with
  | none =>
      rw [methodsAround_none]
      exact .outside
  | some m => exact ht.outward (hc.method m hm)

/-- The keys under which a name is looked up in an owner, in this order. -/
def keysIn (name : String) (owner : Owner) : List Key :=
  [⟨owner, .var, name⟩, ⟨owner, .method, name⟩, ⟨owner, .cls, name⟩]

theorem resolve_eq_keys (t : ScopeTable) (name : String) (c : Cursor) :
    t.resolve name c = ((t.lookupChain c).flatMap (keysIn name)).findSome?
      fun k => (t.names.ids k).map k.kind.entity := by
  have hkeys : (t.lookupChain c).flatMap (keysIn name) =
      (t.slots c).map fun slot => ⟨slot.1, slot.2, name⟩ := by
    rw [slots, List.map_flatMap]
    rfl
  rw [resolve_eq_findSome?, hkeys, List.findSome?_map]
  rfl

/-- The owner `o` is searched no later than the one in which a lookup had its result, or at
    all if the lookup had none. -/
def InTime (t : ScopeTable) (c : Cursor) (o : Owner) : Option Entity → Prop
  | none => o ∈ t.lookupChain c
  | some e => ∃ before owner after, t.lookupChain c = before ++ owner :: after ∧
      t.ownerOf? e = some owner ∧ (o ∈ before ∨ o = owner)

/-- What a new key changes in the lookups at a place. -/
structure Frame (t t' : ScopeTable) (k : Key) (c : Cursor) : Prop where
  /-- Names are looked up in the same owners. -/
  owners : t'.lookupChain c = t.lookupChain c
  /-- Other names stand for what they stood for. -/
  other : ∀ name, name ≠ k.name → t'.resolve name c = t.resolve name c ∧
    t'.resolveMethod name c = t.resolveMethod name c
  /-- What was found is not lost. -/
  found : ∀ name, ((t.resolve name c).isSome → (t'.resolve name c).isSome) ∧
    ((t.resolveMethod name c).isSome → (t'.resolveMethod name c).isSome)
  /-- A name comes to stand for something else only if the new key is met in time. -/
  inTime : (t'.resolve k.name c ≠ t.resolve k.name c →
      t.InTime c k.owner (t.resolve k.name c)) ∧
    (t'.resolveMethod k.name c ≠ t.resolveMethod k.name c →
      t.InTime c k.owner ((t.resolveMethod k.name c).map .method))

theorem Frame.refl (t : ScopeTable) (k : Key) (c : Cursor) : Frame t t k c where
  owners := rfl
  other _ _ := ⟨rfl, rfl⟩
  found _ := ⟨id, id⟩
  inTime := ⟨fun h => absurd rfl h, fun h => absurd rfl h⟩

/-- A search along owners gives the same result when the owners that it comes to do. -/
theorem findSome?_congr {β : Type} {owners : List Owner} {g g' : Owner → Option β}
    (h : ∀ a ∈ owners, g' a = g a) : owners.findSome? g' = owners.findSome? g := by
  induction owners with
  | nil => rfl
  | cons a owners ih =>
      rw [List.findSome?_cons, List.findSome?_cons, h a List.mem_cons_self,
        ih fun b hb => h b (List.mem_cons_of_mem a hb)]

/-- A search along owners in which one owner has changed comes to that owner, if the result
    is another one. -/
theorem findSome?_change {β : Type} {owners : List Owner} {g g' : Owner → Option β} {o : Owner}
    (hsame : ∀ a, a ≠ o → g' a = g a) (hne : owners.findSome? g' ≠ owners.findSome? g) :
    o ∈ owners ∧ ∀ b, owners.findSome? g = some b →
      ∃ before a after, owners = before ++ a :: after ∧ g a = some b ∧ (o ∈ before ∨ o = a) := by
  constructor
  · by_contra ho
    exact hne (findSome?_congr fun a ha => hsame a fun hao => ho (hao ▸ ha))
  · intro b hb
    obtain ⟨before, a, after, rfl, ha, hbefore⟩ := List.findSome?_eq_some_iff.mp hb
    refine ⟨before, a, after, rfl, ha, ?_⟩
    by_contra ho
    rw [not_or] at ho
    -- The search passes by the same owners as before and stops at the same one.
    have hfront : ∀ x ∈ before, g' x = none := by
      intro x hx
      rw [hsame x fun hxo => ho.1 (hxo ▸ hx)]
      exact hbefore x hx
    apply hne
    rw [hb]
    exact List.findSome?_eq_some_iff.mpr
      ⟨before, a, after, rfl, (hsame a (Ne.symm ho.2)).trans ha, hfront⟩

theorem entityIn?_congr {t t' : ScopeTable} {name : String} {owner : Owner}
    (h : ∀ kind, t'.lookup? ⟨owner, kind, name⟩ = t.lookup? ⟨owner, kind, name⟩) :
    t'.entityIn? name owner = t.entityIn? name owner := by
  have hkinds : (fun kind : EntityKind => (t'.find? owner kind name).map kind.entity) =
      fun kind => (t.find? owner kind name).map kind.entity := by
    funext kind
    exact congrArg (Option.map kind.entity) (h kind)
  rw [entityIn?, entityIn?, hkinds]

/-- When one owner has changed, a search at a place can have another result only if it comes
    to that owner in time. -/
theorem inTime_of_findSome?_ne {t : ScopeTable} {c : Cursor} {o : Owner} {β : Type}
    {g g' : Owner → Option β} (entity : β → Entity) (hsame : ∀ a, a ≠ o → g' a = g a)
    (howner : ∀ a b, g a = some b → t.ownerOf? (entity b) = some a)
    (hne : (t.lookupChain c).findSome? g' ≠ (t.lookupChain c).findSome? g) :
    t.InTime c o (((t.lookupChain c).findSome? g).map entity) := by
  obtain ⟨hmem, hchange⟩ := findSome?_change hsame hne
  cases hres : (t.lookupChain c).findSome? g with
  | none => exact hmem
  | some b =>
      obtain ⟨before, a, after, howners, ha, hin⟩ := hchange b hres
      exact ⟨before, a, after, howners, howner a b ha, hin⟩

/-- Registering an entity changes lookups of its name only, and these only in time. -/
theorem Registers.frame {t t' : ScopeTable} {k : Key} {new : Heading}
    (h : t.Registers k.kind new t') (hk : k = ⟨new.place.owner k.kind, k.kind, new.name⟩)
    (ht : t.Arranged) (ht' : t'.Arranged) {c : Cursor} (hc : t.Within c) : Frame t t' k c := by
  have howners := h.extension.lookupChain ht.nested hc
  have hlookup : ∀ k', k' ≠ k → t'.lookup? k' = t.lookup? k' := by
    intro k' hne
    rw [h.lookup?_eq ht ht', ← hk, Function.update_of_ne hne]
  have hmethod (name : String) (owner : Owner) (hne : ⟨owner, .method, name⟩ ≠ k) :
      t'.find? owner .method name = t.find? owner .method name := hlookup _ hne
  -- Other names are looked up as before, names that were found are found again, and a lookup of
  -- the new name changes only by way of its owner.  Each is said of names and of methods.
  refine ⟨howners, fun name hname => ⟨?_, ?_⟩, fun name => ⟨fun hs => ?_, fun hs => ?_⟩,
    fun hne => ?_, fun hne => ?_⟩
  · rw [resolve, resolve, howners]
    apply findSome?_congr
    intro owner _
    exact entityIn?_congr fun kind => hlookup _ fun he => hname (congrArg Key.name he)
  · rw [resolveMethod, resolveMethod, howners]
    apply findSome?_congr
    intro owner _
    exact hmethod name owner fun he => hname (congrArg Key.name he)
  · rw [resolve, List.findSome?_isSome_iff] at hs ⊢
    obtain ⟨owner, howner, hin⟩ := hs
    exact ⟨owner, howners ▸ howner, h.extension.entityIn?_isSome ht.known hin⟩
  · rw [resolveMethod, List.findSome?_isSome_iff] at hs ⊢
    obtain ⟨owner, howner, hin⟩ := hs
    obtain ⟨id, hid⟩ := Option.isSome_iff_exists.mp hin
    refine ⟨owner, howners ▸ howner, ?_⟩
    rw [h.extension.find? ht.known hid]
    rfl
  · rw [resolve, resolve, howners] at hne
    have hin := inTime_of_findSome?_ne id
      (fun a ha => entityIn?_congr fun kind => hlookup _ fun he => ha (congrArg Key.owner he))
      (fun a e he => ?_) hne
    · rwa [Option.map_id] at hin
    · have hid : t.lookup? ⟨a, e.kind, k.name⟩ = some e.id := entityIn?_eq_some he
      simpa using ((ht.lookup?_eq_some_iff _ _).mp hid).1
  · rw [resolveMethod, resolveMethod, howners] at hne
    exact inTime_of_findSome?_ne .method
      (fun a ha => hmethod k.name a fun he => ha (congrArg Key.owner he))
      (fun a id hid => ((ht.lookup?_eq_some_iff ⟨a, .method, k.name⟩ id).mp hid).1) hne

/-! ## Tables behave as maps -/

/-- A table that can be told from its map by no operation and no lookup. -/
structure ActsAsMap (t : ScopeTable) : Prop where
  /-- A key stands for the entity whose record has that owner and that name. -/
  mapped : ∀ k id, t.names.ids k = some id ↔
    t.ownerOf? (k.kind.entity id) = some k.owner ∧ t.name? (k.kind.entity id) = some k.name
  /-- Operations that declare or bind a key answer what the map says. -/
  answered : ∀ op k, op.InRange t → op.key? = some k →
    (op.apply t).map Prod.fst = t.names.answer op k
  /-- A key that is there leaves the whole table as it is. -/
  unchanged : ∀ op k id, op.InRange t → op.key? = some k → t.names.ids k = some id →
    t.after op = t
  /-- The map follows the operations on the table. -/
  followed : ∀ op, op.InRange t → (t.after op).names = t.names.after op
  /-- Keys keep their ids. -/
  kept : ∀ ops k id, t.InRangeAll ops → t.names.ids k = some id →
    (t.afterAll ops).names.ids k = some id
  /-- What is declared at a place is found under the key of a declaration at that place. -/
  declared : ∀ kind name c, t.findDeclared kind name c = t.names.ids ⟨c.owner kind, kind, name⟩
  /-- Names are looked up in the owners from the inside outward. -/
  searched : ∀ c, t.Within c → t.Searches c (t.lookupChain c)
  /-- The first key on the way that is there decides what a name stands for. -/
  resolved : ∀ name c, t.resolve name c = ((t.lookupChain c).flatMap (keysIn name)).findSome?
    fun k => (t.names.ids k).map k.kind.entity
  /-- Lookups of methods pass by everything else. -/
  resolvedMethod : ∀ name c, t.resolveMethod name c =
    (t.lookupChain c).findSome? fun owner => t.names.ids ⟨owner, .method, name⟩
  /-- A new key changes lookups of its name only, and these only when it is met in time. -/
  framed : ∀ op k c, op.InRange t → op.key? = some k → t.Within c → Frame t (t.after op) k c

theorem Arranged.actsAsMap {t : ScopeTable} (ht : t.Arranged) : t.ActsAsMap where
  mapped := ht.lookup?_eq_some_iff
  answered _ _ := Operation.apply_answer
  unchanged op k id hop hk hid := by
    rcases after_of_key? hop hk with ⟨-, hsame⟩ | ⟨hnone, -⟩
    · exact hsame
    · exact absurd (hid.symm.trans hnone) nofun
  followed _ := ht.names_after
  kept _ _ _ hops hid := ht.lookup?_afterAll hops hid
  declared _ _ _ := rfl
  searched _ := ht.nested.searches
  resolved := t.resolve_eq_keys
  resolvedMethod _ _ := rfl
  framed op k c hop hk hc := by
    rcases after_of_key? hop hk with ⟨-, hsame⟩ | ⟨-, new, hnew, -, hreg⟩
    · rw [hsame]
      exact .refl t k c
    · exact hreg.frame hnew ht (ht.after hop) hc

/-- A table that is built by operations with ids in range keeps the map that the operations
    make from the empty one, and behaves as that map from then on. -/
theorem table_refines_name_map {ops : List Operation} {t : ScopeTable}
    (hops : empty.InRangeAll ops) (ht : empty.afterAll ops = t) :
    t.names = ops.foldl NameMap.after NameMap.empty ∧ t.ActsAsMap := by
  subst ht
  refine ⟨?_, (arranged_afterAll hops).actsAsMap⟩
  rw [arranged_empty.names_afterAll hops, names_empty]

/-- A variable outside of everything, and two methods in a class, one inside the other. -/
def layeredOperations : List Operation :=
  [ .declareVariable "x" .global,
    .declareClass "A" .global,
    .declareMethod "f" "Int" [] (.inClass 0),
    .declareMethod "g" "Int" [] ⟨some 0, some 0⟩ ]

/-- What `layeredOperations` build. -/
def layeredTable : ScopeTable where
  classes := #[⟨"A", none, { methods := [0] }⟩]
  methods := #[⟨"f", "Int", [], some 0, none, { methods := [1] }, []⟩,
    ⟨"g", "Int", [], some 0, some 0, {}, []⟩]
  vars := #[⟨"x", none, none, none⟩]
  global := { classes := [0], vars := [0] }

/-- A variable that is declared in the outer method hides the one outside from the inner
    method, which comes to it first. -/
theorem layered_table_refines_name_map :
    empty.InRangeAll layeredOperations ∧ empty.afterAll layeredOperations = layeredTable ∧
      layeredTable.names = layeredOperations.foldl NameMap.after NameMap.empty ∧
      layeredTable.resolve "x" ⟨some 0, some 1⟩ = some (.var 0) ∧
      (layeredTable.after (.declareVariable "x" ⟨some 0, some 0⟩)).resolve "x" ⟨some 0, some 1⟩ =
        some (.var 1) ∧
      layeredTable.InTime ⟨some 0, some 1⟩ (.method 0) (some (.var 0)) := by
  have hops : empty.InRangeAll layeredOperations := by decide
  have ht : empty.afterAll layeredOperations = layeredTable := by cbv
  have hold : layeredTable.resolve "x" ⟨some 0, some 1⟩ = some (.var 0) := by cbv
  have hnew : (layeredTable.after (.declareVariable "x" ⟨some 0, some 0⟩)).resolve "x"
      ⟨some 0, some 1⟩ = some (.var 1) := by cbv
  have hwithin : layeredTable.Within ⟨some 0, some 1⟩ :=
    ⟨fun _ hid => Option.some.inj hid ▸ by decide, fun _ hid => Option.some.inj hid ▸ by decide⟩
  obtain ⟨hnames, hmap⟩ := table_refines_name_map hops ht
  have hframe := hmap.framed (.declareVariable "x" ⟨some 0, some 0⟩) ⟨.method 0, .var, "x"⟩ _
    (by decide) rfl hwithin
  have hin := hframe.inTime.1 (by rw [hold, hnew]; decide)
  rw [hold] at hin
  exact ⟨hops, ht, hnames, hold, hnew, hin⟩

end BlockLang.ScopeTable
