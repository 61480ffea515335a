/-
  BlockLang.Proofs.Scope.Precedence

  When a growing table changes what a name stands for.

  A name is looked up in slots: one for each owner of the chain and each kind of
  entity, in a fixed order.  The first slot with an entity of the name decides.  When
  the table grows, the name comes to stand for something else exactly when an entity
  of that name is declared in a slot in front of the one that decided before.
-/
import BlockLang.Proofs.Scope.Extension

namespace BlockLang.ScopeTable

/-- The slots in which a name at a place is looked up, in this order. -/
def slots (t : ScopeTable) (c : Cursor) : List (Owner × EntityKind) :=
  (t.lookupChain c).flatMap fun owner => [(owner, .var), (owner, .method), (owner, .cls)]

/-- The entity of a name in a slot. -/
def inSlot? (t : ScopeTable) (name : String) (slot : Owner × EntityKind) : Option Entity :=
  (t.find? slot.1 slot.2 name).map slot.2.entity

/-- The slot of an entity. -/
def slot? (t : ScopeTable) (e : Entity) : Option (Owner × EntityKind) :=
  (t.ownerOf? e).map fun owner => (owner, e.kind)

/-- The first slot with an entity of a name decides what the name stands for. -/
theorem resolve_eq_findSome? (t : ScopeTable) (name : String) (c : Cursor) :
    t.resolve name c = (t.slots c).findSome? (t.inSlot? name) := by
  rw [resolve, slots]
  induction t.lookupChain c with
  | nil => rfl
  | cons owner owners ih =>
      have hfirst : t.entityIn? name owner =
          ([(owner, .var), (owner, .method), (owner, .cls)] :
            List (Owner × EntityKind)).findSome? (t.inSlot? name) := rfl
      rw [List.flatMap_cons, List.findSome?_append, ← hfirst, ← ih]
      cases h : t.entityIn? name owner <;> simp [h]

theorem Coherent.slot?_of_inSlot? {t : ScopeTable} (ht : t.Coherent) {name : String}
    {slot : Owner × EntityKind} {e : Entity} (h : t.inSlot? name slot = some e) :
    t.slot? e = some slot ∧ t.name? e = some name := by
  obtain ⟨id, hid, rfl⟩ := Option.map_eq_some_iff.mp h
  obtain ⟨hmem, hname⟩ := find?_eq_some hid
  have howner := (ht.owned slot.1 slot.2 id).mp hmem
  exact ⟨by simp [slot?, howner], hname⟩

/-- A slot that an entity of a name is in has an entity of that name. -/
theorem Coherent.inSlot?_isSome {t : ScopeTable} (ht : t.Coherent) {name : String}
    {slot : Owner × EntityKind} {e : Entity} (hslot : t.slot? e = some slot)
    (hname : t.name? e = some name) : (t.inSlot? name slot).isSome := by
  obtain ⟨owner, howner, rfl⟩ := Option.map_eq_some_iff.mp hslot
  have hmem : e.id ∈ (t.members owner).ofKind e.kind :=
    (ht.owned owner e.kind e.id).mpr (by simpa using howner)
  rw [inSlot?, Option.isSome_map, find?, List.find?_isSome]
  exact ⟨e.id, hmem, by simp [hname]⟩

/-- The entity `d` takes the name from `e` when `t` grows to `u`: it is declared
    later and looked up in front of `e`. -/
structure Overtakes (t u : ScopeTable) (name : String) (c : Cursor) (e d : Entity) : Prop where
  later : t.heading? d = none
  named : u.name? d = some name
  earlier : ∃ a b, u.slot? d = some a ∧ u.slot? e = some b ∧ a ∈ (u.slots c).takeWhile (· ≠ b)

namespace Extends

variable {t u : ScopeTable} (h : t.Extends u) (ht : t.Coherent) (hu : u.Coherent)
include h ht hu

/-- An entity in a slot that was empty before is declared later. -/
theorem later_of_inSlot? {name : String} {slot : Owner × EntityKind} {d : Entity}
    (hempty : t.inSlot? name slot = none) (hd : u.inSlot? name slot = some d) :
    t.heading? d = none := by
  obtain ⟨hslot, hname⟩ := hu.slot?_of_inSlot? hd
  cases hheading : t.heading? d with
  | none => rfl
  | some heading =>
      have hplace : t.place? d = some heading.place := by
        rw [ScopeTable.place?, hheading, Option.map_some]
      have hslot' : t.slot? d = some slot := by
        rw [← hslot, slot?, slot?, ScopeTable.ownerOf?, ScopeTable.ownerOf?, hplace,
          h.place? hplace]
      have hname' : t.name? d = some name := by
        rw [name?_eq, h.heading d heading hheading] at hname
        rw [name?_eq, hheading, hname]
      have hsome := ht.inSlot?_isSome hslot' hname'
      rw [hempty] at hsome
      exact absurd hsome Bool.false_ne_true

/-- In a growing table a name keeps standing for the same entity unless another one
    overtakes that. -/
theorem resolve_eq_iff {name : String} {c : Cursor} (hc : t.Within c) {e : Entity}
    (he : t.resolve name c = some e) :
    u.resolve name c = some e ↔ ¬∃ d, Overtakes t u name c e d := by
  rw [resolve_eq_findSome?, List.findSome?_eq_some_iff] at he
  obtain ⟨front, slot, rest, hslots, hslot, hfront⟩ := he
  have hslots' : u.slots c = front ++ slot :: rest := by
    rw [← hslots, slots, slots, h.lookupChain ht.nested hc]
  -- The slot that decides in `t` still has its entity in `u`.
  have hkept : u.inSlot? name slot = some e := by
    obtain ⟨id, hid, rfl⟩ := Option.map_eq_some_iff.mp hslot
    rw [inSlot?, h.find? ht.listed hid, Option.map_some]
  have hslot_e : u.slot? e = some slot := (hu.slot?_of_inSlot? hkept).1
  have hnot_mem : slot ∉ front := fun hmem => by
    rw [hfront slot hmem] at hslot
    exact absurd hslot nofun
  have hfront_eq : (u.slots c).takeWhile (· ≠ slot) = front := by
    rw [hslots', List.takeWhile_append_of_pos]
    · simp
    · intro a ha
      simpa using fun h : a = slot => hnot_mem (h ▸ ha)
  rw [resolve_eq_findSome?, hslots', List.findSome?_append]
  constructor
  · rintro hres ⟨d, hd⟩
    obtain ⟨a, b, ha, hb, hmem⟩ := hd.earlier
    obtain rfl : slot = b := Option.some.inj (hslot_e.symm.trans hb)
    rw [hfront_eq] at hmem
    -- Some slot in front has an entity, and that slot is not the one of `e`.
    have hsome : (front.findSome? (u.inSlot? name)).isSome :=
      List.findSome?_isSome_iff.mpr ⟨a, hmem, hu.inSlot?_isSome ha hd.named⟩
    obtain ⟨e', he'⟩ := Option.isSome_iff_exists.mp hsome
    obtain rfl : e' = e := by simpa [he'] using hres
    obtain ⟨a', ha', hin⟩ := List.exists_of_findSome?_eq_some he'
    have hslot_eq := (hu.slot?_of_inSlot? hin).1.symm.trans hslot_e
    exact hnot_mem (Option.some.inj hslot_eq ▸ ha')
  · intro hnone
    have hempty : front.findSome? (u.inSlot? name) = none := by
      rw [List.findSome?_eq_none_iff]
      intro a ha
      by_contra hsome
      obtain ⟨d, hd⟩ := Option.ne_none_iff_exists'.mp hsome
      obtain ⟨hslot_d, hname_d⟩ := hu.slot?_of_inSlot? hd
      refine hnone ⟨d, h.later_of_inSlot? ht hu (hfront a ha) hd, hname_d, a, slot, hslot_d,
        hslot_e, ?_⟩
      rw [hfront_eq]
      exact ha
    rw [hempty, Option.none_or, List.findSome?_cons, hkept]

end Extends

end BlockLang.ScopeTable
