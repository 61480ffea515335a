/-
  BlockLang.Proofs.BodyNumbers

  The numbers of bodies mean the same in the tree, in the table and in a run.

  Listed in the order in which they end, the bodies of an accepted program have the
  numbers 0, 1, 2 and so on.  The table lists for each method the numbers of its bodies in
  that order, and a program that is ready to run holds each body at its number.
-/
import BlockLang.Proofs.Parser.Numbering
import BlockLang.Proofs.Eval.Soundness
import BlockLang.Proofs.Replay

namespace BlockLang

section Indexing

variable {bodies numbered : List MethodBody} {count : Nat}
  (hids : numbered.map (·.head.id) = List.range count)
include hids

/-- A body in a list that is numbered from zero on has the number of its place. -/
theorem id_eq_of_numbered {k : Nat} {b : MethodBody} (hb : numbered[k]? = some b) :
    b.head.id = k := by
  have hget := congrArg (·[k]?) hids
  simp only [List.getElem?_map, hb, Option.map_some] at hget
  obtain ⟨_, hk⟩ := List.getElem?_eq_some_iff.mp hget.symm
  rw [List.getElem_range] at hk
  exact hk.symm

/-- The body of a number stands at the place of that number. -/
theorem getElem?_numbered {b : MethodBody} (hb : b ∈ numbered) :
    numbered[b.head.id]? = some b := by
  obtain ⟨k, hk⟩ := List.getElem?_of_mem hb
  rw [id_eq_of_numbered hids hk]
  exact hk

variable (hperm : numbered.Perm bodies)
include hperm

/-- Of bodies with different numbers, a search by number finds the one that has it. -/
theorem find?_numbered {id : Nat} {b : MethodBody} (hb : b ∈ bodies) (hid : b.head.id = id) :
    bodies.find? (·.head.id == id) = some b := by
  have hnodup : (bodies.map (·.head.id)).Nodup := by
    have hsame := hperm.map (·.head.id)
    rw [hids] at hsame
    exact hsame.nodup List.nodup_range
  obtain ⟨b', hb'⟩ : ∃ b', bodies.find? (·.head.id == id) = some b' :=
    Option.isSome_iff_exists.mp (List.find?_isSome.mpr ⟨b, hb, beq_iff_eq.mpr hid⟩)
  have hid' : b'.head.id = id := by simpa using List.find?_some hb'
  have hmem := List.mem_of_find?_eq_some hb'
  rw [hb', List.inj_on_of_nodup_map hnodup hmem hb (hid'.trans hid.symm)]

/-- Indexing puts numbered bodies in the order of their numbers. -/
theorem indexBodies?_numbered : indexBodies? bodies count = some numbered.toArray := by
  have hlength : numbered.length = count := by simpa using congrArg List.length hids
  -- A search for each number in turn gives the bodies in the order of their numbers.
  have hfind : (List.range count).map (fun id => bodies.find? (·.head.id == id)) =
      numbered.map some := by
    refine List.ext_getElem (by simp [hlength]) fun id hlt hlt' => ?_
    simp only [List.getElem_map, List.getElem_range]
    rw [List.length_map] at hlt'
    refine find?_numbered hids hperm (hperm.mem_iff.mp (List.getElem_mem hlt')) ?_
    exact id_eq_of_numbered hids (List.getElem?_eq_getElem hlt')
  obtain ⟨indexed, hindexed⟩ := exists_mapM_of_forall (l := List.range count)
    (f := fun id => bodies.find? (·.head.id == id)) fun id hid => by
      have hmem := List.mem_map_of_mem (f := fun id => bodies.find? (·.head.id == id)) hid
      rw [hfind] at hmem
      obtain ⟨b, -, hb⟩ := List.mem_map.mp hmem
      exact ⟨b, hb.symm⟩
  have hsame : indexed.map some = numbered.map some := (map_eq_of_mapM hindexed).symm.trans hfind
  rw [indexBodies?, if_pos (hperm.length_eq.symm.trans hlength), hindexed,
    List.map_injective_iff.mpr (Option.some_injective _) hsame]
  rfl

end Indexing

/-- In an accepted program, the bodies in the order in which they end are numbered from
    zero on, and the table lists the numbers of each method's bodies in that order.  So the
    program can be made ready to run; the bodies are then held in that order, and every
    number that the table lists for a method leads to the body of that number, which is one
    of that method. -/
theorem bodies_numbered_by_end {tokens : List Token} {p : Parsed}
    (h : parseTokens tokens = .ok p) :
    (bodiesByEndOf p.items).map (·.head.id) = List.range p.scopes.bodyCount ∧
      (∀ m, p.scopes.implementations m =
        ((bodiesByEndOf p.items).filter (·.head.method == m)).map (·.head.id)) ∧
      ∀ limit, ∃ x, p.prepare? limit = some x ∧ x.bodies.toList = bodiesByEndOf p.items ∧
        ∀ m id, id ∈ p.scopes.implementations m →
          ∃ b, x.bodies[id]? = some b ∧ b.head.id = id ∧ b.head.method = m := by
  obtain ⟨s', -, hscopes, hread⟩ := read_parseTokens h
  have hnumbers := hread.numbers (ParseState.ready_ofTokens tokens p.items)
  rw [ParseState.ofTokens_scopes, hscopes] at hnumbers
  have hids : (bodiesByEndOf p.items).map (·.head.id) = List.range p.scopes.bodyCount :=
    hnumbers.ids_of_empty
  have himplementations := hnumbers.implementations_of_empty
  refine ⟨hids, himplementations, fun limit => ⟨⟨p.items, p.scopes,
    (bodiesByEndOf p.items).toArray, limit⟩, ?_, rfl, fun m id hid => ?_⟩⟩
  -- The bodies of the tree are put in the order of their numbers, whatever order they come in.
  · have hperm : (bodiesByEndOf p.items).Perm (bodiesOf p.items) :=
      (Phrase.items p.items).perm_bodiesByEnd
    rw [Parsed.prepare?, indexBodies?_numbered hids hperm]
    rfl
  · rw [himplementations m] at hid
    obtain ⟨b, hb, rfl⟩ := List.mem_map.mp hid
    obtain ⟨hmem, hmethod⟩ := List.mem_filter.mp hb
    refine ⟨b, ?_, rfl, beq_iff_eq.mp hmethod⟩
    rw [List.getElem?_toArray]
    exact getElem?_numbered hids hmem

theorem nested_bodies_numbered :
    parseTokens nestedTokens = .ok ⟨nestedItems, nestedTable⟩ ∧
      (bodiesByEndOf nestedItems).map (fun b => (b.head.name.name, b.head.id, b.head.method)) =
        [("k", 0, 1), ("m", 1, 0), ("m", 2, 0)] ∧
      nestedTable.implementations 0 = [1, 2] ∧
      ∃ x, (Parsed.mk nestedItems nestedTable).prepare? none = some x ∧
        ∃ b, x.bodies[1]? = some b ∧ b.head.id = 1 ∧ b.head.method = 0 := by
  obtain ⟨-, -, hready⟩ := bodies_numbered_by_end parseTokens_nested
  obtain ⟨x, hx, -, hbody⟩ := hready none
  exact ⟨parseTokens_nested, rfl, rfl, x, hx, hbody 0 1 (by decide)⟩

end BlockLang
