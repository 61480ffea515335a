/-
  BlockLang.Proofs.Eval.Soundness

  Programs that fit their tables are safe to run.

  Every phrase that is scoped at a place is carried out safely there.  The proof is
  an induction over the tree, given that calls are safe; calls are safe by induction
  on the fuel, since the bodies that they lead to stand in the tree as well.
-/
import BlockLang.Proofs.Eval.Safety

namespace BlockLang

/-! ## Programs that are ready to run -/

section MapM

variable {α β : Type} {f : α → Option β}

theorem exists_mapM_of_forall {l : List α} (h : ∀ a ∈ l, ∃ b, f a = some b) :
    ∃ l', l.mapM f = some l' := by
  induction l with
  | nil => exact ⟨[], rfl⟩
  | cons a l ih =>
      obtain ⟨b, hb⟩ := h a List.mem_cons_self
      obtain ⟨l', hl'⟩ := ih fun a' ha' => h a' (List.mem_cons_of_mem a ha')
      exact ⟨b :: l', by simp [List.mapM_cons, hb, hl']⟩

theorem map_eq_of_mapM {l : List α} {l' : List β} (h : l.mapM f = some l') :
    l.map f = l'.map some := by
  induction l generalizing l' with
  | nil =>
      obtain rfl : [] = l' := by simpa using h
      rfl
  | cons a l ih =>
      rw [List.mapM_cons] at h
      obtain ⟨b, hb, h⟩ := Option.bind_eq_some_iff.mp h
      obtain ⟨bs, hbs, h⟩ := Option.bind_eq_some_iff.mp h
      obtain rfl : b :: bs = l' := by simpa using h
      rw [List.map_cons, List.map_cons, hb, ih hbs]

end MapM

/-- Indexed bodies stand at their numbers. -/
theorem indexBodies?_eq_some {bodies : List MethodBody} {count : Nat} {indexed : Array MethodBody}
    (h : indexBodies? bodies count = some indexed) : indexed.size = count ∧
      ∀ (id : Nat) (b : MethodBody), indexed[id]? = some b → b.head.id = id ∧ b ∈ bodies := by
  rw [indexBodies?] at h
  split at h
  · obtain ⟨list, hlist, rfl⟩ := Option.map_eq_some_iff.mp h
    have hmap := map_eq_of_mapM hlist
    constructor
    · simpa using congrArg List.length hmap.symm
    · intro id b hb
      have hid := congrArg (·[id]?) hmap
      simp only [List.getElem?_map] at hid
      rw [List.getElem?_toArray] at hb
      rw [hb, Option.map_some, Option.map_eq_some_iff] at hid
      obtain ⟨id', hid', hfind⟩ := hid
      obtain ⟨_, rfl⟩ := List.getElem?_eq_some_iff.mp hid'
      rw [List.getElem_range] at hfind
      exact ⟨by simpa using List.find?_some hfind, List.mem_of_find?_eq_some hfind⟩
  · cases h

/-- A program that is ready to run and whose tree fits its table. -/
structure Executable.WellScoped (x : Executable) : Prop where
  coherent : x.scopes.Coherent
  tree : (Phrase.items x.items).Scoped x.scopes .global
  unassigned : ∀ v, x.scopes.value? v = none
  size_bodies : x.bodies.size = x.scopes.bodyCount
  /-- Bodies stand at their numbers, and each of them stands in the tree. -/
  body : ∀ (id : Nat) (b : MethodBody), x.bodies[id]? = some b → b.head.id = id ∧
    ∃ path, (Phrase.items x.items).at? path = some (.item (.methodBody b.head b.block))

namespace Parsed.WellScoped

variable {p : Parsed} (hp : p.WellScoped)
include hp

theorem exists_prepare (limit : Option Nat) : ∃ x, p.prepare? limit = some x := by
  have hlength : (bodiesOf p.items).length = p.scopes.bodyCount := by
    simpa using hp.numbered.length_eq
  have hall : ∀ id ∈ List.range p.scopes.bodyCount,
      ∃ b, (bodiesOf p.items).find? (·.head.id == id) = some b := by
    intro id hid
    obtain ⟨b, hb, rfl⟩ := List.mem_map.mp (hp.numbered.mem_iff.mpr hid)
    exact Option.isSome_iff_exists.mp (List.find?_isSome.mpr ⟨b, hb, beq_self_eq_true _⟩)
  obtain ⟨bodies, hbodies⟩ := exists_mapM_of_forall hall
  exact ⟨_, by rw [prepare?, indexBodies?, if_pos hlength, hbodies]; rfl⟩

/-- Making a program ready to run keeps its tree and its table. -/
theorem prepare {limit : Option Nat} {x : Executable} (h : p.prepare? limit = some x) :
    x.items = p.items ∧ x.scopes = p.scopes ∧ x.limit = limit ∧ x.WellScoped := by
  obtain ⟨bodies, hbodies, rfl⟩ := Option.map_eq_some_iff.mp h
  obtain ⟨hsize, hget⟩ := indexBodies?_eq_some hbodies
  refine ⟨rfl, rfl, rfl, hp.coherent, hp.tree, hp.unassigned, hsize, fun id b hb => ?_⟩
  obtain ⟨hid, hmem⟩ := hget id b hb
  exact ⟨hid, (Phrase.items p.items).exists_at_of_mem_bodies hmem⟩

end Parsed.WellScoped

/-! ## Calls -/

/-- A method that may be called at a place has only methods around it that are around
    the place as well. -/
theorem ScopeTable.Coherent.encloses_of_admits {t : ScopeTable} (ht : t.Coherent) {c : Cursor}
    (hc : t.Within c) {m : MethodId} (hm : t.Admits c (.method m)) (n : MethodId)
    (hn : t.Encloses (t.outerMethod? m) n) : t.Encloses c.method n := by
  obtain ⟨owner, howner, hown⟩ := hm
  obtain ⟨a, ha, han⟩ := hn
  rw [outerMethod?_eq] at ha
  obtain ⟨place, hplace, hmethod⟩ := Option.bind_eq_some_iff.mp ha
  -- The parent method of a method is its owner.
  have howner' : owner = .method a := by
    rw [ownerOf?, hplace, Option.map_some, Option.some.injEq] at hown
    rw [← hown]
    simp [Entity.kind, Cursor.owner, Cursor.memberOwner, hmethod]
  rw [howner'] at howner
  obtain ⟨k, hk, hka⟩ := (ht.method_mem_lookupChain hc).mp howner
  exact ⟨k, hk, hka.trans han⟩

/-- Whether calls of methods are safe: they leave the variables of all methods alone
    but of those around the called one. -/
def SafeCalls (t : ScopeTable) (dispatch : Dispatch) : Prop :=
  ∀ c m name arguments,
    Safe t (t.outerMethod? m) c (dispatch m name arguments) fun _ => True

section Tree

variable {t : ScopeTable} {c : Cursor} {dispatch : Dispatch}

theorem safe_callWith (ht : t.Coherent) (hc : t.Within c) (hd : SafeCalls t dispatch)
    {callee : Callee} (h : t.Admits c callee.target) (arguments : List Value) :
    Safe t c.method c (callWith dispatch callee arguments) fun _ => True := by
  unfold callWith
  split
  · exact fun r _ _ => ⟨⟨rfl, rfl, fun _ _ _ _ => rfl⟩, trivial⟩
  · exact .fail rfl
  · rename_i m hm
    rw [hm] at h
    exact (hd c m _ _).mono (ht.encloses_of_admits hc h)

/-- Whether a phrase is carried out safely at a place. -/
def Phrase.RunsSafely (t : ScopeTable) (limit : Option Nat) (fuel : Nat) (dispatch : Dispatch)
    (c : Cursor) : Phrase → Prop
  | expr e => Safe t c.method c (evalExpr dispatch e) fun _ => True
  | arguments es => Safe t c.method c (evalExprs dispatch es) fun _ => True
  | item i => Safe t c.method c (execItem limit fuel dispatch i) fun _ => True
  | items is => Safe t c.method c (execItems limit fuel dispatch is) fun _ => True
  | _ => True

theorem safe_evalCondition {condition : Expr} {line : Nat}
    (h : Safe t c.method c (evalExpr dispatch condition) fun _ => True) :
    Safe t c.method c (evalCondition dispatch condition line) fun _ => True := by
  refine h.bind fun value _ => ?_
  split
  · exact .pure trivial
  · exact .fail rfl

theorem runsSafely_expr (ht : t.Coherent) (hc : t.Within c) (hd : SafeCalls t dispatch)
    {limit : Option Nat} {fuel : Nat} {e : Expr} (h : (Phrase.expr e).Fits t c)
    (ih : ∀ part ∈ (Phrase.expr e).parts, part.RunsSafely t limit fuel dispatch c) :
    (Phrase.expr e).RunsSafely t limit fuel dispatch c := by
  cases e with
  | assign target e =>
      have he := ih (.expr e) List.mem_cons_self
      exact he.bind fun v _ => safe_assign ht hc h
  | binary level left op right =>
      have hleft := ih (.expr left) List.mem_cons_self
      have hright := ih (.expr right) (List.mem_cons_of_mem _ List.mem_cons_self)
      refine hleft.bind fun a _ => hright.bind fun b _ => safe_ofExcept fun e he => ?_
      exact Level.apply_isInternal h he
  | unary op e =>
      have he := ih (.expr e) List.mem_cons_self
      exact he.bind fun a _ => safe_ofExcept fun e' he' => applyUnary_isInternal h he'
  | grouping e => exact ih (.expr e) List.mem_cons_self
  | literal v => exact .pure trivial
  | name id => exact safe_readName h
  | call callee es =>
      have hes := ih (.arguments es) List.mem_cons_self
      exact hes.bind fun vs _ => safe_callWith ht hc hd h vs

theorem runsSafely_item (ht : t.Coherent) (hc : t.Within c) (hd : SafeCalls t dispatch)
    {limit : Option Nat} {fuel : Nat} {i : Item} (h : (Phrase.item i).Fits t c)
    (ih : ∀ part ∈ (Phrase.item i).parts,
      part.RunsSafely t limit fuel dispatch ((Phrase.item i).cursorInside t c)) :
    (Phrase.item i).RunsSafely t limit fuel dispatch c := by
  cases i with
  | classDecl name body =>
      have hbody := ih (.items body) List.mem_cons_self
      refine (safe_requireDeclared h).bind fun id hid => ?_
      rw [Phrase.cursorInside, hid] at hbody
      -- Inside a class there is no method around.
      exact hbody.of_none.withCursor
  | methodDecl name returnType types =>
      obtain ⟨m, hm, -⟩ := h
      exact (safe_requireDeclared (Option.isSome_of_eq_some hm)).bind fun _ _ => .pure trivial
  | varDecl name type => exact (safe_requireDeclared h).bind fun _ _ => .pure trivial
  | assign target e =>
      have he := ih (.expr e) List.mem_cons_self
      exact he.bind fun v _ => (safe_assign ht hc h).bind fun _ _ => .pure trivial
  | ifThen e body line =>
      have he := ih (.expr e) List.mem_cons_self
      have hbody := ih (.items body) (List.mem_cons_of_mem _ List.mem_cons_self)
      refine (safe_evalCondition he).bind fun b _ => ?_
      split
      · exact hbody
      · exact .pure trivial
  | whileLoop e body line =>
      have he := ih (.expr e) List.mem_cons_self
      have hbody := ih (.items body) (List.mem_cons_of_mem _ List.mem_cons_self)
      exact safe_loop (safe_evalCondition he) hbody limit line fuel 0
  | methodBody head body => exact .pure trivial
  | call callee es =>
      have hes := ih (.arguments es) List.mem_cons_self
      exact hes.bind fun vs _ => (safe_callWith ht hc hd h vs).bind fun _ _ => .pure trivial
  | expr e =>
      have he := ih (.expr e) List.mem_cons_self
      exact he.bind fun _ _ => .pure trivial

/-- A phrase that is scoped at a place is carried out safely there. -/
theorem Phrase.Scoped.runsSafely (ht : t.Coherent) (hd : SafeCalls t dispatch)
    (limit : Option Nat) (fuel : Nat) {φ : Phrase} (h : φ.Scoped t c) (hc : t.Within c) :
    φ.RunsSafely t limit fuel dispatch c := by
  induction h with
  | @intro c φ hfits hparts ih =>
      have hpart (part : Phrase) (hpart : part ∈ φ.parts) :=
        ih part hpart (hfits.within_cursorInside ht hc)
      cases φ with
      | expr e => exact runsSafely_expr ht hc hd hfits hpart
      | arguments es =>
          cases es with
          | nil => exact Safe.pure trivial
          | cons e es =>
              have he := hpart (.expr e) List.mem_cons_self
              have hes := hpart (.arguments es) (List.mem_cons_of_mem _ List.mem_cons_self)
              exact Safe.bind he fun v _ => Safe.bind hes fun vs _ => .pure trivial
      | item i => exact runsSafely_item ht hc hd hfits hpart
      | items is =>
          cases is with
          | nil => exact Safe.pure trivial
          | cons i is =>
              have hi := hpart (.item i) List.mem_cons_self
              have his := hpart (.items is) (List.mem_cons_of_mem _ List.mem_cons_self)
              exact Safe.bind hi fun _ _ => his
      | _ => trivial

end Tree

/-! ## Choosing a body -/

section Bodies

variable {t : ScopeTable} {c c' : Cursor} {dispatch : Dispatch}

/-- Constants are evaluated without regard to the place, and change nothing. -/
theorem safe_constant {e : Expr} (hconst : e.isConstant) (h : (Phrase.expr e).Scoped t c') :
    Safe t none c (evalExpr dispatch e) fun _ => True := by
  cases e with
  | literal v => exact .pure trivial
  | unary op e =>
      have he : Safe t none c (evalExpr dispatch e) fun _ => True :=
        safe_constant hconst (h.part List.mem_cons_self)
      exact he.bind fun a _ => safe_ofExcept fun e' he' => applyUnary_isInternal h.fits he'
  | grouping e =>
      have he : Safe t none c (evalExpr dispatch e) fun _ => True :=
        safe_constant hconst (h.part List.mem_cons_self)
      exact he
  | _ => exact absurd hconst Bool.false_ne_true

theorem Phrase.Scoped.pattern_of_mem {m : MethodId} {ps : List Pattern} {p : Pattern}
    (h : (Phrase.patterns m ps).Scoped t c) (hp : p ∈ ps) : (Phrase.pattern m p).Scoped t c := by
  induction ps with
  | nil => exact absurd hp List.not_mem_nil
  | cons q ps ih =>
      rcases List.mem_cons.mp hp with rfl | hp
      · exact h.part List.mem_cons_self
      · exact ih (h.part (List.mem_cons_of_mem _ List.mem_cons_self)) hp

theorem safe_patternsAccept {m : MethodId} {ps : List Pattern}
    (h : (Phrase.patterns m ps).Scoped t c') (values : List Value) :
    Safe t none c (patternsAccept dispatch ps values) fun _ => True := by
  induction ps generalizing values with
  | nil => exact .pure trivial
  | cons p ps ih =>
      have hrest := ih (h.part (List.mem_cons_of_mem _ List.mem_cons_self))
      cases values with
      | nil => cases p <;> exact .pure trivial
      | cons value values =>
          cases p with
          | binding name => exact hrest values
          | value e =>
              have hp := h.part (ψ := .pattern m (.value e)) List.mem_cons_self
              have he : Safe t none c (evalExpr dispatch e) fun _ => True :=
                safe_constant hp.fits (hp.part List.mem_cons_self)
              refine he.bind fun expected _ => ?_
              split
              · exact hrest values
              · exact .pure trivial

/-- Choosing a body changes nothing, and a chosen body is one of those given. -/
theorem safe_selectBody {bodies : Array MethodBody}
    (h : ∀ (id : Nat) (b : MethodBody), bodies[id]? = some b →
      ∃ c', (Phrase.patterns b.head.method b.head.patterns).Scoped t c')
    (values : List Value) (ids : List BodyId) :
    Safe t none c (selectBody bodies dispatch values ids) fun chosen =>
      ∀ b, chosen = some b → ∃ id ∈ ids, bodies[id]? = some b := by
  induction ids with
  | nil => exact .pure fun _ hb => absurd hb nofun
  | cons id ids ih =>
      have hrest : Safe t none c (selectBody bodies dispatch values ids) fun chosen =>
          ∀ b, chosen = some b → ∃ id' ∈ id :: ids, bodies[id']? = some b := by
        refine ih.weaken fun chosen hchosen b hb => ?_
        obtain ⟨id', hmem, hid'⟩ := hchosen b hb
        exact ⟨id', List.mem_cons_of_mem id hmem, hid'⟩
      rw [selectBody]
      split
      · rename_i b hb
        split
        · obtain ⟨c', hpatterns⟩ := h id b hb
          refine (safe_patternsAccept hpatterns values).bind fun accepted _ => ?_
          split
          · exact .pure fun b' hb' => ⟨id, List.mem_cons_self, Option.some.inj hb' ▸ hb⟩
          · exact hrest
        · exact hrest
      · exact hrest

end Bodies

/-! ## Runs -/

namespace Executable.WellScoped

variable {x : Executable} (hx : x.WellScoped)
include hx

/-- Bodies fit the table, at the place inside a body of their method. -/
theorem body_scoped {id : Nat} {b : MethodBody} (hb : x.bodies[id]? = some b) :
    b.head.method < x.scopes.methods.size ∧ id ∈ x.scopes.implementations b.head.method ∧
      (Phrase.patterns b.head.method b.head.patterns).Scoped x.scopes
        (x.scopes.bodyCursor b.head.method) ∧
      (Phrase.items b.block).Scoped x.scopes (x.scopes.bodyCursor b.head.method) := by
  obtain ⟨hid, path, hpath⟩ := hx.body id b hb
  have hscoped := hx.tree.at_path hpath
  exact ⟨hscoped.fits.method_lt hx.coherent, hid ▸ hscoped.fits.2,
    hscoped.part List.mem_cons_self, hscoped.part (List.mem_cons_of_mem _ List.mem_cons_self)⟩

/-- A body that a method is implemented by is a body of that method. -/
theorem method_of_implementation {id m : Nat} {b : MethodBody} (hb : x.bodies[id]? = some b)
    (hm : id ∈ x.scopes.implementations m) : b.head.method = m :=
  hx.coherent.one_method _ _ id (hx.body_scoped hb).2.1 hm

theorem safe_select {c : Cursor} (dispatch : Dispatch) (values : List Value) (ids : List BodyId) :
    Safe x.scopes none c (selectBody x.bodies dispatch values ids) fun chosen =>
      ∀ b, chosen = some b → ∃ id ∈ ids, x.bodies[id]? = some b :=
  safe_selectBody (fun _ _ hb => ⟨_, (hx.body_scoped hb).2.2.1⟩) values ids

theorem bindings_found {id : Nat} {b : MethodBody} (hb : x.bodies[id]? = some b) (name : Ident)
    (hname : .binding name ∈ b.head.patterns) :
    (x.scopes.find? (.method b.head.method) .var name.name).isSome :=
  ((hx.body_scoped hb).2.2.1.pattern_of_mem hname).fits

/-- Calls are safe, however deep they lead. -/
theorem safeCalls (fuel : Nat) : SafeCalls x.scopes (x.dispatch fuel) := by
  induction fuel with
  | zero => exact fun _ _ _ _ => .outOfFuel
  | succ fuel ih =>
      intro c m name arguments
      refine .get fun r ht hc => ?_
      have hids : r.scopes.implementations m = x.scopes.implementations m := by
        rw [← ScopeTable.implementations_withoutValues, ht]
      rw [hids]
      refine Safe.bind (hx.safe_select _ arguments (x.scopes.implementations m)).of_none
        (fun chosen hchosen => ?_) r ht hc
      split
      · rename_i b
        -- The chosen body is one of `m`; its block runs inside `m` with calls of less fuel.
        obtain ⟨id, himpl, hb⟩ := hchosen b rfl
        obtain ⟨hlt, -, -, hblock⟩ := hx.body_scoped hb
        have hwithin := hx.coherent.within_bodyCursor hlt
        rw [← hx.method_of_implementation hb himpl]
        refine (safe_invoke hx.coherent (hx.bindings_found hb) ?_).bind fun _ _ => .pure trivial
        exact hblock.runsSafely hx.coherent ih x.limit fuel hwithin
      · exact .fail rfl

/-- Every phrase of the program is carried out safely at its place. -/
theorem runsSafely_at {path : Path} {φ : Phrase}
    (h : (Phrase.items x.items).at? path = some φ) (fuel : Nat) :
    φ.RunsSafely x.scopes x.limit fuel (x.dispatch fuel)
      ((Phrase.items x.items).cursorAt x.scopes .global path) :=
  (hx.tree.at_path h).runsSafely hx.coherent (hx.safeCalls fuel) x.limit fuel
    (hx.tree.within_at_path hx.coherent (ScopeTable.within_global _) h)

end Executable.WellScoped

end BlockLang
