/-
  BlockLang.Proofs.Scope.Scoped

  When a tree fits a table.

  The place of a phrase in the nesting of scopes follows from where it stands in the
  tree.  A phrase is scoped at a place when all that it names is in the table as seen
  from there, each of its operators belongs to the level that it stands at, and its
  parts are scoped in turn.  Nothing here depends on how the tree came about.
-/
import BlockLang.Proofs.Scope.Extension
import BlockLang.Proofs.Tree.Phrase

namespace BlockLang

/-- Whether a call at a place may have this target: methods are members of an owner
    in which names at that place are looked up. -/
def ScopeTable.Admits (t : ScopeTable) (c : Cursor) : CallTarget → Prop
  | .builtin _ => True
  | .method m => ∃ owner ∈ t.lookupChain c, t.ownerOf? (.method m) = some owner

namespace Phrase

/-- The place inside a phrase at a place.  Classes and bodies of methods open a scope
    of their own. -/
def cursorInside (t : ScopeTable) (c : Cursor) : Phrase → Cursor
  | item (.classDecl name _) =>
    match t.findDeclared .cls name.name c with
    | some id => .inClass id
    | none => c
  | item (.methodBody head _) => t.bodyCursor head.method
  | _ => c

/-- The place at the end of a path. -/
def cursorAt (t : ScopeTable) (c : Cursor) (φ : Phrase) : Path → Cursor
  | [] => c
  | k :: path =>
    match φ.parts[k]? with
    | some part => part.cursorAt t (φ.cursorInside t c) path
    | none => c

/-- Whether a phrase itself, apart from its parts, fits a table at a place. -/
def Fits (t : ScopeTable) (c : Cursor) : Phrase → Prop
  | expr (.assign target _) => (t.resolve target.name c).isSome
  | expr (.binary level _ op _) => op.kind ∈ level.operators
  | expr (.unary op _) => op.kind = .bang ∨ op.kind = .minus
  | expr (.name id) => (t.resolve id.name c).isSome
  | expr (.call callee _) => t.Admits c callee.target
  | pattern m (.binding name) => (t.find? (.method m) .var name.name).isSome
  | pattern _ (.value e) => e.isConstant
  | item (.classDecl name _) => (t.findDeclared .cls name.name c).isSome
  | item (.methodDecl name returnType parameterTypes) =>
    ∃ m, t.findDeclared .method name.name c = some m ∧
      t.heading? (.method m) = some (.method name.name returnType parameterTypes c)
  | item (.varDecl name _) => (t.findDeclared .var name.name c).isSome
  | item (.assign target _) => (t.resolve target.name c).isSome
  | item (.methodBody head _) =>
    (∃ owner ∈ t.lookupChain c, t.find? owner .method head.name.name = some head.method) ∧
      head.id ∈ t.implementations head.method
  | item (.call callee _) => t.Admits c callee.target
  | _ => True

/-- The method of a body is in the table. -/
theorem Fits.method_lt {t : ScopeTable} {c : Cursor} (ht : t.Coherent) {head : BodyHead}
    {block : List Item} (h : (item (.methodBody head block)).Fits t c) :
    head.method < t.methods.size := by
  obtain ⟨_, _, hfind⟩ := h.1
  exact ht.lt_count_of_mem (ScopeTable.find?_eq_some hfind).1

/-- The place inside a phrase is in the table when the place of the phrase is. -/
theorem Fits.within_cursorInside {t : ScopeTable} {c : Cursor} (ht : t.Coherent)
    (hc : t.Within c) {φ : Phrase} (h : φ.Fits t c) : t.Within (φ.cursorInside t c) := by
  unfold cursorInside
  split
  · split
    · rename_i id hid
      exact ScopeTable.within_inClass (ht.lt_count_of_mem (ScopeTable.find?_eq_some hid).1)
    · exact hc
  · exact ht.within_bodyCursor (h.method_lt ht)
  · exact hc

/-- Whether a phrase fits a table at a place, with all phrases inside it. -/
inductive Scoped (t : ScopeTable) : Cursor → Phrase → Prop where
  | intro {c : Cursor} {φ : Phrase} : φ.Fits t c →
      (∀ part ∈ φ.parts, Scoped t (φ.cursorInside t c) part) → Scoped t c φ

namespace Scoped

variable {t : ScopeTable} {c : Cursor} {φ ψ : Phrase}

theorem fits (h : φ.Scoped t c) : φ.Fits t c := by
  cases h with
  | intro hfits _ => exact hfits

theorem part (h : φ.Scoped t c) (hpart : ψ ∈ φ.parts) : ψ.Scoped t (φ.cursorInside t c) := by
  cases h with
  | intro _ hparts => exact hparts ψ hpart

/-- Phrases inside a scoped phrase are scoped at their places. -/
theorem at_path {path : Path} (h : φ.Scoped t c) (hψ : φ.at? path = some ψ) :
    ψ.Scoped t (φ.cursorAt t c path) := by
  induction path generalizing φ c with
  | nil => exact Option.some.inj hψ ▸ h
  | cons k path ih =>
      rw [at?] at hψ
      rw [cursorAt]
      obtain ⟨part, hk, hpart⟩ := Option.bind_eq_some_iff.mp hψ
      rw [hk]
      exact ih (h.part (List.mem_of_getElem? hk)) hpart

/-- The places of the phrases inside a scoped phrase are in the table. -/
theorem within_at_path {path : Path} (h : φ.Scoped t c) (ht : t.Coherent) (hc : t.Within c)
    (hψ : φ.at? path = some ψ) : t.Within (φ.cursorAt t c path) := by
  induction path generalizing φ c with
  | nil => exact hc
  | cons k path ih =>
      rw [at?] at hψ
      rw [cursorAt]
      obtain ⟨part, hk, hpart⟩ := Option.bind_eq_some_iff.mp hψ
      rw [hk]
      exact ih (h.part (List.mem_of_getElem? hk)) (h.fits.within_cursorInside ht hc) hpart

end Scoped

/-- The place one step further along a path. -/
theorem cursorAt_part {t : ScopeTable} {c : Cursor} {φ ψ part : Phrase} {path : Path} {k : Nat}
    (hψ : φ.at? path = some ψ) (hk : ψ.parts[k]? = some part) :
    φ.cursorAt t c (path ++ [k]) = ψ.cursorInside t (φ.cursorAt t c path) := by
  induction path generalizing φ c with
  | nil =>
      obtain rfl : φ = ψ := Option.some.inj hψ
      simp only [List.nil_append, cursorAt, hk]
  | cons j path ih =>
      rw [at?] at hψ
      obtain ⟨next, hj, hnext⟩ := Option.bind_eq_some_iff.mp hψ
      rw [List.cons_append, cursorAt, cursorAt, hj]
      exact ih hnext

end Phrase

/-- A program whose tree fits its table and whose table has no values yet. -/
structure Parsed.WellScoped (p : Parsed) : Prop where
  coherent : p.scopes.Coherent
  tree : (Phrase.items p.items).Scoped p.scopes .global
  /-- No variable has a value. -/
  unassigned : ∀ v, p.scopes.value? v = none
  /-- The bodies have the numbers from zero on, each once. -/
  numbered : ((bodiesOf p.items).map (·.head.id)).Perm (List.range p.scopes.bodyCount)

end BlockLang
