/-
  BlockLang.Proofs.Parser.Scoping

  Accepted programs fit their tables.

  The parser looks every name up in the table as it is at that point; what it finds
  is still found in all later tables, so the tree is scoped in the final one, and the
  places at which its phrases were read are the places that follow from the tree.
  The tree has exactly one body for each number, so every accepted program can be made
  ready to run.
-/
import BlockLang.Proofs.Parser.Numbering
import BlockLang.Proofs.Scope.Scoped

namespace BlockLang

namespace ScopeTable

/-- Entities keep their owners. -/
theorem Extends.ownerOf? {t u : ScopeTable} (h : t.Extends u) {e : Entity} {owner : Owner}
    (ho : t.ownerOf? e = some owner) : u.ownerOf? e = some owner := by
  obtain ⟨c, hc, rfl⟩ := Option.map_eq_some_iff.mp ho
  rw [ScopeTable.ownerOf?, h.place? hc, Option.map_some]

/-- A method that a name stands for may be called there, also when the table has
    grown. -/
theorem Extends.admits {t u : ScopeTable} (h : t.Extends u) (ht : t.Coherent) {c : Cursor}
    (hc : t.Within c) {name : String} {m : MethodId} (hm : t.resolveMethod name c = some m) :
    u.Admits c (.method m) := by
  obtain ⟨owner, howner, hfind⟩ := resolveMethod_eq_some hm
  refine ⟨owner, h.lookupChain ht.nested hc ▸ howner, h.ownerOf? ?_⟩
  exact (ht.owned owner .method m).mp (find?_eq_some hfind).1

end ScopeTable

/-! ## One production -/

namespace Production

variable {φ : Phrase} {s s' : ParseState} {parts : List Passage} {t : ScopeTable}

/-- What a production reads fits every table that the growing one becomes. -/
theorem fits (h : Production φ s parts s') (hs : s.Ready φ) (hparts : ∀ σ ∈ parts, σ.Read)
    (ht : s'.scopes.Extends t) : φ.Fits t s.cursor := by
  have hspan := h.spans_of_read hs hparts
  have hext := hspan.grows.extension.trans ht
  -- What is found in the table in front is found in `t` by `hext`; what the production
  -- itself declares is only in the table behind it, which `ht` is about.
  induction h with
  | name _ hsome => exact hext.resolve_isSome hs.coherent hs.within hsome
  | unary hsign =>
      rcases hsign with hsign | hsign
      · exact .inl (by simpa [ParseState.check, Operator.ofToken] using hsign)
      · exact .inr (by simpa [ParseState.check, Operator.ofToken] using hsign)
  | binary hlevel => exact hlevel
  | assign _ hvar _ =>
      exact hext.resolve_isSome hs.coherent hs.within (Option.isSome_iff_exists.mpr ⟨_, hvar⟩)
  | call hcallee _ _ =>
      cases hcallee with
      | builtin _ => trivial
      | method _ hm => exact hext.admits hs.coherent hs.within hm
  | @binding s m _ =>
      have hm : m < s.scopes.methods.size := hs.within.method m (hs.inBody m rfl)
      obtain ⟨v, hv⟩ := Option.isSome_iff_exists.mp
        (ScopeTable.find?_bindParameter hs.coherent hm s.current.lexeme)
      exact Option.isSome_iff_exists.mpr ⟨v, ht.find? hspan.grows.coherent.listed hv⟩
  | value hconst => exact hconst
  | @classDecl s s₁ id scopes body _ _ hadd _ =>
      obtain ⟨hfresh, rfl, hreg⟩ := ScopeTable.registers_declareClass (hs.within.hasOwner .cls) hadd
      have hgrow := (hparts _ List.mem_cons_self).grows (hspan.ready _ List.mem_cons_self)
      have hlater := (hgrow.extension.trans (hspan.inside _ List.mem_cons_self)).trans ht
      exact Option.isSome_iff_exists.mpr
        ⟨_, hreg.find?_later hs.coherent hs.within.outside hfresh hlater⟩
  | @methodDecl s s₁ id scopes types _ _ _ _ hadd =>
      have hσ := hspan.ready _ List.mem_cons_self
      have hgrow := (hparts _ List.mem_cons_self).grows hσ
      have hs₁ := hσ.grows hgrow
      obtain ⟨hfresh, rfl, hreg⟩ :=
        ScopeTable.registers_declareMethod (hs₁.within.hasOwner .method) hadd
      have hcursor : s₁.cursor = s.cursor := by simpa using hgrow.cursor
      rw [ParseState.pass_scopes] at ht
      rw [← hcursor]
      refine ⟨_, hreg.find?_later hs₁.coherent hs₁.within hfresh ht, ht.heading _ _ ?_⟩
      exact (hreg.heading _).trans (if_pos rfl)
  | @varDecl s id scopes _ _ _ hadd =>
      obtain ⟨hfresh, rfl, hreg⟩ :=
        ScopeTable.registers_declareVariable (hs.within.hasOwner .var) hadd
      rw [ParseState.pass_scopes] at ht
      exact Option.isSome_iff_exists.mpr ⟨_, hreg.find?_later hs.coherent hs.within hfresh ht⟩
  | @assignItem _ _ target e _ hprod ih =>
      have hs₁ := hs.part (ψ := .expr (.assign target e)) (.refl _) rfl
      rw [ParseState.pass_scopes] at ht
      exact ih hs₁ hparts ht (hprod.spans_of_read hs₁ hparts) hext
  | @callItem _ _ callee args _ hprod ih =>
      have hs₁ := hs.part (ψ := .expr (.call callee args)) (.refl _) rfl
      rw [ParseState.pass_scopes] at ht
      exact ih hs₁ hparts ht (hprod.spans_of_read hs₁ hparts) hext
  | @methodBody s s₁ s₂ m ps body _ hm _ _ _ _ =>
      have hlt := hs.coherent.resolveMethod_lt hm
      obtain ⟨owner, howner, hfind⟩ := ScopeTable.resolveMethod_eq_some hm
      rw [← hext.lookupChain hs.coherent.nested hs.within] at howner
      refine ⟨⟨owner, howner, hext.find? hs.coherent.listed hfind⟩, ?_⟩
      have hlt₂ : m < s₂.scopes.methods.size := by
        have h := hlt.trans_le (hspan.grows.extension.count_le .method)
        simpa [ScopeTable.count, ScopeTable.addImplementation] using h
      rw [ParseState.pass_scopes] at ht
      refine (ht.implementations m).subset ?_
      rw [ScopeTable.implementations_addImplementation hlt₂, if_pos rfl]
      exact List.mem_append_right _ List.mem_cons_self
  | _ => trivial

/-- Where the parts of a phrase are read: at the place inside the phrase. -/
theorem cursor_parts (h : Production φ s parts s') (hs : s.Ready φ) (hparts : ∀ σ ∈ parts, σ.Read)
    (ht : s'.scopes.Extends t) :
    ∀ σ ∈ parts, σ.before.cursor = φ.cursorInside t s.cursor := by
  have hspan := h.spans_of_read hs hparts
  have hgrow (σ : Passage) (hσ : σ ∈ parts) : σ.after.cursor = σ.before.cursor :=
    ((hparts σ hσ).grows (hspan.ready σ hσ)).cursor
  -- Only classes and bodies change the place, and `t` knows both of them.
  induction h with
  | @classDecl s s₁ id scopes body _ _ hadd _ =>
      obtain ⟨hfresh, rfl, hreg⟩ := ScopeTable.registers_declareClass (hs.within.hasOwner .cls) hadd
      have hgrows := (hparts _ List.mem_cons_self).grows (hspan.ready _ List.mem_cons_self)
      have hlater := (hgrows.extension.trans (hspan.inside _ List.mem_cons_self)).trans ht
      have hdecl : t.findDeclared .cls s.advance.current.lexeme s.cursor =
          some s.scopes.classes.size :=
        hreg.find?_later hs.coherent hs.within.outside hfresh hlater
      simp [Phrase.cursorInside, Ident.ofToken, hdecl]
  | @methodBody s s₁ s₂ m ps body _ hm _ _ _ _ =>
      have hlt := hs.coherent.resolveMethod_lt hm
      have hbody := (hspan.grows.extension.trans ht).bodyCursor hlt
      have h₁ := hgrow _ List.mem_cons_self
      simp_all [Phrase.cursorInside]
  | @assignItem _ _ target e _ hprod ih =>
      have hs₁ := hs.part (ψ := .expr (.assign target e)) (.refl _) rfl
      rw [ParseState.pass_scopes] at ht
      exact ih hs₁ hparts ht (hprod.spans_of_read hs₁ hparts) hgrow
  | @callItem _ _ callee args _ hprod ih =>
      have hs₁ := hs.part (ψ := .expr (.call callee args)) (.refl _) rfl
      rw [ParseState.pass_scopes] at ht
      exact ih hs₁ hparts ht (hprod.spans_of_read hs₁ hparts) hgrow
  | _ => simp_all [Phrase.cursorInside]

end Production

/-! ## Whole passages -/

namespace Passage

variable {ρ τ : Passage} {t : ScopeTable}

/-- What is read is scoped in every table that the growing one becomes. -/
theorem Read.scoped (h : ρ.Read) (hρ : ρ.before.Ready ρ.phrase) (ht : ρ.after.scopes.Extends t) :
    ρ.phrase.Scoped t ρ.before.cursor := by
  induction h with
  | @intro φ s s' parts hprod hparts ih =>
      have hspan := hprod.spans_of_read hρ hparts
      refine .intro (hprod.fits hρ hparts ht) fun part hpart => ?_
      rw [← hprod.map_phrase] at hpart
      obtain ⟨σ, hσ, rfl⟩ := List.mem_map.mp hpart
      have hscoped := ih σ hσ (hspan.ready σ hσ) ((hspan.inside σ hσ).trans ht)
      rw [hprod.cursor_parts hρ hparts ht σ hσ] at hscoped
      exact hscoped

/-- The place at which a phrase is read is the one that follows from the tree. -/
theorem At.cursor {path : Path} (h : ρ.At path τ) (hρ : ρ.before.Ready ρ.phrase)
    (ht : ρ.after.scopes.Extends t) :
    τ.before.cursor = ρ.phrase.cursorAt t ρ.before.cursor path := by
  induction h with
  | here ρ => rfl
  | @part ρ σ τ parts k path hprod hparts hk _ ih =>
      have hspan := hprod.spans_of_read hρ hparts
      have hσ := List.mem_of_getElem? hk
      rw [Phrase.cursorAt, ← hprod.map_phrase, List.getElem?_map, hk]
      rw [ih (hspan.ready σ hσ) ((hspan.inside σ hσ).trans ht),
        hprod.cursor_parts hρ hparts ht σ hσ]
      rfl

end Passage

/-! ## Accepted programs -/

/-- The passage in which the parser reads a whole text that it accepts. -/
structure ReadsText (text : String) (p : Parsed) (root : Passage) : Prop where
  accepted : parse text = .ok p
  phrase : root.phrase = .items p.items
  before : ∃ tokens, tokenize text = .ok tokens ∧ root.before = .ofTokens tokens
  after : root.after.scopes = p.scopes
  read : root.Read

theorem exists_readsText {text : String} {p : Parsed} (h : parse text = .ok p) :
    ∃ root, ReadsText text p root := by
  obtain ⟨tokens, htokens, hparse⟩ := parse_eq_ok h
  obtain ⟨s', -, hscopes, hread⟩ := read_parseTokens hparse
  exact ⟨_, h, rfl, ⟨tokens, htokens, rfl⟩, hscopes, hread⟩

namespace ReadsText

variable {text : String} {p : Parsed} {root : Passage} (h : ReadsText text p root)
include h

/-- Reading starts with an empty table. -/
theorem before_scopes : root.before.scopes = .empty := by
  obtain ⟨tokens, _, hbefore⟩ := h.before
  rw [hbefore, ParseState.ofTokens_scopes]

/-- Reading starts outside of every class and method. -/
theorem before_cursor : root.before.cursor = .global := by
  obtain ⟨tokens, _, hbefore⟩ := h.before
  rw [hbefore, ParseState.ofTokens_cursor]

theorem ready : root.before.Ready root.phrase := by
  obtain ⟨tokens, _, hbefore⟩ := h.before
  rw [hbefore, h.phrase]
  exact ParseState.ready_ofTokens tokens p.items

/-- Accepted programs fit their tables. -/
theorem wellScoped : p.WellScoped := by
  have hgrows := h.read.grows h.ready
  constructor
  · rw [← h.after]
    exact hgrows.coherent
  · have hscoped := h.read.scoped h.ready (.refl _)
    rw [h.phrase, h.after, h.before_cursor] at hscoped
    exact hscoped
  · intro v
    have hvalue := hgrows.extension.value v
    rw [h.after, h.before_scopes] at hvalue
    rw [hvalue]
    simp [ScopeTable.empty, ScopeTable.value?]
  · have hnumbers := h.read.numbers h.ready
    rw [h.phrase, h.after, h.before_scopes] at hnumbers
    have hperm := (Phrase.items p.items).perm_bodiesByEnd.symm.map (·.head.id)
    rw [hnumbers.ids_of_empty] at hperm
    exact hperm

/-- A path leads to the same phrase in the tree and in reading it. -/
theorem phrase_at {path : Path} {τ : Passage} (hτ : root.At path τ) {φ : Phrase}
    (hφ : (Phrase.items p.items).at? path = some φ) : τ.phrase = φ := by
  have hat := hτ.phrase_at?
  rw [h.phrase, hφ] at hat
  exact (Option.some.inj hat).symm

/-- The place at which the parser reads a phrase is the one that follows from the
    tree. -/
theorem cursor_at {path : Path} {τ : Passage} (hτ : root.At path τ) :
    τ.before.cursor = (Phrase.items p.items).cursorAt p.scopes .global path := by
  have hcursor := hτ.cursor h.ready (.refl _)
  rw [h.phrase, h.after, h.before_cursor] at hcursor
  exact hcursor

end ReadsText

/-- The parser reads the phrase at a path of an accepted program, and does so at the
    place `c`. -/
structure ReadAt (text : String) (p : Parsed) (path : Path) (φ : Phrase) (c : Cursor) : Prop where
  reads : ∃ root τ, ReadsText text p root ∧ root.At path τ
  place : ∀ root τ, ReadsText text p root → root.At path τ → τ.phrase = φ ∧ τ.before.cursor = c

/-- The parser reads every phrase of an accepted program, at the place that follows
    from the tree. -/
theorem readAt_of_at? {text : String} {p : Parsed} (hp : parse text = .ok p) {path : Path}
    {φ : Phrase} (h : (Phrase.items p.items).at? path = some φ) :
    ReadAt text p path φ ((Phrase.items p.items).cursorAt p.scopes .global path) := by
  constructor
  · obtain ⟨root, hroot⟩ := exists_readsText hp
    obtain ⟨τ, hτ, -⟩ := hroot.read.exists_at (hroot.phrase ▸ h)
    exact ⟨root, τ, hroot, hτ⟩
  · exact fun root τ hroot hτ => ⟨hroot.phrase_at hτ h, hroot.cursor_at hτ⟩

/-- Only phrases of the tree are read. -/
theorem ReadAt.at? {text : String} {p : Parsed} {path : Path} {φ : Phrase} {c : Cursor}
    (h : ReadAt text p path φ c) : (Phrase.items p.items).at? path = some φ ∧
      c = (Phrase.items p.items).cursorAt p.scopes .global path := by
  obtain ⟨root, τ, hroot, hτ⟩ := h.reads
  obtain ⟨rfl, rfl⟩ := h.place root τ hroot hτ
  exact ⟨hroot.phrase ▸ hτ.phrase_at?, hroot.cursor_at hτ⟩

end BlockLang
