/-
  BlockLang.Proofs.Resolution

  What names stand for when they are read and when they are carried out.

  The parser looks a name up in the table of what is declared in front of it, a run
  looks it up in the table of the whole program.  Both look from the same place, so
  both find something, and they find the same entity unless one that is declared
  later overtakes it.  Then the two differ: declaring a variable behind an assignment
  can turn the assignment to another variable.
-/
import BlockLang.Proofs.Eval.Visits
import BlockLang.Proofs.Parser.Scoping
import BlockLang.Proofs.Scope.Precedence

namespace BlockLang

namespace Phrase

/-- The target of a phrase that is an assignment. -/
def target? : Phrase → Option Ident
  | expr (.assign target _) => some target
  | item (.assign target _) => some target
  | _ => none

/-- The name that a phrase itself looks up. -/
def lookedUp? : Phrase → Option Ident
  | expr (.name id) => some id
  | φ => φ.target?

end Phrase

/-- A run with fuel `start` looks up the name at a path in a state.  The target of an
    assignment is looked up behind the assigned value. -/
inductive Executable.LooksUp (x : Executable) (start : Nat) : Path → Ident → RunState → Prop where
  | name {n path id r} : x.Visits start n path (.expr (.name id)) r → LooksUp x start path id r
  | assign {n path target e r v r'} : x.Visits start n path (.expr (.assign target e)) r →
      (evalExpr (x.dispatch n) e).outcome r = (.ok v, r') → LooksUp x start path target r'
  | assignItem {n path target e r v r'} : x.Visits start n path (.item (.assign target e)) r →
      (evalExpr (x.dispatch n) e).outcome r = (.ok v, r') → LooksUp x start path target r'

/-- Names are looked up at the place that follows from the tree. -/
theorem Executable.LooksUp.placed {x : Executable} (hx : x.WellScoped) {start : Nat} {path : Path}
    {id : Ident} {r : RunState} (h : x.LooksUp start path id r) :
    ∃ φ, (Phrase.items x.items).at? path = some φ ∧ φ.lookedUp? = some id ∧
      r.Stands x.scopes ((Phrase.items x.items).cursorAt x.scopes .global path) := by
  -- The place inside an assignment is the place of the assignment.
  have hvalue {n : Nat} {φ : Phrase} {e : Expr} {r r' : RunState} {v : Value}
      (hvisit : x.Visits start n path φ r) (he : φ.parts[0]? = some (.expr e))
      (hinside : ∀ c, φ.cursorInside x.scopes c = c)
      (hout : (evalExpr (x.dispatch n) e).outcome r = (.ok v, r')) :
      (Phrase.items x.items).at? path = some φ ∧
        r'.Stands x.scopes ((Phrase.items x.items).cursorAt x.scopes .global path) := by
    obtain ⟨hat, hstands⟩ := hvisit.placed hx
    have hsafe := hx.runsSafely_at (Phrase.at?_part hat he) n
    rw [Phrase.cursorAt_part hat he, hinside] at hsafe
    exact ⟨hat, Safe.stands hsafe hstands hout⟩
  cases h with
  | name hvisit =>
      obtain ⟨hat, hstands⟩ := hvisit.placed hx
      exact ⟨_, hat, rfl, hstands⟩
  | assign hvisit hout =>
      obtain ⟨hat, hstands⟩ := hvalue hvisit rfl (fun _ => rfl) hout
      exact ⟨_, hat, rfl, hstands⟩
  | assignItem hvisit hout =>
      obtain ⟨hat, hstands⟩ := hvalue hvisit rfl (fun _ => rfl) hout
      exact ⟨_, hat, rfl, hstands⟩

/-- The parser finds an entity for every name that it reads, and a variable for the
    target of an assignment. -/
theorem Production.resolves {φ : Phrase} {s s' : ParseState} {parts : List Passage} {id : Ident}
    (h : Production φ s parts s') (hid : φ.lookedUp? = some id) :
    ∃ e, s.scopes.resolve id.name s.cursor = some e ∧ (φ.target? = some id → e.kind = .var) := by
  induction h with
  | name _ hsome =>
      obtain rfl := Option.some.inj hid
      obtain ⟨e, he⟩ := Option.isSome_iff_exists.mp hsome
      exact ⟨e, he, fun htarget => absurd htarget nofun⟩
  | assign _ hvar _ =>
      obtain rfl := Option.some.inj hid
      exact ⟨_, hvar, fun _ => rfl⟩
  | assignItem _ ih => exact ih hid
  | _ => exact absurd hid nofun

/-- Constants look nothing up. -/
theorem Phrase.lookedUp?_of_isConstant {e : Expr} (he : e.isConstant) {path : Path} {φ : Phrase}
    (h : (Phrase.expr e).at? path = some φ) : φ.lookedUp? = none := by
  induction path generalizing e with
  | nil =>
      obtain rfl := Option.some.inj h
      cases e with
      | assign => exact absurd he Bool.false_ne_true
      | name => exact absurd he Bool.false_ne_true
      | _ => rfl
  | cons k path ih =>
      obtain ⟨part, hpart, hrest⟩ := Option.bind_eq_some_iff.mp h
      cases e with
      | literal => exact absurd hpart nofun
      | unary op e =>
          obtain rfl : .expr e = part := (List.mem_singleton.mp (List.mem_of_getElem? hpart)).symm
          exact ih (e := e) he hrest
      | grouping e =>
          obtain rfl : .expr e = part := (List.mem_singleton.mp (List.mem_of_getElem? hpart)).symm
          exact ih (e := e) he hrest
      | _ => exact absurd he Bool.false_ne_true

theorem Passage.Read.resolves {ρ : Passage} (h : ρ.Read) {id : Ident}
    (hid : ρ.phrase.lookedUp? = some id) :
    ∃ e, ρ.before.scopes.resolve id.name ρ.before.cursor = some e ∧
      (ρ.phrase.target? = some id → e.kind = .var) := by
  cases h with
  | intro hprod _ => exact hprod.resolves hid

/-! ## A variable that is declared behind an assignment -/

/-- A class assigns to the variable around it and then declares one of that name. -/
def lateText : String := "x :: Int\nclass A\n  x = 5\n  x :: Int\nend\nprint(x)\n"

/-- The tree of `lateText`. -/
def lateItems : List Item :=
  [ .varDecl ⟨"x", 1⟩ "Int",
    .classDecl ⟨"A", 2⟩ [.assign ⟨"x", 3⟩ (.literal (.integer 5)), .varDecl ⟨"x", 4⟩ "Int"],
    .call ⟨⟨"print", 6⟩, .builtin .print⟩ [.name ⟨"x", 6⟩] ]

/-- The table of `lateText`. -/
def lateTable : ScopeTable where
  classes := #[{ name := "A", parent := none, members := { vars := [1] } }]
  vars := #[⟨"x", none, none, none⟩, ⟨"x", none, some 0, none⟩]
  global := { classes := [0], vars := [0] }

/-- `lateText` ready to run. -/
def lateProgram : Executable := ⟨lateItems, lateTable, #[], none⟩

theorem parse_lateText : parse lateText = .ok ⟨lateItems, lateTable⟩ := by cbv

theorem prepare?_late : (Parsed.mk lateItems lateTable).prepare? none = some lateProgram := rfl

/-- The run looks the target of the assignment up inside the class. -/
theorem looksUp_late :
    lateProgram.LooksUp 1 [1, 0, 0, 0] ⟨"x", 3⟩ ⟨lateTable, .inClass 0, #[]⟩ :=
  .assignItem (.part (.part (.part (.part .start (.moreItems rfl) rfl) .item rfl)
    (.classBlock rfl) rfl) .item rfl) rfl

/-- When the parser reads the assignment, only the variable outside is there. -/
theorem resolve_late_before {root τ : Passage}
    (hroot : ReadsText lateText ⟨lateItems, lateTable⟩ root) (hτ : root.At [1, 0, 0, 0] τ) :
    τ.before.scopes.resolve "x" τ.before.cursor = some (.var 0) := by
  -- From the assignment outward: the block, the class, the items behind the first one.
  obtain ⟨block, _, hblock, hprod, -, hk⟩ := hτ.last [1, 0, 0]
  rw [hroot.phrase_at hblock rfl] at hprod
  obtain ⟨_, rfl⟩ := hprod.items_inv
  obtain rfl := Option.some.inj hk
  obtain ⟨cls, _, hcls, hprod, -, hk⟩ := hblock.last [1, 0]
  rw [hroot.phrase_at hcls rfl] at hprod
  obtain ⟨id, scopes, _, hclass, rfl⟩ := hprod.classDecl_inv
  obtain rfl := Option.some.inj hk
  obtain ⟨rest, _, hrest, hprod, -, hk⟩ := hcls.last [1]
  rw [hroot.phrase_at hrest rfl] at hprod
  obtain ⟨_, rfl⟩ := hprod.items_inv
  obtain rfl := Option.some.inj hk
  have hcursor : rest.before.cursor = .global := hroot.cursor_at hrest
  obtain ⟨top, _, htop, hprod, hreads, hk⟩ := hrest.last []
  cases htop
  rw [hroot.phrase] at hprod
  obtain ⟨_, rfl⟩ := hprod.items_inv
  obtain rfl := Option.some.inj hk
  cases hreads _ List.mem_cons_self with
  | intro hvar _ =>
      obtain ⟨_, hvar⟩ := hvar.varDecl_inv
      rw [hroot.before_scopes, hroot.before_cursor] at hvar
      obtain ⟨-, hscopes⟩ := Prod.mk.inj (Except.ok.inj hvar)
      dsimp only at hclass hcursor ⊢
      rw [hcursor, ← hscopes] at hclass
      obtain ⟨rfl, rfl⟩ := Prod.mk.inj (Except.ok.inj hclass)
      rfl

/-! ## Agreement -/

/-- The values in patterns look no names up.  For every name that a run looks up: the
    parser read that occurrence at the same place and found an entity there, a variable
    if the name is the target of an assignment; the run finds an entity as well; and it
    is the same one exactly when no entity that is declared later overtakes it. -/
theorem lookup_agrees_iff_not_overtaken {text : String} {p : Parsed} (hp : parse text = .ok p) :
    (∀ path m e, (Phrase.items p.items).at? path = some (.pattern m (.value e)) →
      ∀ path' φ, (Phrase.expr e).at? path' = some φ → φ.lookedUp? = none) ∧
    ∀ limit x, p.prepare? limit = some x → ∀ start path id r, x.LooksUp start path id r →
      (∃ root τ, ReadsText text p root ∧ root.At path τ) ∧
      ∀ root τ, ReadsText text p root → root.At path τ →
        τ.phrase.lookedUp? = some id ∧ r.cursor = τ.before.cursor ∧
        ∃ e e', τ.before.scopes.resolve id.name τ.before.cursor = some e ∧
          (τ.phrase.target? = some id → e.kind = .var) ∧
          r.scopes.resolve id.name r.cursor = some e' ∧
          (e' = e ↔ ¬∃ d, ScopeTable.Overtakes τ.before.scopes p.scopes id.name r.cursor e d) := by
  obtain ⟨root₀, hroot₀⟩ := exists_readsText hp
  constructor
  · intro path m e hat path' φ hφ
    have hfits := (hroot₀.wellScoped.tree.at_path hat).fits
    exact Phrase.lookedUp?_of_isConstant hfits hφ
  intro limit x hx start path id r h
  obtain ⟨hitems, hscopes, -, hsound⟩ := hroot₀.wellScoped.prepare hx
  obtain ⟨φ, hat, hid, hstands⟩ := h.placed hsound
  rw [hitems] at hat hstands
  rw [hscopes] at hstands
  refine ⟨(readAt_of_at? hp hat).reads, fun root τ hroot hτ => ?_⟩
  -- Parser and run stand at the place that follows from the tree.
  have hphrase := hroot.phrase_at hτ hat
  have hcursor : r.cursor = τ.before.cursor := by
    rw [hroot.cursor_at hτ, hstands.cursor]
  rw [hphrase]
  refine ⟨hid, hcursor, ?_⟩
  have hready := hτ.ready hroot.ready
  have hread := hτ.read hroot.read
  obtain ⟨e, he, htarget⟩ := hread.resolves (hphrase ▸ hid)
  -- The table in which the parser looked has grown to that of the program; the run looks
  -- in the latter, whatever values it has by then.
  have hext : τ.before.scopes.Extends p.scopes := by
    rw [← hroot.after]
    exact (hread.grows hready).extension.trans (hτ.inside hroot.ready)
  have hsame : r.scopes.resolve id.name r.cursor = p.scopes.resolve id.name τ.before.cursor := by
    rw [← ScopeTable.resolve_withoutValues, hstands.table, hcursor]
  have hsome : (p.scopes.resolve id.name τ.before.cursor).isSome :=
    hext.resolve_isSome hready.coherent hready.within (Option.isSome_iff_exists.mpr ⟨e, he⟩)
  obtain ⟨e', he'⟩ := Option.isSome_iff_exists.mp hsome
  refine ⟨e, e', he, hphrase ▸ htarget, hsame.trans he', ?_⟩
  have hiff := hext.resolve_eq_iff hready.coherent hroot.wellScoped.coherent hready.within he
  rw [he', Option.some.injEq] at hiff
  rw [hcursor]
  exact hiff

theorem late_variable_overtakes :
    parse lateText = .ok ⟨lateItems, lateTable⟩ ∧
      (Parsed.mk lateItems lateTable).prepare? none = some lateProgram ∧
      lateProgram.LooksUp 1 [1, 0, 0, 0] ⟨"x", 3⟩ ⟨lateTable, .inClass 0, #[]⟩ ∧
      ∃ root τ, ReadsText lateText ⟨lateItems, lateTable⟩ root ∧ root.At [1, 0, 0, 0] τ ∧
        ∃ d, ScopeTable.Overtakes τ.before.scopes lateTable "x" (.inClass 0) (.var 0) d := by
  refine ⟨parse_lateText, prepare?_late, looksUp_late, ?_⟩
  obtain ⟨⟨root, τ, hroot, hτ⟩, hall⟩ :=
    (lookup_agrees_iff_not_overtaken parse_lateText).2 _ _ prepare?_late _ _ _ _ looksUp_late
  refine ⟨root, τ, hroot, hτ, ?_⟩
  obtain ⟨-, -, e, e', he, -, he', hiff⟩ := hall root τ hroot hτ
  obtain rfl : .var 0 = e := Option.some.inj ((resolve_late_before hroot hτ).symm.trans he)
  obtain rfl : .var 1 = e' := Option.some.inj he'
  by_contra hnone
  exact absurd (hiff.mpr hnone) (by decide)

/-- The parser takes the assignment for one to the variable outside of the class, the
    run carries it out on the variable that the class declares behind it. -/
theorem assignment_turns_to_late_variable :
    ∃ p x r, parse lateText = .ok p ∧ p.prepare? none = some x ∧
      x.LooksUp 1 [1, 0, 0, 0] ⟨"x", 3⟩ r ∧
      (∃ root τ, ReadsText lateText p root ∧ root.At [1, 0, 0, 0] τ) ∧
      ∀ root τ, ReadsText lateText p root → root.At [1, 0, 0, 0] τ →
        τ.before.scopes.resolve "x" τ.before.cursor = some (.var 0) ∧
        r.scopes.resolve "x" r.cursor = some (.var 1) := by
  refine ⟨_, _, _, parse_lateText, prepare?_late, looksUp_late, ?_, fun root τ hroot hτ => ?_⟩
  · exact (readAt_of_at? parse_lateText rfl).reads
  · exact ⟨resolve_late_before hroot hτ, rfl⟩

end BlockLang
