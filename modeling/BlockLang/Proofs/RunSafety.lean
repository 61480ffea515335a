/-
  BlockLang.Proofs.RunSafety

  Accepted programs do not go wrong on the inside.

  Every accepted program can be made ready to run.  Whatever a run of it comes to, it
  stands at the place at which the parser stood there, all ids that it can come to
  use are ids of the table or numbers of bodies, and it never stops with one of the
  errors that are there for trees which do not fit their tables.  What a run comes to
  is described by `Executable.Visits`; a run stops nowhere else.
-/
import BlockLang.Proofs.Eval.Stops
import BlockLang.Proofs.Parser.Scoping

namespace BlockLang

/-- The owners in which names are looked up are in the table. -/
theorem ScopeTable.Coherent.hasOwner_of_mem_lookupChain {t : ScopeTable} (ht : t.Coherent)
    {c : Cursor} (hc : t.Within c) {owner : Owner} (h : owner ∈ t.lookupChain c) :
    t.HasOwner owner := by
  cases owner with
  | global => trivial
  | cls id =>
      have hcls : c.cls = some id := by simpa [lookupChain] using h
      exact hc.cls id hcls
  | method a =>
      obtain ⟨m, hm, hma⟩ := (ht.method_mem_lookupChain hc).mp h
      exact Nat.lt_of_le_of_lt (hma.le ht) (hc.method m hm)

theorem ScopeTable.Coherent.lt_of_admits {t : ScopeTable} (ht : t.Coherent) {c : Cursor}
    {m : MethodId} (h : t.Admits c (.method m)) : m < t.methods.size := by
  obtain ⟨owner, -, howner⟩ := h
  exact ht.lt_count_of_mem ((ht.owned owner .method m).mpr howner)

/-- A call is admitted by the table at its place. -/
theorem Phrase.Scoped.admits {t : ScopeTable} {c : Cursor} {φ : Phrase} (h : φ.Scoped t c)
    {callee : Callee} {es : List Expr} (hcall : φ.call? = some (callee, es)) :
    t.Admits c callee.target := by
  unfold Phrase.call? at hcall
  split at hcall
  · cases hcall
    exact h.fits
  · cases hcall
    exact h.fits
  · cases hcall

/-- Whether all ids that can be used in a state in front of a phrase are in range. -/
structure IdsInRange (x : Executable) (φ : Phrase) (r : RunState) : Prop where
  cursor : r.scopes.Within r.cursor
  /-- The owners in which names are looked up. -/
  chain : ∀ owner ∈ r.scopes.lookupChain r.cursor, r.scopes.HasOwner owner
  /-- What lookups can find and calls save and restore. -/
  members : ∀ owner kind id, id ∈ (r.scopes.members owner).ofKind kind → id < r.scopes.count kind
  parents : ∀ e c, r.scopes.place? e = some c → r.scopes.Within c
  /-- What calls choose from. -/
  implementations : ∀ m, ∀ b ∈ r.scopes.implementations m, b < x.bodies.size
  bodies : ∀ (id : Nat) (b : MethodBody), x.bodies[id]? = some b →
    b.head.method < r.scopes.methods.size
  target : ∀ callee es m, φ.call? = some (callee, es) → callee.target = .method m →
    m < r.scopes.methods.size

namespace Executable

variable {x : Executable} (hx : x.WellScoped)
include hx

theorem idsInRange {start n : Nat} {path : Path} {φ : Phrase} {r : RunState}
    (h : x.Visits start n path φ r) : IdsInRange x φ r := by
  obtain ⟨hat, htable, hcursor⟩ := h.placed hx
  have hscoped := hx.tree.at_path hat
  have hplace := hx.tree.within_at_path hx.coherent (ScopeTable.within_global _) hat
  rw [← hcursor] at hplace hscoped
  -- All ids are those of the program's table, which differs in values only.
  have hcoherent : r.scopes.Coherent := .of_withoutValues (htable ▸ hx.coherent)
  have hwithin : r.scopes.Within r.cursor := .of_withoutValues (htable ▸ hplace)
  have hmethods : x.scopes.methods.size = r.scopes.methods.size := by rw [← htable]; rfl
  refine ⟨hwithin, fun _ => hcoherent.hasOwner_of_mem_lookupChain hwithin,
    fun _ _ _ => hcoherent.lt_count_of_mem, hcoherent.within, ?_, ?_, ?_⟩
  · intro m b hb
    have hlt := hcoherent.implemented m b hb
    rwa [hx.size_bodies, ← htable]
  · intro id b hb
    rw [← hmethods]
    exact (hx.body_scoped hb).1
  · intro callee es m hcall htarget
    rw [← hmethods]
    exact hx.coherent.lt_of_admits (htarget ▸ hscoped.admits hcall)

/-- No run ends with an internal error. -/
theorem run_not_internal {fuel : Nat} {e : EvalError} {r : RunState}
    (h : x.run fuel = (.error (.error e), r)) : e.isInternal = false := by
  have hroot : (Phrase.items x.items).at? [] = some (.items x.items) := rfl
  have hsafe := hx.runsSafely_at hroot fuel
  have hend := (hsafe x.initial (ScopeTable.withoutValues_of_unassigned hx.unassigned) rfl).2
  change Acceptable _ (x.run fuel).1 at hend
  rwa [h] at hend

end Executable

/-! ## A program with a recursive method -/

/-- A method with two bodies that calls itself. -/
def countdownText : String :=
  "count :: Int <- Int\ncount(0) do\nend\ncount(n) do\n  count(n - 1)\nend\ncount(2)\n"

/-- What the body that calls itself does. -/
def countdownBlock : List Item :=
  [.call ⟨⟨"count", 5⟩, .method 0⟩
    [.binary .addition (.name ⟨"n", 5⟩) ⟨.minus, "-", 5⟩ (.literal (.integer 1))]]

/-- The tree of `countdownText`. -/
def countdownItems : List Item :=
  [ .methodDecl ⟨"count", 1⟩ "Int" ["Int"],
    .methodBody ⟨0, 0, ⟨"count", 2⟩, [.value (.literal (.integer 0))]⟩ [],
    .methodBody ⟨1, 0, ⟨"count", 4⟩, [.binding ⟨"n", 4⟩]⟩ countdownBlock,
    .call ⟨⟨"count", 7⟩, .method 0⟩ [.literal (.integer 2)] ]

/-- The table of `countdownText`. -/
def countdownTable : ScopeTable where
  methods := #[⟨"count", "Int", ["Int"], none, none, { vars := [0] }, [0, 1]⟩]
  vars := #[⟨"n", none, none, some 0⟩]
  global := { methods := [0] }
  bodyCount := 2

/-- `countdownText` ready to run. -/
def countdownProgram : Executable where
  items := countdownItems
  scopes := countdownTable
  bodies := #[⟨⟨0, 0, ⟨"count", 2⟩, [.value (.literal (.integer 0))]⟩, []⟩,
    ⟨⟨1, 0, ⟨"count", 4⟩, [.binding ⟨"n", 4⟩]⟩, countdownBlock⟩]
  limit := some 3

theorem parse_countdownText : parse countdownText = .ok ⟨countdownItems, countdownTable⟩ := by cbv

theorem prepare?_countdown :
    (Parsed.mk countdownItems countdownTable).prepare? (some 3) = some countdownProgram := rfl

/-- The run comes to the body that calls itself a second time, inside the first. -/
theorem visits_countdown : countdownProgram.Visits 2 0 ([1, 1, 0] ++ [1]) (.items countdownBlock)
    ⟨countdownTable.setValue 0 (some (.integer 1)), ⟨none, some 0⟩, #[]⟩ := by
  have hcall : countdownProgram.Visits 2 2 [1, 1, 1, 0]
      (.item (.call ⟨⟨"count", 7⟩, .method 0⟩ [.literal (.integer 2)]))
      countdownProgram.initial :=
    .part (.part (.part (.part .start (.moreItems rfl) rfl) (.moreItems rfl) rfl)
      (.moreItems rfl) rfl) .item rfl
  have houter : countdownProgram.Visits 2 1 ([1, 1, 0] ++ [1]) (.items countdownBlock)
      ⟨countdownTable.setValue 0 (some (.integer 2)), ⟨none, some 0⟩, #[]⟩ :=
    .body hcall (.intro rfl rfl rfl rfl rfl) rfl
  exact .body (.part houter .item rfl) (.intro rfl rfl rfl rfl rfl) rfl

/-! ## Safety -/

/-- Every accepted program can be made ready to run, with any limit on the rounds of
    loops.  Whatever phrase a run of it comes to, the parser read that phrase at the
    place at which the run stands, and all ids that can be used there are in range.
    Where a run stops it has come to a phrase that stops by itself.  No run ends with an
    internal error. -/
theorem accepted_runs_keep_place {text : String} {p : Parsed} (hp : parse text = .ok p)
    (limit : Option Nat) :
    ∃ x, p.prepare? limit = some x ∧
      (∀ start n path φ r, x.Visits start n path φ r →
        ReadAt text p path φ r.cursor ∧ IdsInRange x φ r) ∧
      (∀ fuel stop r, x.run fuel = (.error stop, r) →
        ∃ n path φ r', x.Visits fuel n path φ r' ∧ x.Stops n φ r' stop) ∧
      ∀ fuel e r, x.run fuel = (.error (.error e), r) → e.isInternal = false := by
  obtain ⟨root, hroot⟩ := exists_readsText hp
  obtain ⟨x, hprepare⟩ := hroot.wellScoped.exists_prepare limit
  obtain ⟨hitems, hscopes, -, hx⟩ := hroot.wellScoped.prepare hprepare
  refine ⟨x, hprepare, fun start n path φ r h => ⟨?_, Executable.idsInRange hx h⟩,
    fun fuel stop r h => Executable.Visits.stops hx .start (congrArg Prod.fst h),
    fun _ _ _ => Executable.run_not_internal hx⟩
  -- The place of a visit follows from the tree, and so does the one of reading.
  obtain ⟨hat, hstands⟩ := h.placed hx
  rw [hstands.cursor, hitems, hscopes]
  exact readAt_of_at? hp (hitems ▸ hat)

theorem countdown_keeps_place :
    parse countdownText = .ok ⟨countdownItems, countdownTable⟩ ∧
      (Parsed.mk countdownItems countdownTable).prepare? (some 3) = some countdownProgram ∧
      ReadAt countdownText ⟨countdownItems, countdownTable⟩ [1, 1, 0, 1] (.items countdownBlock)
        ⟨none, some 0⟩ ∧
      ∀ fuel e r, countdownProgram.run fuel = (.error (.error e), r) → e.isInternal = false := by
  refine ⟨parse_countdownText, prepare?_countdown, ?_⟩
  obtain ⟨x, hx, hvisits, -, hend⟩ := accepted_runs_keep_place parse_countdownText (some 3)
  obtain rfl : countdownProgram = x := Option.some.inj (prepare?_countdown.symm.trans hx)
  exact ⟨(hvisits _ _ _ _ _ visits_countdown).1, hend⟩

end BlockLang
