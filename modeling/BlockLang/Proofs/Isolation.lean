/-
  BlockLang.Proofs.Isolation

  Variables of methods are kept apart by calls.

  Variables are stored once for each method, not once for each call.  Calls clear
  them and put their values back, so that what is carried out at a place has no effect
  on the variables of a method unless that method is around the place.
-/
import BlockLang.Proofs.RunSafety

namespace BlockLang

/-- The method `n` stands inside the method `m`, at any depth. -/
def ScopeTable.Inside (t : ScopeTable) (n m : MethodId) : Prop :=
  t.Encloses (t.outerMethod? n) m

/-- No method stands inside itself. -/
theorem ScopeTable.Coherent.not_inside_self {t : ScopeTable} (ht : t.Coherent) (m : MethodId) :
    ¬t.Inside m m := by
  rintro ⟨n, hn, hm⟩
  exact Nat.lt_irrefl m (Nat.lt_of_le_of_lt (hm.le ht) (ht.outerMethod?_lt hn))

/-- The state behind carrying out a phrase, whether it succeeds or stops. -/
def Executable.stateAfter (x : Executable) (fuel : Nat) (r : RunState) : Phrase → RunState
  | .expr e => ((evalExpr (x.dispatch fuel) e).outcome r).2
  | .arguments es => ((evalExprs (x.dispatch fuel) es).outcome r).2
  | .item i => ((execItem x.limit fuel (x.dispatch fuel) i).outcome r).2
  | .items is => ((execItems x.limit fuel (x.dispatch fuel) is).outcome r).2
  | _ => r

namespace Executable

variable {x : Executable} (hx : x.WellScoped)
include hx

/-- Carrying out a phrase at its place keeps to the methods around that place. -/
theorem steady_stateAfter {path : Path} {φ : Phrase}
    (h : (Phrase.items x.items).at? path = some φ) (fuel : Nat) {r : RunState} {c : Cursor}
    (hc : c = (Phrase.items x.items).cursorAt x.scopes .global path)
    (hr : r.Stands x.scopes c) : Steady x.scopes c.method r (x.stateAfter fuel r φ) := by
  have hsafe := hx.runsSafely_at h fuel
  rw [← hc] at hsafe
  cases φ with
  | expr e => exact (hsafe r hr.table hr.cursor).1
  | arguments es => exact (hsafe r hr.table hr.cursor).1
  | item i => exact (hsafe r hr.table hr.cursor).1
  | items is => exact (hsafe r hr.table hr.cursor).1
  | _ => exact .refl r

/-- A call keeps to the methods around the one that it calls; print keeps to none. -/
theorem value?_callWith {callee : Callee} {m : MethodId}
    (hm : ∀ n, callee.target = .method n → ¬x.scopes.Inside n m) {v : VariableId}
    (hv : x.scopes.ownerOf? (.var v) = some (.method m)) (fuel : Nat) (arguments : List Value)
    {r : RunState} (hr : r.scopes.withoutValues = x.scopes) :
    ((callWith (x.dispatch fuel) callee arguments).outcome r).2.scopes.value? v =
      r.scopes.value? v := by
  unfold callWith
  split
  · rfl
  · rfl
  · next n htarget =>
      have hsafe := hx.safeCalls fuel r.cursor n callee.name
      exact (hsafe _ r hr rfl).1.frame v m hv (hm n htarget)

/-- Behind a run no variable of a method has a value. -/
theorem value?_run {v : VariableId} {m : MethodId}
    (hv : x.scopes.ownerOf? (.var v) = some (.method m)) (fuel : Nat) :
    (x.run fuel).2.scopes.value? v = none := by
  have hstart : x.initial.Stands x.scopes .global :=
    ⟨ScopeTable.withoutValues_of_unassigned hx.unassigned, rfl⟩
  have hroot : (Phrase.items x.items).at? [] = some (.items x.items) := rfl
  have hsteady := steady_stateAfter hx hroot fuel rfl hstart
  have hframe := hsteady.frame v m hv (x.scopes.not_encloses_none m)
  exact hframe.trans (hx.unassigned v)

end Executable

/-- What is carried out at a place, from any values and whether it succeeds or stops,
    has no effect on the variables of a method that is neither the one at that place
    nor around it.  A call has none on those of a method inside of which the called
    method does not stand, be it that method itself.  Behind a run no variable of a
    method has a value. -/
theorem calls_isolate_method_variables {text : String} {p : Parsed} (hp : parse text = .ok p)
    {limit : Option Nat} {x : Executable} (hx : p.prepare? limit = some x) :
    (∀ path φ, (Phrase.items p.items).at? path = some φ → ∃ c, ReadAt text p path φ c ∧
      ∀ fuel r, r.scopes.withoutValues = p.scopes → r.cursor = c →
        ∀ v m, p.scopes.ownerOf? (.var v) = some (.method m) → ¬p.scopes.Encloses c.method m →
          (x.stateAfter fuel r φ).scopes.value? v = r.scopes.value? v) ∧
    (∀ m, ¬p.scopes.Inside m m) ∧
    (∀ fuel callee arguments r, r.scopes.withoutValues = p.scopes →
      ∀ v m, p.scopes.ownerOf? (.var v) = some (.method m) →
        (∀ n, callee.target = .method n → ¬p.scopes.Inside n m) →
        ((callWith (x.dispatch fuel) callee arguments).outcome r).2.scopes.value? v =
          r.scopes.value? v) ∧
    ∀ fuel v m, p.scopes.ownerOf? (.var v) = some (.method m) →
      (x.run fuel).2.scopes.value? v = none := by
  obtain ⟨root, hroot⟩ := exists_readsText hp
  obtain ⟨hitems, hscopes, -, hsound⟩ := hroot.wellScoped.prepare hx
  rw [← hitems, ← hscopes]
  refine ⟨fun path φ hφ => ?_, hsound.coherent.not_inside_self,
    fun fuel callee arguments r hr v m hv hm => ?_, fun fuel v m hv => ?_⟩
  · refine ⟨_, readAt_of_at? hp (hitems ▸ hφ), fun fuel r ht hc => ?_⟩
    rw [← hitems, ← hscopes] at hc ⊢
    exact (Executable.steady_stateAfter hsound hφ fuel rfl ⟨ht, hc⟩).frame
  · exact Executable.value?_callWith hsound hm hv fuel arguments hr
  · exact Executable.value?_run hsound hv fuel

/-- A body of `count` calls `count` and finds its own parameter as it was. -/
theorem countdown_keeps_parameter :
    parse countdownText = .ok ⟨countdownItems, countdownTable⟩ ∧
      (Parsed.mk countdownItems countdownTable).prepare? (some 3) = some countdownProgram ∧
      ((callWith (countdownProgram.dispatch 5) ⟨⟨"count", 5⟩, .method 0⟩ [.integer 1]).outcome
        ⟨countdownTable.setValue 0 (some (.integer 2)), ⟨none, some 0⟩, #[]⟩).2.scopes.value? 0 =
          some (.integer 2) ∧
      (countdownProgram.run 5).2.scopes.value? 0 = none := by
  -- The called method is the one whose parameter is looked at; it is not inside itself.
  obtain ⟨-, hself, hcalls, hrun⟩ :=
    calls_isolate_method_variables parse_countdownText prepare?_countdown
  refine ⟨parse_countdownText, prepare?_countdown, ?_, hrun 5 0 0 rfl⟩
  refine hcalls 5 _ _ _ (by cbv) 0 0 rfl fun n hn => ?_
  obtain rfl : 0 = n := CallTarget.method.inj hn
  exact hself 0

end BlockLang
