/-
  BlockLang.Proofs.FreshFrames

  Every call works on a frame of its own.

  A call clears the variables that the method owns, carries out the body, and puts their
  values back.  So the caller finds those variables as they were, and the call cannot tell
  what they held: two states that agree on everything else lead to the same result and
  still agree on everything else behind the call.  Nothing is assumed of the tree or of the
  table, and it does not matter whether the call succeeds.
-/
import BlockLang.Proofs.Eval.Fuel
import BlockLang.Proofs.RunSafety

namespace BlockLang

/-! ## States that differ in some variables -/

/-- The variables that a method owns. -/
def ScopeTable.variablesOf (t : ScopeTable) (m : MethodId) : List VariableId :=
  (t.members (.method m)).vars

theorem ScopeTable.variablesOf_eq {t u : ScopeTable} (h : t.withoutValues = u.withoutValues)
    (m : MethodId) : t.variablesOf m = u.variablesOf m := by
  rw [variablesOf, ← members_withoutValues, h, members_withoutValues, ← variablesOf]

/-- Whether two states differ in nothing but the values of some variables. -/
structure AgreeOutside (vs : List VariableId) (r₁ r₂ : RunState) : Prop where
  cursor : r₁.cursor = r₂.cursor
  output : r₁.output = r₂.output
  table : r₁.scopes.withoutValues = r₂.scopes.withoutValues
  values : ∀ v ∉ vs, r₁.scopes.value? v = r₂.scopes.value? v

/-- The state in which the variables of a method have no values. -/
def RunState.cleared (r : RunState) (m : MethodId) : RunState :=
  { r with scopes := r.scopes.clear (r.scopes.variablesOf m) }

/-- Without the variables in which two states differ there is no difference left. -/
theorem AgreeOutside.cleared_eq {m : MethodId} {r₁ r₂ : RunState}
    (h : AgreeOutside (r₁.scopes.variablesOf m) r₁ r₂) : r₁.cleared m = r₂.cleared m := by
  rw [RunState.cleared, RunState.cleared, ← ScopeTable.variablesOf_eq h.table m]
  generalize r₁.scopes.variablesOf m = vs at h
  have hscopes : r₁.scopes.clear vs = r₂.scopes.clear vs := by
    apply ScopeTable.eq_of_values
    · rw [ScopeTable.withoutValues_clear, ScopeTable.withoutValues_clear, h.table]
    · intro v
      by_cases hv : v ∈ vs
      · rw [ScopeTable.value?_clear_of_mem _ hv, ScopeTable.value?_clear_of_mem _ hv]
      · rw [ScopeTable.value?_clear_of_not_mem _ hv, ScopeTable.value?_clear_of_not_mem _ hv,
          h.values v hv]
  rw [hscopes, h.cursor, h.output]

/-! ## Fresh variables -/

/-- Whether a computation changes nothing in the table but values. -/
def KeepsTable {α : Type} (y : EvalM α) : Prop :=
  ∀ r, (y.outcome r).2.scopes.withoutValues = r.scopes.withoutValues

section FreshVariables

variable {α : Type} {y : EvalM α} (hy : KeepsTable y) (m : MethodId)
include hy

/-- Behind a computation with fresh variables, those variables have their values from before,
    and all others have the values that the computation left. -/
theorem value?_withFreshVariables (r : RunState) (v : VariableId) :
    ((EvalM.withFreshVariables m y).outcome r).2.scopes.value? v =
      if v ∈ r.scopes.variablesOf m then r.scopes.value? v
      else (y.outcome (r.cleared m)).2.scopes.value? v := by
  -- The table has kept its size, so every variable has a place to be put back to.
  have htable := (hy (r.cleared m)).trans (ScopeTable.withoutValues_clear _ _)
  exact ScopeTable.value?_restore (ScopeTable.size_vars_eq htable) _ v

/-- A computation with fresh variables cannot tell what those variables held. -/
theorem agreeOutside_withFreshVariables {r₁ r₂ : RunState}
    (h : AgreeOutside (r₁.scopes.variablesOf m) r₁ r₂) :
    ((EvalM.withFreshVariables m y).outcome r₁).1 =
        ((EvalM.withFreshVariables m y).outcome r₂).1 ∧
      AgreeOutside (r₁.scopes.variablesOf m) ((EvalM.withFreshVariables m y).outcome r₁).2
        ((EvalM.withFreshVariables m y).outcome r₂).2 := by
  -- Both computations go on from the same state.
  have hinner : y.outcome (r₁.cleared m) = y.outcome (r₂.cleared m) := by rw [h.cleared_eq]
  refine ⟨congrArg (·.1) hinner, congrArg (·.2.cursor) hinner, congrArg (·.2.output) hinner, ?_,
    fun v hv => ?_⟩
  · have htable (r : RunState) :
        ((EvalM.withFreshVariables m y).outcome r).2.scopes.withoutValues =
          (y.outcome (r.cleared m)).2.scopes.withoutValues :=
      ScopeTable.withoutValues_restore _ _ _
    rw [htable, htable, hinner]
  · rw [value?_withFreshVariables hy, value?_withFreshVariables hy,
      ← ScopeTable.variablesOf_eq h.table, if_neg hv, if_neg hv, hinner]

end FreshVariables

/-! ## Calls -/

namespace Executable

variable (x : Executable) (b : MethodBody) (arguments : List Value)

/-- Carrying out a body of a method with these arguments. -/
def invocation (fuel : Nat) : EvalM Unit :=
  EvalM.invoke b.head arguments (execItems x.limit fuel (x.dispatch fuel) b.block)

theorem records_invocation :
    Records (fun fuel => TraceM.invoke b.head arguments
      ((Interpretation.traced x.limit fuel).items (x.tracedCalls fuel) b.block))
      (x.invocation b arguments) where
  erases fuel := .invoke b.head arguments ((x.records_items b.block).erases fuel)
  orderly fuel := .invoke b.head arguments ((x.records_items b.block).orderly fuel)
  settles _ _ hle := .invoke b.head arguments ((x.records_items b.block).settles _ _ hle)

/-- What is carried out between clearing and putting back: the arguments are stored and the
    block runs inside the method. -/
def bodyRun (fuel : Nat) (frame : Cursor) : EvalM Unit := do
  EvalM.bindParameters frame b.head.patterns arguments
  EvalM.withCursor frame (execItems x.limit fuel (x.dispatch fuel) b.block)

theorem keepsTable_bodyRun (fuel : Nat) (frame : Cursor) :
    KeepsTable (x.bodyRun b arguments fuel frame) := by
  have hblock := x.records_items b.block
  have herases := (Erases.ofEval (EvalM.bindParameters frame b.head.patterns arguments)).bind
    fun _ => (hblock.erases fuel).withCursor frame
  have horderly := (Orderly.ofEval (quiet_bindParameters frame b.head.patterns arguments)).bind
    fun _ => (hblock.orderly fuel).withCursor frame
  intro r
  rw [bodyRun, herases r]
  exact horderly.table r

theorem outcome_invocation (fuel : Nat) (r : RunState) :
    (x.invocation b arguments fuel).outcome r =
      (EvalM.withFreshVariables b.head.method
        (x.bodyRun b arguments fuel (r.scopes.bodyCursor b.head.method))).outcome r :=
  EvalM.outcome_get_bind _ r

end Executable

/-- For every program that is ready to run, whatever its tree and its table, and every body:
    when carrying it out ends, with success or an error, the variables that its method owns
    have their values from before.  From two states that differ in the values of those
    variables only it ends in the same way, with the same lines printed and the same values
    of all other variables. -/
theorem invocations_have_fresh_frames (x : Executable) (b : MethodBody)
    (arguments : List Value) :
    (∀ r result r', Ends (x.invocation b arguments) r result r' →
      ∀ v ∈ r.scopes.variablesOf b.head.method, r'.scopes.value? v = r.scopes.value? v) ∧
    ∀ r₁ r₂, AgreeOutside (r₁.scopes.variablesOf b.head.method) r₁ r₂ →
      ∀ result r₁', Ends (x.invocation b arguments) r₁ result r₁' →
        ∃ r₂', (∀ result' r', Ends (x.invocation b arguments) r₂ result' r' ↔
            result' = result ∧ r' = r₂') ∧
          AgreeOutside (r₁.scopes.variablesOf b.head.method) r₁' r₂' := by
  constructor
  · rintro r result r' ⟨fuel, hfuel⟩ v hv
    rw [x.outcome_invocation] at hfuel
    have hvalue := value?_withFreshVariables
      (x.keepsTable_bodyRun b arguments fuel (r.scopes.bodyCursor b.head.method)) b.head.method r v
    rw [hfuel, if_pos hv] at hvalue
    exact hvalue
  · rintro r₁ r₂ hagree result r₁' ⟨fuel, hfuel⟩
    -- Where the body runs does not depend on values.
    have hframe : r₁.scopes.bodyCursor b.head.method = r₂.scopes.bodyCursor b.head.method := by
      rw [← ScopeTable.bodyCursor_withoutValues, hagree.table,
        ScopeTable.bodyCursor_withoutValues]
    have hruns := agreeOutside_withFreshVariables
      (x.keepsTable_bodyRun b arguments fuel (r₁.scopes.bodyCursor b.head.method)) b.head.method
      hagree
    rw [← x.outcome_invocation, hframe, ← x.outcome_invocation, hfuel] at hruns
    obtain ⟨hresult, hstates⟩ := hruns
    have hends : Ends (x.invocation b arguments) r₂ result
        ((x.invocation b arguments fuel).outcome r₂).2 := ⟨fuel, Prod.ext hresult.symm rfl⟩
    refine ⟨_, fun result' r' => ⟨fun h => ?_, ?_⟩, hstates⟩
    · exact (x.records_invocation b arguments).ends_unique h hends
    · rintro ⟨rfl, rfl⟩
      exact hends

/-- The body of `count` that calls itself. -/
def countdownBody : MethodBody := ⟨⟨1, 0, ⟨"count", 4⟩, [.binding ⟨"n", 4⟩]⟩, countdownBlock⟩

/-- A state in front of a call, in which the parameter of `count` has some value or none. -/
def beforeCountdown (n : Option Value) : RunState := ⟨countdownTable.setValue 0 n, .global, #["0"]⟩

/-- The call that the body makes fails in its turn, since what it computes does not fit; the
    parameter is as it was, and its value has made no difference. -/
theorem countdown_frame_is_fresh :
    ∃ r₁ r₂, Ends (countdownProgram.invocation countdownBody [.integer (-9223372036854775807)])
        (beforeCountdown (some (.integer 7))) (.error (.integerOverflow "-" 5)) r₁ ∧
      Ends (countdownProgram.invocation countdownBody [.integer (-9223372036854775807)])
        (beforeCountdown none) (.error (.integerOverflow "-" 5)) r₂ ∧
      r₁.scopes.value? 0 = some (.integer 7) ∧ r₂.scopes.value? 0 = none ∧
      r₁.output = r₂.output := by
  obtain ⟨hrestored, hagree⟩ := invocations_have_fresh_frames countdownProgram countdownBody
    [.integer (-9223372036854775807)]
  have hstates : AgreeOutside [0] (beforeCountdown (some (.integer 7))) (beforeCountdown none) := by
    refine ⟨rfl, rfl, ?_, fun v hv => ?_⟩
    · simp [beforeCountdown]
    · have hne : v ≠ 0 := by simpa using hv
      simp [beforeCountdown, ScopeTable.value?_setValue_of_ne _ hne]
  have hends : Ends (countdownProgram.invocation countdownBody [.integer (-9223372036854775807)])
      (beforeCountdown (some (.integer 7))) (.error (.integerOverflow "-" 5)) _ := ⟨3, rfl⟩
  obtain ⟨r₂, hr₂, hsame⟩ := hagree (beforeCountdown _) (beforeCountdown none) hstates _ _ hends
  have hends₂ := (hr₂ _ _).mpr ⟨rfl, rfl⟩
  exact ⟨_, r₂, hends, hends₂, hrestored _ _ _ hends 0 List.mem_cons_self,
    hrestored _ _ _ hends₂ 0 List.mem_cons_self, hsame.output⟩

end BlockLang
