/-
  BlockLang.Proofs.EvaluationDiscipline

  What carrying out a program leaves alone.

  Whatever is evaluated, in whatever state: when it ends, with a value or an error, the
  run is back at its place, its table differs in values only, and it has printed some
  lines behind those printed before without looking at these.  Nothing is assumed of the
  tree or of the table.
-/
import BlockLang.Proofs.Eval.Fuel

namespace BlockLang

/-- What holds of a computation whenever it ends, with a value or an error. -/
structure Disciplined {α : Type} (y : Nat → EvalM α) : Prop where
  /-- It ends in one way only. -/
  unique : ∀ r a b r₁ r₂, Ends y r a r₁ → Ends y r b r₂ → a = b ∧ r₁ = r₂
  /-- It comes back to the place where it started. -/
  cursor : ∀ r a r', Ends y r a r' → r'.cursor = r.cursor
  /-- The table differs in the values of variables only. -/
  table : ∀ r a r', Ends y r a r' → r'.scopes.withoutValues = r.scopes.withoutValues
  /-- It prints some lines behind those printed before.  If other lines were printed
      before, it prints the same ones, has the same result and leaves the same values. -/
  output : ∀ r a r', Ends y r a r' → ∃ lines : Array String, r'.output = r.output ++ lines ∧
    ∀ before, Ends y { r with output := before } a { r' with output := before ++ lines }

namespace Records

variable {α : Type} {x : Nat → TraceM α} {y : Nat → EvalM α}

/-- A computation that ends does what is recorded of it. -/
theorem observe_of_ends (h : Records x y) {r r' : RunState} {a : Except EvalError α}
    (hend : Ends y r a r') :
    ∃ fuel, ((x fuel).observe r).result = a.mapError Stop.error ∧
      ((x fuel).observe r).state = r' := by
  obtain ⟨fuel, hfuel⟩ := hend
  rw [h.erases fuel r] at hfuel
  exact ⟨fuel, Prod.mk.inj hfuel⟩

theorem disciplined (h : Records x y) : Disciplined y where
  unique _ _ _ _ _ ha hb := h.ends_unique ha hb
  cursor r a r' hend := by
    obtain ⟨fuel, -, rfl⟩ := h.observe_of_ends hend
    exact (h.orderly fuel).cursor r
  table r a r' hend := by
    obtain ⟨fuel, -, rfl⟩ := h.observe_of_ends hend
    exact (h.orderly fuel).table r
  output r a r' hend := by
    obtain ⟨fuel, hresult, rfl⟩ := h.observe_of_ends hend
    have houtput := (h.orderly fuel).output r
    refine ⟨(printedLines ((x fuel).observe r).events).toArray, ?_, fun before => ⟨fuel, ?_⟩⟩
    · -- The lines printed before are one choice for them.
      exact congrArg (·.state.output) (houtput r.output)
    · rw [h.erases fuel, houtput before, hresult]

end Records

/-- For every program that is ready to run, whatever its tree and its table: expressions,
    items and blocks that are carried out in any state keep to `Disciplined`.  A run that
    fails returns exactly the lines that are printed in it up to the error. -/
theorem evaluation_is_disciplined (x : Executable) :
    (∀ e, Disciplined fun fuel => evalExpr (x.dispatch fuel) e) ∧
    (∀ i, Disciplined fun fuel => execItem x.limit fuel (x.dispatch fuel) i) ∧
    (∀ is, Disciplined fun fuel => execItems x.limit fuel (x.dispatch fuel) is) ∧
    ∀ fuel, x.run fuel = ((x.traced fuel).result, (x.traced fuel).state) ∧
      ∀ error output, x.outcome fuel = .failed error output →
        (x.traced fuel).result = .error (.error error) ∧
          output = "\n".intercalate (printedLines (x.traced fuel).events) := by
  refine ⟨fun e => (x.records_expr e).disciplined, fun i => (x.records_item i).disciplined,
    fun is => (x.records_items is).disciplined,
    fun fuel => ⟨x.run_eq_traced fuel, fun error output h => ?_⟩⟩
  rw [x.outcome_eq_traced] at h
  exact Outcome.of_eq_failed h

end BlockLang
