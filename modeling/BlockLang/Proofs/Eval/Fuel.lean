/-
  BlockLang.Proofs.Eval.Fuel

  Fuel decides whether a run ends and nothing else.

  A computation that has enough fuel does the same with more of it, down to the record of
  what happens.  So what a computation ends with, if it ends, does not depend on fuel.
-/
import BlockLang.Proofs.Eval.Trace

namespace BlockLang

/-- The second computation does what the first one does, unless the first one runs out of
    fuel. -/
def Settles (α : Type) (x y : TraceM α) : Prop :=
  ∀ r, (x.observe r).result = .error .outOfFuel ∨ y.observe r = x.observe r

namespace Settles

variable {α β : Type}

theorem refl (x : TraceM α) : Settles α x x := fun _ => .inr rfl

theorem bind {x y : TraceM α} {f g : α → TraceM β} (hx : Settles α x y)
    (hf : ∀ a, Settles β (f a) (g a)) : Settles β (x >>= f) (y >>= g) := by
  intro r
  rcases hobs : x.observe r with ⟨stop | a, r₁, events⟩
  · rw [TraceM.observe_bind_error hobs]
    rcases hx r with hout | hsame
    · rw [hobs] at hout
      obtain rfl := Except.error.inj hout
      exact .inl rfl
    · rw [hobs] at hsame
      exact .inr (TraceM.observe_bind_error hsame)
  · have hsame : y.observe r = x.observe r := by
      rcases hx r with hout | hsame
      · rw [hobs] at hout
        exact absurd hout nofun
      · exact hsame
    rw [hobs] at hsame
    rw [TraceM.observe_bind_ok hobs, TraceM.observe_bind_ok hsame]
    rcases hf a r₁ with hout | hrest
    · exact .inl hout
    · rw [hrest]
      exact .inr rfl

theorem withCursor (c : Cursor) {x y : TraceM α} (hx : Settles α x y) :
    Settles α (.withCursor c x) (.withCursor c y) := by
  intro r
  rcases hx { r with cursor := c } with hout | hsame
  · exact .inl hout
  · exact .inr (congrArg
      (fun t : Traced α => { t with state := { t.state with cursor := r.cursor } }) hsame)

theorem withFreshVariables (method : MethodId) {x y : TraceM α} (hx : Settles α x y) :
    Settles α (.withFreshVariables method x) (.withFreshVariables method y) := by
  intro r
  let owned := (r.scopes.members (.method method)).vars
  rcases hx { r with scopes := r.scopes.clear owned } with hout | hsame
  · exact .inl hout
  · exact .inr (congrArg (fun t : Traced α =>
      { t with state := { t.state with scopes := t.state.scopes.restore r.scopes owned } }) hsame)

theorem invoke (head : BodyHead) (arguments : List Value) {x y : TraceM Unit}
    (hx : Settles Unit x y) :
    Settles Unit (.invoke head arguments x) (.invoke head arguments y) := by
  apply (refl _).bind
  intro frame
  apply withFreshVariables
  exact (refl _).bind fun _ => hx.withCursor frame

theorem loop (limit : Option Nat) (line : Nat) {x y : TraceM Bool} {x' y' : TraceM Unit}
    (hx : Settles Bool x y) (hx' : Settles Unit x' y') {fuel fuel' : Nat} (hle : fuel ≤ fuel')
    (rounds : Nat) :
    Settles Unit (.loop limit line x x' fuel rounds) (.loop limit line y y' fuel' rounds) := by
  induction fuel generalizing fuel' rounds with
  | zero => exact fun _ => .inl rfl
  | succ fuel ih =>
      obtain ⟨fuel', rfl⟩ : ∃ n, fuel' = n + 1 := ⟨fuel' - 1, by omega⟩
      have hrest := ih (Nat.le_of_succ_le_succ hle) (rounds + 1)
      have hround := (refl (.record (.started line (rounds + 1)))).bind fun _ =>
        hx'.bind fun _ => hrest
      apply hx.bind
      intro holds
      split
      · cases limit with
        | none => exact hround
        | some most =>
            dsimp only
            split
            · exact refl _
            · exact hround
      · exact refl _

end Settles

namespace Interpretation

theorem settles_traced (limit : Option Nat) {fuel fuel' : Nat} (hle : fuel ≤ fuel') :
    Related Settles (traced limit fuel) (traced limit fuel') where
  pure _ := .refl _
  bind := .bind
  fail _ := .refl _
  readName _ := .refl _
  assign _ _ := .refl _
  requireDeclared _ _ := .refl _
  print _ := .refl _
  inClass _ := .withCursor _
  loop line := fun hx hx' => .loop limit line hx hx' hle 0
  implementations _ := .refl _
  invoke head arguments := .invoke head arguments

end Interpretation

/-- More fuel for calls makes no difference to those that have enough. -/
theorem Executable.settles_tracedCalls (p : Executable) {fuel fuel' : Nat} (hle : fuel ≤ fuel') :
    Interpretation.RelatedCalls Settles (p.tracedCalls fuel) (p.tracedCalls fuel') := by
  induction fuel generalizing fuel' with
  | zero => exact fun _ _ _ _ => .inl rfl
  | succ fuel ih =>
      obtain ⟨fuel', rfl⟩ : ∃ n, fuel' = n + 1 := ⟨fuel' - 1, by omega⟩
      have hle' := Nat.le_of_succ_le_succ hle
      exact (Interpretation.settles_traced p.limit hle').enter (ih hle') p.bodies

/-! ## Computations that end -/

/-- With enough fuel the computation leads from `r` to `r'` and has this result. -/
def Ends {α : Type} (y : Nat → EvalM α) (r : RunState) (result : Except EvalError α)
    (r' : RunState) : Prop :=
  ∃ fuel, (y fuel).outcome r = (result.mapError Stop.error, r')

/-- What is recorded of a computation for each amount of fuel. -/
structure Records {α : Type} (x : Nat → TraceM α) (y : Nat → EvalM α) : Prop where
  erases : ∀ fuel, Erases α (x fuel) (y fuel)
  orderly : ∀ fuel, Orderly (x fuel)
  settles : ∀ fuel fuel', fuel ≤ fuel' → Settles α (x fuel) (x fuel')

namespace Records

variable {α : Type} {x : Nat → TraceM α} {y : Nat → EvalM α} (h : Records x y)
include h

/-- A computation that ends with some fuel ends in the same way with more of it. -/
theorem outcome_of_le {fuel fuel' : Nat} (hle : fuel ≤ fuel') {r : RunState}
    (hend : ((y fuel).outcome r).1 ≠ .error .outOfFuel) :
    (y fuel').outcome r = (y fuel).outcome r := by
  rw [h.erases fuel r] at hend ⊢
  rw [h.erases fuel' r]
  rcases h.settles fuel fuel' hle r with hout | hsame
  · exact absurd hout hend
  · rw [hsame]

/-- A computation ends in one way only. -/
theorem ends_unique {r r₁ r₂ : RunState} {a b : Except EvalError α} (ha : Ends y r a r₁)
    (hb : Ends y r b r₂) : a = b ∧ r₁ = r₂ := by
  obtain ⟨m, hm⟩ := ha
  obtain ⟨n, hn⟩ := hb
  have hfuel (c : Except EvalError α) : c.mapError Stop.error ≠ .error .outOfFuel := by
    cases c <;> nofun
  have hm' := h.outcome_of_le (Nat.le_max_left m n) (r := r) (by rw [hm]; exact hfuel a)
  have hn' := h.outcome_of_le (Nat.le_max_right m n) (r := r) (by rw [hn]; exact hfuel b)
  have hsame := hm.symm.trans (hm'.symm.trans (hn'.trans hn))
  obtain ⟨hresult, hstate⟩ := Prod.mk.inj hsame
  exact ⟨mapError_inj hresult, hstate⟩

end Records

namespace Executable

variable (p : Executable)

theorem records_expr (e : Expr) :
    Records (fun fuel => (Interpretation.traced p.limit fuel).expr (p.tracedCalls fuel) e)
      (fun fuel => evalExpr (p.dispatch fuel) e) where
  erases fuel := by
    rw [← Interpretation.plain_expr p.limit fuel]
    exact (Interpretation.erases_traced p.limit fuel).expr (p.erases_tracedCalls fuel) e
  orderly fuel := (Interpretation.orderly_traced p.limit fuel).expr (p.orderly_tracedCalls fuel) e
  settles _ _ hle :=
    (Interpretation.settles_traced p.limit hle).expr (p.settles_tracedCalls hle) e

theorem records_item (i : Item) :
    Records (fun fuel => (Interpretation.traced p.limit fuel).item (p.tracedCalls fuel) i)
      (fun fuel => execItem p.limit fuel (p.dispatch fuel) i) where
  erases fuel := by
    rw [← Interpretation.plain_item p.limit fuel]
    exact (Interpretation.erases_traced p.limit fuel).item (p.erases_tracedCalls fuel) i
  orderly fuel := (Interpretation.orderly_traced p.limit fuel).item (p.orderly_tracedCalls fuel) i
  settles _ _ hle :=
    (Interpretation.settles_traced p.limit hle).item (p.settles_tracedCalls hle) i

theorem records_items (is : List Item) :
    Records (fun fuel => (Interpretation.traced p.limit fuel).items (p.tracedCalls fuel) is)
      (fun fuel => execItems p.limit fuel (p.dispatch fuel) is) where
  erases fuel := by
    rw [← Interpretation.plain_items p.limit fuel]
    exact (Interpretation.erases_traced p.limit fuel).items (p.erases_tracedCalls fuel) is
  orderly fuel := (Interpretation.orderly_traced p.limit fuel).items (p.orderly_tracedCalls fuel) is
  settles _ _ hle :=
    (Interpretation.settles_traced p.limit hle).items (p.settles_tracedCalls hle) is

/-- Forgetting the record of a traced run gives the run. -/
theorem run_eq_traced (fuel : Nat) :
    p.run fuel = ((p.traced fuel).result, (p.traced fuel).state) :=
  (p.records_items p.items).erases fuel p.initial

/-- The lines of a run are those that it records. -/
theorem output_traced (fuel : Nat) :
    (p.traced fuel).state.output.toList = printedLines (p.traced fuel).events := by
  -- A run starts without lines, so its lines are those behind none.
  have hlines : (p.traced fuel).state.output =
      #[] ++ (printedLines (p.traced fuel).events).toArray :=
    congrArg (·.state.output) (((p.records_items p.items).orderly fuel).output p.initial #[])
  rw [hlines]
  simp

end Executable

/-! ## Runs that end -/

/-- How a run with a result and some lines ends. -/
def Outcome.of (result : Except Stop Unit) (lines : List String) : Outcome :=
  match result with
  | .ok () => .finished ("\n".intercalate lines)
  | .error (.error cause) => .failed cause ("\n".intercalate lines)
  | .error .outOfFuel => .outOfFuel

theorem Outcome.of_eq_failed {result : Except Stop Unit} {lines : List String} {cause : EvalError}
    {output : String} (h : Outcome.of result lines = .failed cause output) :
    result = .error (.error cause) ∧ output = "\n".intercalate lines := by
  unfold Outcome.of at h
  split at h
  · cases h
  · cases h
    exact ⟨rfl, rfl⟩
  · cases h

namespace Executable

variable (p : Executable) (fuel : Nat)

theorem outcome_eq_run : p.outcome fuel = .of (p.run fuel).1 (p.run fuel).2.output.toList := by
  unfold outcome
  rcases p.run fuel with ⟨(_ | _) | _, _⟩ <;> rfl

/-- How a run ends can be told from its record. -/
theorem outcome_eq_traced :
    p.outcome fuel = .of (p.traced fuel).result (printedLines (p.traced fuel).events) := by
  rw [outcome_eq_run, run_eq_traced, output_traced]

end Executable

end BlockLang
