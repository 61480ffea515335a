/-
  BlockLang.Proofs.Eval.Trace

  Runs with a record of what happens in them.

  A traced run does what a run does and records, in the order in which they happen, the
  values that are printed and the rounds that loops start.  The record goes up to the
  point at which the run ends, stops or is cut off for want of fuel; so the records for
  all amounts of fuel describe also a run that never ends.

  Forgetting the record leaves the run itself (`erases_traced`).  The lines of a run are
  those of its record, and nothing in a run depends on lines that were printed before it
  (`orderly_traced`).
-/
import BlockLang.Proofs.Eval.Interpretation

namespace BlockLang

/-- Something that happens in a run. -/
inductive Event where
  /-- A value is printed. -/
  | printed (value : Value)
  /-- A loop at a line starts its body for the `round`-th time since it was entered. -/
  | started (line round : Nat)
  deriving DecidableEq

/-- The line that is printed when something happens. -/
def Event.line? : Event → Option String
  | printed value => some value.text
  | started _ _ => none

/-- The lines that are printed when some things happen one after the other. -/
def printedLines (events : List Event) : List String := events.filterMap Event.line?

theorem printedLines_append (events events' : List Event) :
    printedLines (events ++ events') = printedLines events ++ printedLines events' :=
  List.filterMap_append

/-- What a computation makes of a state, with all that happens in it. -/
structure Traced (α : Type) where
  result : Except Stop α
  state : RunState
  events : List Event

/-- A computation of a run that records what happens. -/
def TraceM (α : Type) : Type := RunState → Traced α

/-! ## Traced computations -/

namespace TraceM

variable {α β : Type}

/-- What a computation makes of a state. -/
def observe (x : TraceM α) (r : RunState) : Traced α := x r

instance : Monad TraceM where
  pure a := fun r => ⟨.ok a, r, []⟩
  bind x f := fun r =>
    match (x.observe r).result with
    | .ok a =>
      let t := (f a).observe (x.observe r).state
      ⟨t.result, t.state, (x.observe r).events ++ t.events⟩
    | .error stop => ⟨.error stop, (x.observe r).state, (x.observe r).events⟩

theorem observe_bind_ok {x : TraceM α} {f : α → TraceM β} {r r₁ : RunState} {a : α}
    {events : List Event} (h : x.observe r = ⟨.ok a, r₁, events⟩) :
    (x >>= f).observe r = ⟨((f a).observe r₁).result, ((f a).observe r₁).state,
      events ++ ((f a).observe r₁).events⟩ := by
  simp only [observe] at h
  simp only [observe, bind, h]

theorem observe_bind_error {x : TraceM α} {f : α → TraceM β} {r r₁ : RunState} {stop : Stop}
    {events : List Event} (h : x.observe r = ⟨.error stop, r₁, events⟩) :
    (x >>= f).observe r = ⟨.error stop, r₁, events⟩ := by
  simp only [observe] at h
  simp only [observe, bind, h]

/-- A computation in which nothing happens that is recorded. -/
def ofEval (x : EvalM α) : TraceM α := fun r => ⟨(x.outcome r).1, (x.outcome r).2, []⟩

@[simp] theorem observe_ofEval (x : EvalM α) (r : RunState) :
    (ofEval x).observe r = ⟨(x.outcome r).1, (x.outcome r).2, []⟩ := rfl

/-- Records that something happens. -/
def record (event : Event) : TraceM Unit := fun r => ⟨.ok (), r, [event]⟩

@[simp] theorem observe_record (event : Event) (r : RunState) :
    (record event).observe r = ⟨.ok (), r, [event]⟩ := rfl

/-- Prints a value. -/
def print (value : Value) : TraceM Unit := do
  record (.printed value)
  ofEval (EvalM.print value.text)

/-- Computes at another place in the nesting of scopes. -/
def withCursor (c : Cursor) (x : TraceM α) : TraceM α := fun r =>
  let t := x.observe { r with cursor := c }
  { t with state := { t.state with cursor := r.cursor } }

/-- Computes while the variables of a method start out unassigned. -/
def withFreshVariables (method : MethodId) (x : TraceM α) : TraceM α := fun r =>
  let owned := (r.scopes.members (.method method)).vars
  let t := x.observe { r with scopes := r.scopes.clear owned }
  { t with state := { t.state with scopes := t.state.scopes.restore r.scopes owned } }

/-- Carries out `run` as a body of a method with these arguments. -/
def invoke (body : BodyHead) (arguments : List Value) (run : TraceM Unit) : TraceM Unit := do
  let frame ← ofEval do return (← get).scopes.bodyCursor body.method
  withFreshVariables body.method do
    ofEval (EvalM.bindParameters frame body.patterns arguments)
    withCursor frame run

/-- Repeats a body while a condition holds, and records the rounds. -/
def loop (limit : Option Nat) (line : Nat) (condition : TraceM Bool) (body : TraceM Unit) :
    Nat → Nat → TraceM Unit
  | 0, _ => ofEval (throw .outOfFuel)
  | fuel + 1, rounds => do
    if ← condition then
      match limit with
      | some most =>
        if most ≤ rounds then ofEval (EvalM.fail (.loopLimitExceeded most line))
        else
          record (.started line (rounds + 1))
          body
          loop limit line condition body fuel (rounds + 1)
      | none =>
        record (.started line (rounds + 1))
        body
        loop limit line condition body fuel (rounds + 1)
    else
      return

end TraceM

/-- The steps of a run that records what happens. -/
def Interpretation.traced (limit : Option Nat) (fuel : Nat) : Interpretation TraceM where
  fail cause := .ofEval (EvalM.fail cause)
  outOfFuel := .ofEval (throw .outOfFuel)
  readName id := .ofEval (EvalM.readName id)
  assign target value := .ofEval (EvalM.assign target value)
  requireDeclared kind name := .ofEval (EvalM.requireDeclared kind name)
  print := TraceM.print
  inClass id block := TraceM.withCursor (.inClass id) block
  loop line condition body := TraceM.loop limit line condition body fuel 0
  implementations method := .ofEval do return (← get).scopes.implementations method
  invoke := TraceM.invoke

namespace Executable

/-- Calls of methods that record what happens. -/
def tracedCalls (p : Executable) : Nat → Calls TraceM :=
  Interpretation.calls (.traced p.limit) p.bodies

/-- A run from the start, with all that happens in it. -/
def traced (p : Executable) (fuel : Nat) : Traced Unit :=
  ((Interpretation.traced p.limit fuel).items (p.tracedCalls fuel) p.items).observe p.initial

end Executable

/-! ## Forgetting the record -/

/-- The traced computation does what the other one does. -/
def Erases (α : Type) (x : TraceM α) (y : EvalM α) : Prop :=
  ∀ r, y.outcome r = ((x.observe r).result, (x.observe r).state)

namespace Erases

variable {α β : Type}

theorem ofEval (y : EvalM α) : Erases α (.ofEval y) y := fun _ => rfl

theorem bind {x : TraceM α} {y : EvalM α} {f : α → TraceM β} {g : α → EvalM β}
    (hx : Erases α x y) (hf : ∀ a, Erases β (f a) (g a)) : Erases β (x >>= f) (y >>= g) := by
  intro r
  have hr := hx r
  rw [EvalM.outcome_bind]
  rcases hobs : x.observe r with ⟨stop | a, r₁, events⟩
  · rw [hobs] at hr
    rw [TraceM.observe_bind_error hobs, hr]
  · rw [hobs] at hr
    rw [TraceM.observe_bind_ok hobs, hr]
    exact hf a r₁

/-- What is recorded makes no difference. -/
theorem record (event : Event) {x : TraceM α} {y : EvalM α} (hx : Erases α x y) :
    Erases α (do TraceM.record event; x) y := by
  intro r
  rw [TraceM.observe_bind_ok (TraceM.observe_record event r)]
  exact hx r

theorem withCursor (c : Cursor) {x : TraceM α} {y : EvalM α} (hx : Erases α x y) :
    Erases α (.withCursor c x) (EvalM.withCursor c y) := by
  intro r
  rw [EvalM.outcome_withCursor, hx]
  rfl

theorem withFreshVariables (method : MethodId) {x : TraceM α} {y : EvalM α}
    (hx : Erases α x y) :
    Erases α (.withFreshVariables method x) (EvalM.withFreshVariables method y) := by
  intro r
  rw [EvalM.outcome_withFreshVariables]
  dsimp only
  rw [hx]
  rfl

theorem invoke (head : BodyHead) (arguments : List Value) {x : TraceM Unit} {y : EvalM Unit}
    (hx : Erases Unit x y) :
    Erases Unit (.invoke head arguments x) (EvalM.invoke head arguments y) := by
  have hblock (frame : Cursor) := (ofEval (EvalM.bindParameters frame head.patterns arguments)).bind
    fun _ => hx.withCursor frame
  exact (ofEval (do return (← get).scopes.bodyCursor head.method)).bind fun frame =>
    (hblock frame).withFreshVariables head.method

theorem loop (limit : Option Nat) (line : Nat) {x : TraceM Bool} {y : EvalM Bool}
    {x' : TraceM Unit} {y' : EvalM Unit} (hx : Erases Bool x y) (hx' : Erases Unit x' y')
    (fuel rounds : Nat) :
    Erases Unit (.loop limit line x x' fuel rounds) (EvalM.loop limit line y y' fuel rounds) := by
  induction fuel generalizing rounds with
  | zero => exact ofEval (throw .outOfFuel)
  | succ fuel ih =>
      have hround := (hx'.bind fun _ => ih (rounds + 1)).record (.started line (rounds + 1))
      apply hx.bind
      intro holds
      split
      · cases limit with
        | none => exact hround
        | some most =>
            dsimp only
            split
            · exact ofEval _
            · exact hround
      · exact ofEval (pure ())

end Erases

namespace Interpretation

/-- The traced steps do what the steps of a run do. -/
theorem erases_traced (limit : Option Nat) (fuel : Nat) :
    Related Erases (traced limit fuel) (plain limit fuel) where
  pure a := .ofEval (pure a)
  bind := .bind
  fail _ := .ofEval _
  readName _ := .ofEval _
  assign _ _ := .ofEval _
  requireDeclared _ _ := .ofEval _
  print value := (Erases.ofEval (EvalM.print value.text)).record (.printed value)
  inClass _ := .withCursor _
  loop line := fun hx hx' => .loop limit line hx hx' fuel 0
  implementations _ := .ofEval _
  invoke head arguments := .invoke head arguments

end Interpretation

theorem Executable.erases_tracedCalls (p : Executable) (fuel : Nat) :
    Interpretation.RelatedCalls Erases (p.tracedCalls fuel) (p.dispatch fuel) := by
  rw [← Interpretation.plain_calls]
  exact Interpretation.related_calls (Interpretation.erases_traced p.limit) (.ofEval _) _ fuel

/-! ## The lines of a run -/

/-- Whether a computation that prints nothing comes back to its place, changes nothing in
    the table but values, and does not look at the lines printed before. -/
def Quiet {α : Type} (y : EvalM α) : Prop :=
  ∀ r, (y.outcome r).2.cursor = r.cursor ∧
    (y.outcome r).2.scopes.withoutValues = r.scopes.withoutValues ∧
    ∀ lines, y.outcome { r with output := lines } =
      ((y.outcome r).1, { (y.outcome r).2 with output := lines })

section Quiet

theorem quiet_pure {α : Type} (a : α) : Quiet (pure a : EvalM α) :=
  fun _ => ⟨rfl, rfl, fun _ => rfl⟩

theorem quiet_throw {α : Type} (stop : Stop) : Quiet (throw stop : EvalM α) :=
  fun _ => ⟨rfl, rfl, fun _ => rfl⟩

theorem quiet_table {α : Type} (f : ScopeTable → α) : Quiet (do return f (← get).scopes) :=
  fun _ => ⟨rfl, rfl, fun _ => rfl⟩

theorem quiet_readName (id : Ident) : Quiet (EvalM.readName id) := by
  intro r
  unfold EvalM.readName
  simp only [EvalM.outcome_get_bind]
  cases r.scopes.resolve id.name r.cursor with
  | none => exact ⟨rfl, rfl, fun _ => rfl⟩
  | some e =>
      cases e with
      | cls _ => exact ⟨rfl, rfl, fun _ => rfl⟩
      | method _ => exact ⟨rfl, rfl, fun _ => rfl⟩
      | var v =>
          dsimp only
          cases r.scopes.value? v <;> exact ⟨rfl, rfl, fun _ => rfl⟩

theorem quiet_assign (target : Ident) (value : Value) : Quiet (EvalM.assign target value) := by
  intro r
  unfold EvalM.assign
  simp only [EvalM.outcome_get_bind]
  cases r.scopes.resolve target.name r.cursor with
  | none => exact ⟨rfl, rfl, fun _ => rfl⟩
  | some e =>
      cases e with
      | cls _ => exact ⟨rfl, rfl, fun _ => rfl⟩
      | method _ => exact ⟨rfl, rfl, fun _ => rfl⟩
      | var v => exact ⟨rfl, ScopeTable.withoutValues_setValue _ _ _, fun _ => rfl⟩

theorem quiet_requireDeclared (kind : EntityKind) (name : Ident) :
    Quiet (EvalM.requireDeclared kind name) := by
  intro r
  unfold EvalM.requireDeclared
  simp only [EvalM.outcome_get_bind]
  cases r.scopes.findDeclared kind name.name r.cursor <;> exact ⟨rfl, rfl, fun _ => rfl⟩

theorem quiet_bindParameters (frame : Cursor) (patterns : List Pattern) (values : List Value) :
    Quiet (EvalM.bindParameters frame patterns values) := by
  induction patterns generalizing values with
  | nil => exact quiet_pure ()
  | cons p patterns ih =>
      cases values with
      | nil => cases p <;> exact quiet_pure ()
      | cons value values =>
          cases p with
          | value e => exact ih values
          | binding name =>
              intro r
              unfold EvalM.bindParameters
              simp only [EvalM.outcome_get_bind]
              cases r.scopes.findDeclared .var name.name frame with
              | none => exact ⟨rfl, rfl, fun _ => rfl⟩
              | some v =>
                  obtain ⟨hcursor, htable, houtput⟩ :=
                    ih values { r with scopes := r.scopes.setValue v (some value) }
                  exact ⟨hcursor, htable.trans (ScopeTable.withoutValues_setValue _ _ _), houtput⟩

end Quiet

/-- Whether a computation comes back to its place, changes nothing in the table but
    values, and prints the lines that it records behind those printed before, which it
    does not look at. -/
structure Orderly {α : Type} (x : TraceM α) : Prop where
  cursor : ∀ r, (x.observe r).state.cursor = r.cursor
  table : ∀ r, (x.observe r).state.scopes.withoutValues = r.scopes.withoutValues
  output : ∀ r lines, x.observe { r with output := lines } =
    { x.observe r with
      state := { (x.observe r).state with
        output := lines ++ (printedLines (x.observe r).events).toArray } }

namespace Orderly

variable {α β : Type}

theorem ofEval {y : EvalM α} (hy : Quiet y) : Orderly (.ofEval y) where
  cursor r := (hy r).1
  table r := (hy r).2.1
  output r lines := by
    rw [TraceM.observe_ofEval, TraceM.observe_ofEval, (hy r).2.2 lines]
    simp [printedLines]

theorem bind {x : TraceM α} {f : α → TraceM β} (hx : Orderly x) (hf : ∀ a, Orderly (f a)) :
    Orderly (x >>= f) where
  cursor r := by
    have hr := hx.cursor r
    rcases hobs : x.observe r with ⟨stop | a, r₁, events⟩
    · rw [TraceM.observe_bind_error hobs]
      rwa [hobs] at hr
    · rw [TraceM.observe_bind_ok hobs]
      rw [hobs] at hr
      exact ((hf a).cursor r₁).trans hr
  table r := by
    have hr := hx.table r
    rcases hobs : x.observe r with ⟨stop | a, r₁, events⟩
    · rw [TraceM.observe_bind_error hobs]
      rwa [hobs] at hr
    · rw [TraceM.observe_bind_ok hobs]
      rw [hobs] at hr
      exact ((hf a).table r₁).trans hr
  output r lines := by
    have hr := hx.output r lines
    rcases hobs : x.observe r with ⟨stop | a, r₁, events⟩
    · rw [hobs] at hr
      rw [TraceM.observe_bind_error hobs, TraceM.observe_bind_error hr]
    · rw [hobs] at hr
      rw [TraceM.observe_bind_ok hobs, TraceM.observe_bind_ok hr, (hf a).output r₁]
      simp [printedLines_append]

theorem print (value : Value) : Orderly (.print value) where
  cursor _ := rfl
  table _ := rfl
  output r lines := by
    have hobs (r : RunState) : (TraceM.print value).observe r =
        ⟨.ok (), { r with output := r.output.push value.text }, [.printed value]⟩ := rfl
    rw [hobs, hobs]
    simp [printedLines, Event.line?]

theorem started (line round : Nat) : Orderly (.record (.started line round)) where
  cursor _ := rfl
  table _ := rfl
  output r lines := by simp [printedLines, Event.line?]

theorem withCursor (c : Cursor) {x : TraceM α} (hx : Orderly x) : Orderly (.withCursor c x) where
  cursor _ := rfl
  table r := hx.table { r with cursor := c }
  output r lines :=
    congrArg (fun t : Traced α => { t with state := { t.state with cursor := r.cursor } })
      (hx.output { r with cursor := c } lines)

theorem withFreshVariables (method : MethodId) {x : TraceM α} (hx : Orderly x) :
    Orderly (.withFreshVariables method x) where
  cursor r := hx.cursor _
  table r := by
    have hinner := hx.table
      { r with scopes := r.scopes.clear (r.scopes.members (.method method)).vars }
    rw [ScopeTable.withoutValues_clear] at hinner
    exact (ScopeTable.withoutValues_restore _ _ _).trans hinner
  output r lines := by
    let owned := (r.scopes.members (.method method)).vars
    exact congrArg (fun t : Traced α =>
        { t with state := { t.state with scopes := t.state.scopes.restore r.scopes owned } })
      (hx.output { r with scopes := r.scopes.clear owned } lines)

theorem invoke (head : BodyHead) (arguments : List Value) {x : TraceM Unit} (hx : Orderly x) :
    Orderly (.invoke head arguments x) := by
  have hblock (frame : Cursor) := (ofEval (quiet_bindParameters frame head.patterns arguments)).bind
    fun _ => hx.withCursor frame
  exact (ofEval (quiet_table fun t => t.bodyCursor head.method)).bind fun frame =>
    (hblock frame).withFreshVariables head.method

theorem loop (limit : Option Nat) (line : Nat) {x : TraceM Bool} {x' : TraceM Unit}
    (hx : Orderly x) (hx' : Orderly x') (fuel rounds : Nat) :
    Orderly (.loop limit line x x' fuel rounds) := by
  induction fuel generalizing rounds with
  | zero => exact ofEval (quiet_throw _)
  | succ fuel ih =>
      have hround := (started line (rounds + 1)).bind fun _ => hx'.bind fun _ => ih (rounds + 1)
      apply hx.bind
      intro holds
      split
      · cases limit with
        | none => exact hround
        | some most =>
            dsimp only
            split
            · exact ofEval (quiet_throw _)
            · exact hround
      · exact ofEval (quiet_pure ())

end Orderly

namespace Interpretation

theorem orderly_traced (limit : Option Nat) (fuel : Nat) :
    Related (fun _ x _ => Orderly x) (traced limit fuel) (traced limit fuel) where
  pure a := .ofEval (quiet_pure a)
  bind := .bind
  fail _ := .ofEval (quiet_throw _)
  readName id := .ofEval (quiet_readName id)
  assign target value := .ofEval (quiet_assign target value)
  requireDeclared kind name := .ofEval (quiet_requireDeclared kind name)
  print := .print
  inClass _ := .withCursor _
  loop line := fun hx hx' => .loop limit line hx hx' fuel 0
  implementations method := .ofEval (quiet_table fun t => t.implementations method)
  invoke head arguments := .invoke head arguments

end Interpretation

theorem Executable.orderly_tracedCalls (p : Executable) (fuel : Nat) :
    Interpretation.RelatedCalls (fun _ x _ => Orderly x) (p.tracedCalls fuel)
      (p.tracedCalls fuel) :=
  Interpretation.related_calls (Interpretation.orderly_traced p.limit) (.ofEval (quiet_throw _))
    p.bodies fuel

end BlockLang
