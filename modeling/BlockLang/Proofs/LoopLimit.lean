/-
  BlockLang.Proofs.LoopLimit

  What a limit on the rounds of loops does to a run.

  A run under a limit follows the run without one up to the first round beyond the limit,
  counted for each execution of a loop on its own, and stops there.  The record of the
  unlimited run tells where that is, also when the unlimited run never ends.
-/
import BlockLang.Proofs.Eval.Fuel

namespace BlockLang

/-! ## Rounds are counted -/

/-- Something in the second of two lists of events has happened in the first part of the
    whole, or has all of that part before it. -/
theorem append_eq_append_cons {events events' before after : List Event} {event : Event}
    (h : events ++ events' = before ++ event :: after) :
    (∃ more, events = before ++ event :: more) ∨
      ∃ more, before = events ++ more ∧ events' = more ++ event :: after := by
  rcases List.append_eq_append_iff.mp h with ⟨more, hbefore, hrest⟩ | ⟨more, hfirst, hrest⟩
  · exact .inr ⟨more, hbefore, hrest⟩
  · rcases List.cons_eq_append_iff.mp hrest with ⟨rfl, hrest⟩ | ⟨more, rfl, -⟩
    · exact .inr ⟨[], by simpa using hfirst.symm, hrest.symm⟩
    · exact .inl ⟨more, hfirst⟩

/-- Where one thing happens, nothing else is found. -/
theorem eq_of_singleton_eq_append {event event' : Event} {before after : List Event}
    (h : [event] = before ++ event' :: after) : event' = event := by
  have hmem : event' ∈ before ++ event' :: after := List.mem_append_cons_self
  rw [← h] at hmem
  exact List.mem_singleton.mp hmem

/-- Whether every round of a loop but the first is recorded behind the one before it, when
    `past` has been recorded already. -/
def Counted (past : List Event) {α : Type} (x : TraceM α) : Prop :=
  ∀ r before line round after,
    (x.observe r).events = before ++ .started line (round + 2) :: after →
      .started line (round + 1) ∈ past ++ before

namespace Counted

variable {α β : Type} {past : List Event}

theorem ofEval (y : EvalM α) : Counted past (.ofEval y) := by
  intro r before line round after h
  exact absurd h.symm (by simp)

theorem mono {x : TraceM α} (hx : Counted [] x) : Counted past x := by
  intro r before line round after h
  exact List.mem_append_right past (hx r before line round after h)

theorem bind {x : TraceM α} {f : α → TraceM β} (hx : Counted past x)
    (hf : ∀ a, Counted past (f a)) : Counted past (x >>= f) := by
  intro r before line round after h
  rcases hobs : x.observe r with ⟨stop | a, r₁, events⟩
  · rw [TraceM.observe_bind_error hobs] at h
    exact hx r before line round after (hobs ▸ h)
  · rw [TraceM.observe_bind_ok hobs] at h
    rcases append_eq_append_cons h with ⟨more, hfirst⟩ | ⟨more, rfl, hsecond⟩
    · exact hx r before line round more (hobs ▸ hfirst)
    · have hmem := hf a r₁ more line round after hsecond
      simp only [List.mem_append] at hmem ⊢
      exact hmem.imp_right .inr

theorem print (value : Value) : Counted past (.print value) := by
  intro r before line round after h
  cases eq_of_singleton_eq_append h

theorem withCursor (c : Cursor) {x : TraceM α} (hx : Counted past x) :
    Counted past (.withCursor c x) := fun _ => hx _

theorem withFreshVariables (method : MethodId) {x : TraceM α} (hx : Counted past x) :
    Counted past (.withFreshVariables method x) := fun _ => hx _

theorem invoke (head : BodyHead) (arguments : List Value) {x : TraceM Unit}
    (hx : Counted past x) : Counted past (.invoke head arguments x) := by
  apply (ofEval _).bind
  intro frame
  apply withFreshVariables
  exact (ofEval _).bind fun _ => hx.withCursor frame

/-- A new round of a loop is recorded behind the one before it. -/
theorem started {line rounds : Nat} {x : TraceM α} (hx : Counted [.started line (rounds + 1)] x) :
    Counted [.started line rounds] (do TraceM.record (.started line (rounds + 1)); x) := by
  intro r before line' round after h
  rw [TraceM.observe_bind_ok (TraceM.observe_record _ r)] at h
  rcases List.cons_eq_append_iff.mp h with ⟨rfl, hhere⟩ | ⟨more, rfl, hlater⟩
  · obtain ⟨⟨rfl, rfl⟩, -⟩ : (line' = line ∧ round + 1 = rounds) ∧ _ := by simpa using hhere
    simp
  · have hmem := hx r more line' round after hlater
    exact List.mem_append_right _ hmem

theorem loop (limit : Option Nat) (line : Nat) {x : TraceM Bool} {x' : TraceM Unit}
    (hx : Counted [] x) (hx' : Counted [] x') (fuel rounds : Nat) :
    Counted [.started line rounds] (.loop limit line x x' fuel rounds) := by
  induction fuel generalizing rounds with
  | zero => exact ofEval _
  | succ fuel ih =>
      have hround := (hx'.mono.bind fun _ => ih (rounds + 1)).started
      apply hx.mono.bind
      intro holds
      split
      · cases limit with
        | none => exact hround
        | some most =>
            dsimp only
            split
            · exact ofEval _
            · exact hround
      · exact ofEval (pure ())

end Counted

namespace Interpretation

theorem counted_traced (limit : Option Nat) (fuel : Nat) :
    Related (fun _ x _ => Counted [] x) (traced limit fuel) (traced limit fuel) where
  pure a := .ofEval (pure a)
  bind := .bind
  fail _ := .ofEval _
  readName _ := .ofEval _
  assign _ _ := .ofEval _
  requireDeclared _ _ := .ofEval _
  print := .print
  inClass _ := .withCursor _
  loop line := fun hx hx' r before line' round after h => by
    -- No loop starts its body for the time number zero.
    have hmem := Counted.loop limit line hx hx' fuel 0 r before line' round after h
    simpa using hmem
  implementations _ := .ofEval _
  invoke head arguments := .invoke head arguments

end Interpretation

/-- The round of a loop before one that is recorded is recorded before it. -/
theorem Executable.counted_traced (p : Executable) (fuel : Nat) {before after : List Event}
    {line round : Nat}
    (h : (p.traced fuel).events = before ++ .started line (round + 2) :: after) :
    .started line (round + 1) ∈ before := by
  have hcalls := Interpretation.related_calls (Interpretation.counted_traced p.limit)
    (.ofEval _) p.bodies fuel
  exact (Interpretation.counted_traced p.limit fuel).items hcalls p.items p.initial before line
    round after h

/-! ## Runs under a limit -/

/-- Whether something may happen under a limit. -/
def Event.Within (most : Nat) : Event → Prop
  | printed _ => True
  | started _ round => round ≤ most

theorem Event.Within.mono {most more : Nat} (hmore : most ≤ more) {event : Event}
    (h : event.Within most) : event.Within more := by
  cases event with
  | printed value => trivial
  | started line round => exact Nat.le_trans h hmore

theorem Event.forall_within_iff {most : Nat} {events : List Event} :
    (∀ event ∈ events, event.Within most) ↔
      ∀ line round, .started line round ∈ events → round ≤ most := by
  constructor
  · intro h line round hmem
    exact h _ hmem
  · intro h event hevent
    cases event with
    | printed value => trivial
    | started line round => exact h line round hevent

/-- The computation `y` does under a limit what `x` does without one up to the first round
    beyond the limit, and stops there. -/
structure Cut (most : Nat) {α : Type} (x : TraceM α) (y : EvalM α) : Prop where
  orderly : Orderly x
  within : ∀ r, (∀ event ∈ (x.observe r).events, event.Within most) →
    y.outcome r = ((x.observe r).result, (x.observe r).state)
  beyond : ∀ r before line round after,
    (x.observe r).events = before ++ .started line round :: after →
    (∀ event ∈ before, event.Within most) → most < round →
      (y.outcome r).1 = .error (.error (.loopLimitExceeded most line)) ∧
        (y.outcome r).2.output = r.output ++ (printedLines before).toArray

namespace Cut

variable {α β : Type} {most : Nat}

theorem ofEval {y : EvalM α} (hy : Quiet y) : Cut most (.ofEval y) y where
  orderly := .ofEval hy
  within _ _ := rfl
  beyond r before line round after h := absurd h.symm (by simp)

theorem bind {x : TraceM α} {y : EvalM α} {f : α → TraceM β} {g : α → EvalM β}
    (hx : Cut most x y) (hf : ∀ a, Cut most (f a) (g a)) : Cut most (x >>= f) (y >>= g) where
  orderly := hx.orderly.bind fun a => (hf a).orderly
  within r hall := by
    have hfirst := hx.within r
    rcases hobs : x.observe r with ⟨stop | a, r₁, events⟩
    · rw [hobs] at hfirst
      rw [TraceM.observe_bind_error hobs] at hall ⊢
      rw [EvalM.outcome_bind, hfirst hall]
    · rw [hobs] at hfirst
      rw [TraceM.observe_bind_ok hobs] at hall ⊢
      have hok := hfirst fun event hevent => hall event (List.mem_append_left _ hevent)
      rw [EvalM.outcome_bind_of_ok hok]
      exact (hf a).within r₁ fun event hevent => hall event (List.mem_append_right _ hevent)
  beyond r before line round after h hbefore hround := by
    -- If the first computation goes beyond the limit, nothing of the second one is left.
    have hstops (more : List Event)
        (hmore : (x.observe r).events = before ++ .started line round :: more) :
        ((y >>= g).outcome r).1 = .error (.error (.loopLimitExceeded most line)) ∧
          ((y >>= g).outcome r).2.output = r.output ++ (printedLines before).toArray := by
      obtain ⟨hresult, houtput⟩ := hx.beyond r before line round more hmore hbefore hround
      rw [EvalM.outcome_bind_of_error hresult]
      exact ⟨rfl, houtput⟩
    have hfirst := hx.within r
    have hlines := congrArg (·.state.output) (hx.orderly.output r r.output)
    rcases hobs : x.observe r with ⟨stop | a, r₁, events⟩
    · rw [TraceM.observe_bind_error hobs] at h
      exact hstops after (hobs ▸ h)
    · rw [TraceM.observe_bind_ok hobs] at h
      rcases append_eq_append_cons h with ⟨more, hhere⟩ | ⟨more, rfl, hlater⟩
      · exact hstops more (hobs ▸ hhere)
      · -- The first computation keeps to the limit, so `y` does the same.
        rw [hobs] at hfirst hlines
        have hok := hfirst fun event hevent => hbefore event (List.mem_append_left _ hevent)
        have hrest := (hf a).beyond r₁ more line round after hlater
          (fun event hevent => hbefore event (List.mem_append_right _ hevent)) hround
        have hr₁ : r₁.output = r.output ++ (printedLines events).toArray := hlines
        have hprinted : r.output ++ (printedLines (events ++ more)).toArray =
            r₁.output ++ (printedLines more).toArray := by
          rw [hr₁, printedLines_append, Array.append_assoc,
            List.append_toArray (printedLines events)]
        rw [EvalM.outcome_bind_of_ok hok, hprinted]
        exact hrest

theorem print (value : Value) : Cut most (.print value) (EvalM.print value.text) where
  orderly := .print value
  within _ _ := rfl
  beyond r before line round after h := by
    cases eq_of_singleton_eq_append h

theorem withCursor (c : Cursor) {x : TraceM α} {y : EvalM α} (hx : Cut most x y) :
    Cut most (.withCursor c x) (EvalM.withCursor c y) where
  orderly := hx.orderly.withCursor c
  within r hall := by
    rw [EvalM.outcome_withCursor, hx.within { r with cursor := c } hall]
    rfl
  beyond r before line round after h := by
    rw [EvalM.outcome_withCursor]
    exact hx.beyond { r with cursor := c } before line round after h

theorem withFreshVariables (method : MethodId) {x : TraceM α} {y : EvalM α} (hx : Cut most x y) :
    Cut most (.withFreshVariables method x) (EvalM.withFreshVariables method y) where
  orderly := hx.orderly.withFreshVariables method
  within r hall := by
    rw [EvalM.outcome_withFreshVariables]
    dsimp only
    rw [hx.within _ hall]
    rfl
  beyond r before line round after h := by
    rw [EvalM.outcome_withFreshVariables]
    exact hx.beyond _ before line round after h

theorem invoke (head : BodyHead) (arguments : List Value) {x : TraceM Unit} {y : EvalM Unit}
    (hx : Cut most x y) :
    Cut most (.invoke head arguments x) (EvalM.invoke head arguments y) := by
  have hblock (frame : Cursor) : Cut most _ _ :=
    (ofEval (quiet_bindParameters frame head.patterns arguments)).bind fun _ =>
      hx.withCursor frame
  exact (ofEval (quiet_table fun t => t.bodyCursor head.method)).bind fun frame =>
    (hblock frame).withFreshVariables head.method

/-- A round within the limit. -/
theorem started {line round : Nat} (hround : round ≤ most) {x : TraceM α} {y : EvalM α}
    (hx : Cut most x y) : Cut most (do TraceM.record (.started line round); x) y := by
  have hrecord : Cut most (.record (.started line round)) (pure () : EvalM Unit) :=
    { orderly := .started line round
      within := fun _ _ => rfl
      beyond := by
        intro r before line' round' after h _ hbeyond
        cases eq_of_singleton_eq_append h
        exact absurd hround (Nat.not_le_of_lt hbeyond) }
  exact hrecord.bind fun _ => hx

/-- A round beyond the limit. -/
theorem exceeded {line round : Nat} (hround : most < round) {x : TraceM α} (hx : Orderly x) :
    Cut most (do TraceM.record (.started line round); x)
      (EvalM.fail (.loopLimitExceeded most line)) where
  orderly := (Orderly.started line round).bind fun _ => hx
  within r hall := by
    rw [TraceM.observe_bind_ok (TraceM.observe_record _ r)] at hall
    exact absurd (hall _ List.mem_cons_self) (Nat.not_le_of_lt hround)
  beyond r before line' round' after h hbefore _ := by
    rw [TraceM.observe_bind_ok (TraceM.observe_record _ r)] at h
    rcases List.cons_eq_append_iff.mp h with ⟨rfl, hhere⟩ | ⟨more, rfl, -⟩
    · cases hhere
      exact ⟨rfl, (Array.append_empty).symm⟩
    · exact absurd (hbefore _ List.mem_cons_self) (Nat.not_le_of_lt hround)

theorem loop (line : Nat) {x : TraceM Bool} {y : EvalM Bool} {x' : TraceM Unit}
    {y' : EvalM Unit} (hx : Cut most x y) (hx' : Cut most x' y') (fuel rounds : Nat) :
    Cut most (.loop none line x x' fuel rounds) (EvalM.loop (some most) line y y' fuel rounds) := by
  induction fuel generalizing rounds with
  | zero => exact ofEval (quiet_throw _)
  | succ fuel ih =>
      have hrest := hx'.bind fun _ => ih (rounds + 1)
      apply hx.bind
      intro holds
      split
      · dsimp only
        by_cases hrounds : most ≤ rounds
        · rw [if_pos hrounds]
          exact exceeded (Nat.lt_succ_of_le hrounds) hrest.orderly
        · rw [if_neg hrounds]
          exact hrest.started (Nat.lt_of_not_le hrounds)
      · exact ofEval (quiet_pure ())

end Cut

namespace Interpretation

theorem cut_traced (most fuel : Nat) :
    Related (fun _ => Cut most) (traced none fuel) (plain (some most) fuel) where
  pure a := .ofEval (quiet_pure a)
  bind := .bind
  fail _ := .ofEval (quiet_throw _)
  readName id := .ofEval (quiet_readName id)
  assign target value := .ofEval (quiet_assign target value)
  requireDeclared kind name := .ofEval (quiet_requireDeclared kind name)
  print := .print
  inClass _ := .withCursor _
  loop line := fun hx hx' => .loop line hx hx' fuel 0
  implementations method := .ofEval (quiet_table fun t => t.implementations method)
  invoke head arguments := .invoke head arguments

end Interpretation

/-- Either all that happens may happen under a limit, or there is a first round beyond it. -/
theorem within_or_exists_first (most : Nat) (events : List Event) :
    (∀ event ∈ events, event.Within most) ∨
      ∃ before line round after, events = before ++ .started line round :: after ∧
        (∀ event ∈ before, event.Within most) ∧ most < round := by
  induction events with
  | nil => exact .inl nofun
  | cons event events ih =>
      have hcons (hevent : event.Within most) :
          (∀ e ∈ event :: events, e.Within most) ∨
            ∃ before line round after,
              event :: events = before ++ .started line round :: after ∧
                (∀ e ∈ before, e.Within most) ∧ most < round := by
        rcases ih with hall | ⟨before, line, round, after, rfl, hbefore, hround⟩
        · exact .inl (List.forall_mem_cons.mpr ⟨hevent, hall⟩)
        · exact .inr ⟨event :: before, line, round, after, rfl,
            List.forall_mem_cons.mpr ⟨hevent, hbefore⟩, hround⟩
      cases event with
      | printed value => exact hcons trivial
      | started line round =>
          by_cases hround : round ≤ most
          · exact hcons hround
          · exact .inr ⟨[], line, round, events, rfl, nofun, Nat.lt_of_not_le hround⟩

namespace Executable

/-- The same program with another limit on the rounds of loops. -/
def under (x : Executable) (limit : Option Nat) : Executable := { x with limit := limit }

/-- The first round beyond a limit is the one right behind it. -/
theorem within_or_exists_next (x : Executable) (most fuel : Nat) :
    (∀ event ∈ (x.traced fuel).events, event.Within most) ∨
      ∃ before line after,
        (x.traced fuel).events = before ++ .started line (most + 1) :: after ∧
          ∀ event ∈ before, event.Within most := by
  rcases within_or_exists_first most (x.traced fuel).events with
    hall | ⟨before, line, round, after, hevents, hbefore, hround⟩
  · exact .inl hall
  · by_cases hnext : round = most + 1
    · subst hnext
      exact .inr ⟨before, line, after, hevents, hbefore⟩
    · -- The round before this one would be beyond the limit already.
      obtain ⟨k, rfl⟩ : ∃ k, round = k + 2 := ⟨round - 2, by omega⟩
      have hearlier : k + 1 ≤ most := hbefore _ (x.counted_traced fuel hevents)
      omega

/-- What happens before the first round behind a limit may happen under it. -/
theorem within_of_first (x : Executable) {most fuel line : Nat} {before after : List Event}
    (hevents : (x.traced fuel).events = before ++ .started line (most + 1) :: after)
    (hfirst : ∀ line', .started line' (most + 1) ∉ before) :
    ∀ event ∈ before, event.Within most := by
  rcases x.within_or_exists_next most fuel with hall | ⟨front, line', rest, hfront, hwithin⟩
  · have hmem : .started line (most + 1) ∈ (x.traced fuel).events :=
      hevents ▸ List.mem_append_cons_self
    exact absurd (hall _ hmem) (Nat.not_succ_le_self most)
  · -- Neither of the two rounds comes before the other one.
    rcases append_eq_append_cons (hfront.symm.trans hevents) with ⟨more, rfl⟩ | ⟨more, rfl, hmore⟩
    · exact absurd (hwithin (.started line (most + 1)) (by simp)) (Nat.not_succ_le_self most)
    · rcases List.cons_eq_append_iff.mp hmore with ⟨rfl, -⟩ | ⟨more, rfl, -⟩
      · simpa using hwithin
      · exact absurd (by simp) (hfirst line')

section Unlimited

variable {x : Executable} (hx : x.limit = none) {most fuel : Nat}
include hx

theorem cut_under :
    Cut most ((Interpretation.traced x.limit fuel).items (x.tracedCalls fuel) x.items)
      (execItems (some most) fuel ((x.under (some most)).dispatch fuel) x.items) := by
  have hcalls := Interpretation.related_calls (Interpretation.cut_traced most)
    (.ofEval (quiet_throw _)) x.bodies fuel
  have hitems := (Interpretation.cut_traced most fuel).items hcalls x.items
  rw [Interpretation.plain_items] at hitems
  rw [tracedCalls, hx, ← Interpretation.plain_calls]
  exact hitems

/-- A run that keeps to a limit is the run under it. -/
theorem outcome_under_of_within (h : ∀ event ∈ (x.traced fuel).events, event.Within most) :
    (x.under (some most)).outcome fuel = x.outcome fuel := by
  have hrun : (x.under (some most)).run fuel = x.run fuel := by
    rw [x.run_eq_traced]
    exact (cut_under hx).within x.initial h
  rw [outcome_eq_run, outcome_eq_run, hrun]

/-- A run that does not keep to a limit stops under it at the first round beyond. -/
theorem outcome_under_of_beyond {before after : List Event} {line : Nat}
    (h : (x.traced fuel).events = before ++ .started line (most + 1) :: after)
    (hbefore : ∀ event ∈ before, event.Within most) :
    (x.under (some most)).outcome fuel =
      .failed (.loopLimitExceeded most line) ("\n".intercalate (printedLines before)) := by
  obtain ⟨hresult, houtput⟩ := (cut_under hx).beyond x.initial before line (most + 1) after h
    hbefore (Nat.lt_succ_self most)
  have hresult : ((x.under (some most)).run fuel).1 =
      .error (.error (.loopLimitExceeded most line)) := hresult
  have houtput : ((x.under (some most)).run fuel).2.output =
      #[] ++ (printedLines before).toArray := houtput
  rw [outcome_eq_run, hresult, houtput, Array.empty_append]
  rfl

end Unlimited

end Executable

theorem Parsed.prepare?_under {p : Parsed} {limit : Option Nat} {x : Executable}
    (h : p.prepare? limit = some x) :
    x.limit = limit ∧ ∀ limit', p.prepare? limit' = some (x.under limit') := by
  obtain ⟨bodies, hbodies, rfl⟩ := Option.map_eq_some_iff.mp h
  refine ⟨rfl, fun limit' => ?_⟩
  rw [prepare?, hbodies]
  rfl

/-! ## A loop inside a loop -/

/-- The counters `i` and `j` start from zero; the loop over `i` at line 4 has two rounds,
    and in each of them the loop over `j` at line 6 has `i + 2` rounds and prints `j`. -/
def growingItems : List Item :=
  let less (x : String) (line : Nat) (e : Expr) : Expr :=
    .binary .comparison (.name ⟨x, line⟩) ⟨.less, "<", line⟩ e
  let plus (x : String) (line : Nat) (n : Int64) : Expr :=
    .binary .addition (.name ⟨x, line⟩) ⟨.plus, "+", line⟩ (.literal (.integer n))
  [ .varDecl ⟨"i", 1⟩ "Int",
    .varDecl ⟨"j", 2⟩ "Int",
    .assign ⟨"i", 3⟩ (.literal (.integer 0)),
    .whileLoop (less "i" 4 (.literal (.integer 2)))
      [ .assign ⟨"j", 5⟩ (.literal (.integer 0)),
        .whileLoop (less "j" 6 (plus "i" 6 2))
          [ .call ⟨⟨"print", 7⟩, .builtin .print⟩ [.name ⟨"j", 7⟩],
            .assign ⟨"j", 8⟩ (plus "j" 8 1) ] 6,
        .assign ⟨"i", 10⟩ (plus "i" 10 1) ] 4 ]

/-- The table of `growingItems`. -/
def growingTable : ScopeTable where
  vars := #[⟨"i", none, none, none⟩, ⟨"j", none, none, none⟩]
  global := { vars := [0, 1] }

/-- `growingItems` ready to run. -/
def growingProgram : Executable := ⟨growingItems, growingTable, #[], none⟩

/-! ## The limit only cuts off -/

/-- A limit on the rounds of loops only cuts off, and cuts off exactly.  The record of the
    run without a limit describes that run, for every amount of fuel.  Where no execution of
    a loop starts more rounds than the limit allows, the run under the limit is the same.
    Where some execution starts one more, the run under the limit fails at the first such
    start, with the limit, the line of that loop and the lines printed so far.  So a run
    that does not fail in this way is the same under every larger limit and without one. -/
theorem loop_limit_cuts_exactly {p : Parsed} {x : Executable} (hx : p.prepare? none = some x)
    (most : Nat) :
    ∃ y, p.prepare? (some most) = some y ∧
      (∀ fuel, x.run fuel = ((x.traced fuel).result, (x.traced fuel).state) ∧
        (x.traced fuel).state.output.toList = printedLines (x.traced fuel).events) ∧
      (∀ fuel, (∀ line round, .started line round ∈ (x.traced fuel).events → round ≤ most) →
        y.outcome fuel = x.outcome fuel) ∧
      (∀ fuel before line after,
        (x.traced fuel).events = before ++ .started line (most + 1) :: after →
        (∀ line', .started line' (most + 1) ∉ before) →
          y.outcome fuel =
            .failed (.loopLimitExceeded most line) ("\n".intercalate (printedLines before))) ∧
      ∀ fuel, (∀ line output, y.outcome fuel ≠ .failed (.loopLimitExceeded most line) output) →
        x.outcome fuel = y.outcome fuel ∧
          ∀ more z, most ≤ more → p.prepare? (some more) = some z →
            z.outcome fuel = y.outcome fuel := by
  obtain ⟨hnone, hunder⟩ := Parsed.prepare?_under hx
  refine ⟨x.under (some most), hunder _, fun fuel => ⟨x.run_eq_traced fuel, x.output_traced fuel⟩,
    fun fuel hall => ?_, fun fuel before line after hevents hfirst => ?_, fun fuel hends => ?_⟩
  · exact Executable.outcome_under_of_within hnone (Event.forall_within_iff.mpr hall)
  · exact Executable.outcome_under_of_beyond hnone hevents (x.within_of_first hevents hfirst)
  -- A run that goes beyond the limit would fail under it.
  · rcases x.within_or_exists_next most fuel with
      hall | ⟨before, first, after, hevents, hbefore⟩
    · have hsame {more : Nat} (hmore : most ≤ more) :
          (x.under (some more)).outcome fuel = x.outcome fuel :=
        Executable.outcome_under_of_within hnone fun event hevent =>
          (hall event hevent).mono hmore
      have hmost := hsame (Nat.le_refl most)
      refine ⟨hmost.symm, fun more z hmore hz => ?_⟩
      obtain rfl : x.under (some more) = z := Option.some.inj ((hunder _).symm.trans hz)
      rw [hsame hmore, hmost]
    · exact absurd (Executable.outcome_under_of_beyond hnone hevents hbefore) (hends _ _)

theorem growing_loop_cut_at_two :
    (Parsed.mk growingItems growingTable).prepare? none = some growingProgram ∧
      growingProgram.outcome 4 = .finished "0\n1\n0\n1\n2" ∧
      ∃ y, (Parsed.mk growingItems growingTable).prepare? (some 2) = some y ∧
        y.outcome 4 = .failed (.loopLimitExceeded 2 6) "0\n1\n0\n1" := by
  have hprepare : (Parsed.mk growingItems growingTable).prepare? none = some growingProgram := rfl
  -- The inner loop comes to a third round when it is entered a second time.
  have hevents : (growingProgram.traced 4).events =
      [.started 4 1, .started 6 1, .printed (.integer 0), .started 6 2, .printed (.integer 1),
        .started 4 2, .started 6 1, .printed (.integer 0), .started 6 2, .printed (.integer 1)] ++
      .started 6 3 :: [.printed (.integer 2)] := rfl
  obtain ⟨y, hy, -, -, hcut, -⟩ := loop_limit_cuts_exactly hprepare 2
  have houtcome := hcut 4 _ 6 _ hevents (by simp)
  exact ⟨hprepare, rfl, y, hy, houtcome.trans rfl⟩

end BlockLang
