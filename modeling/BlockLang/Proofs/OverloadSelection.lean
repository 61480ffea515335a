/-
  BlockLang.Proofs.OverloadSelection

  Choosing a body of a method by its patterns.

  The patterns of accepted programs are names and constants, and constants evaluate alike in
  every state.  So choosing a body changes nothing, and which one is chosen follows from the
  arguments and the bodies alone: the first one that takes the arguments, unless a constant
  without a value is reached in front of it (`Selects`).
-/
import BlockLang.Proofs.Eval.Stateless
import BlockLang.Proofs.RunSafety

namespace BlockLang

/-! ## Constants -/

/-- What can be wrong with a constant: a sign in front of a value that it does not take, or a
    number that does not fit. -/
inductive ConstantFault : EvalError → Prop where
  | illTyped (operator operand : String) (line : Nat) :
      ConstantFault (.invalidOperand operator operand line)
  | overflow (operator : String) (line : Nat) : ConstantFault (.integerOverflow operator line)

theorem ConstantFault.of_exactInteger {op : Operator} {n : Int} {cause : EvalError}
    (h : exactInteger op n = .error cause) : ConstantFault cause := by
  unfold exactInteger at h
  split at h
  · cases h
  · cases h
    exact .overflow op.lexeme op.line

theorem ConstantFault.of_applyUnary {op : Operator} {v : Value} {cause : EvalError}
    (hop : op.kind = .bang ∨ op.kind = .minus) (h : applyUnary op v = .error cause) :
    ConstantFault cause := by
  unfold applyUnary at h
  rcases hop with hop | hop
  · simp only [hop] at h
    split at h
    · cases h
    · cases h
      exact .illTyped ..
  · simp only [hop] at h
    split at h
    · exact .of_exactInteger h
    · cases h
    · cases h
      exact .illTyped ..

/-- An expression evaluates to a value or to such a fault, whatever the state. -/
inductive EvaluatesAsConstant (e : Expr) : Prop where
  | value {v : Value} : e.Evaluates (.ok v) → EvaluatesAsConstant e
  | fault {cause : EvalError} : ConstantFault cause → e.Evaluates (.error cause) →
      EvaluatesAsConstant e

theorem EvaluatesAsConstant.unary {op : Operator} {e : Expr} (h : EvaluatesAsConstant e)
    (hop : op.kind = .bang ∨ op.kind = .minus) : EvaluatesAsConstant (.unary op e) := by
  cases h with
  | fault hfault hcause => exact .fault hfault (hcause.unary_error op)
  | @value v hv =>
      have heval := hv.unary op
      cases hresult : applyUnary op v with
      | ok w => exact .value (hresult ▸ heval)
      | error cause => exact .fault (.of_applyUnary hop hresult) (hresult ▸ heval)

theorem Expr.evaluatesAsConstant {t : ScopeTable} {c : Cursor} {e : Expr}
    (hconst : e.isConstant) (h : (Phrase.expr e).Scoped t c) : EvaluatesAsConstant e := by
  cases e with
  | literal v => exact .value (.literal v)
  | grouping e =>
      cases evaluatesAsConstant (e := e) hconst (h.part List.mem_cons_self) with
      | value hv => exact .value hv.grouping
      | fault hfault hcause => exact .fault hfault hcause.grouping
  | unary op e =>
      have he := evaluatesAsConstant (e := e) hconst (h.part List.mem_cons_self)
      exact he.unary h.fits
  | _ => exact absurd hconst Bool.false_ne_true

/-! ## Patterns -/

/-- Whether a pattern accepts an argument: a name accepts every one, and a constant those that
    its value equals. -/
inductive Pattern.Accepts : Pattern → Value → Prop where
  | binding (name : Ident) (v : Value) : Accepts (.binding name) v
  | value {e : Expr} {w v : Value} : e.Evaluates (.ok w) → w.equals v → Accepts (.value e) v

/-- Patterns reach a constant with a fault: those in front of it accept their arguments. -/
inductive PatternsFail : List Pattern → List Value → EvalError → Prop where
  | here {e : Expr} {ps : List Pattern} {v : Value} {vs : List Value} {cause : EvalError} :
      ConstantFault cause → e.Evaluates (.error cause) →
        PatternsFail (.value e :: ps) (v :: vs) cause
  | later {p : Pattern} {ps : List Pattern} {v : Value} {vs : List Value} {cause : EvalError} :
      p.Accepts v → PatternsFail ps vs cause → PatternsFail (p :: ps) (v :: vs) cause

theorem PatternsFail.not_forall₂ {ps : List Pattern} {vs : List Value} {cause : EvalError}
    (h : PatternsFail ps vs cause) : ¬List.Forall₂ Pattern.Accepts ps vs := by
  intro haccept
  induction h with
  | here _ herror =>
      cases haccept with
      | cons hp _ =>
          cases hp with
          | value hok _ => cases hok.unique herror
  | later _ _ ih =>
      cases haccept with
      | cons _ hps => exact ih hps

/-- Whether patterns accept arguments, refuse them, or reach a fault. -/
inductive Judged (ps : List Pattern) (vs : List Value) : Except EvalError Bool → Prop where
  | accept : List.Forall₂ Pattern.Accepts ps vs → Judged ps vs (.ok true)
  | refuse : ¬List.Forall₂ Pattern.Accepts ps vs → (∀ cause, ¬PatternsFail ps vs cause) →
      Judged ps vs (.ok false)
  | fail {cause : EvalError} : PatternsFail ps vs cause → Judged ps vs (.error cause)

namespace Judged

variable {p : Pattern} {ps : List Pattern} {v : Value} {vs : List Value}

/-- A pattern that accepts its argument leaves the judgement to those behind it. -/
theorem cons {verdict : Except EvalError Bool} (hp : p.Accepts v) (h : Judged ps vs verdict) :
    Judged (p :: ps) (v :: vs) verdict := by
  cases h with
  | accept hps => exact .accept (.cons hp hps)
  | fail hps => exact .fail (.later hp hps)
  | refuse hno hfail =>
      refine .refuse (fun haccept => ?_) fun cause hcause => ?_
      · cases haccept with
        | cons _ hps => exact hno hps
      · cases hcause with
        | here _ herror =>
            cases hp with
            | value hok _ => cases hok.unique herror
        | later _ hps => exact hfail cause hps

/-- A constant that differs from its argument refuses it. -/
theorem differs {e : Expr} {w : Value} (hw : e.Evaluates (.ok w)) (hne : ¬w.equals v) :
    Judged (.value e :: ps) (v :: vs) (.ok false) := by
  have hno : ¬(Pattern.value e).Accepts v := by
    intro haccept
    cases haccept with
    | value hw' heq =>
        cases hw.unique hw'
        exact hne heq
  refine .refuse (fun haccept => ?_) fun cause hcause => ?_
  · cases haccept with
    | cons hp _ => exact hno hp
  · cases hcause with
    | here _ herror => cases hw.unique herror
    | later hp _ => exact hno hp

end Judged

/-- Patterns are tried without regard to the state. -/
theorem exists_judged {ps : List Pattern} (hps : ∀ e, .value e ∈ ps → EvaluatesAsConstant e)
    {vs : List Value} (hlength : ps.length = vs.length) :
    ∃ verdict, (∀ dispatch, (patternsAccept dispatch ps vs).Always verdict) ∧
      Judged ps vs verdict := by
  induction ps generalizing vs with
  | nil =>
      obtain rfl : vs = [] := List.length_eq_zero_iff.mp hlength.symm
      exact ⟨.ok true, fun _ => .pure true, .accept .nil⟩
  | cons p ps ih =>
      obtain ⟨v, vs, rfl⟩ := List.exists_cons_of_length_eq_add_one hlength.symm
      obtain ⟨verdict, hverdict, hjudged⟩ := ih (fun e he => hps e (List.mem_cons_of_mem p he))
        (Nat.succ.inj hlength)
      cases p with
      | binding name => exact ⟨verdict, hverdict, .cons (.binding name v) hjudged⟩
      | value e =>
          cases hps e List.mem_cons_self with
          | @value w hw =>
              by_cases heq : w.equals v
              · refine ⟨verdict, fun d => (hw d).bind ?_, .cons (.value hw heq) hjudged⟩
                rw [if_pos heq]
                exact hverdict d
              · refine ⟨.ok false, fun d => (hw d).bind ?_, .differs hw heq⟩
                rw [if_neg heq]
                exact .pure false
          | fault hfault hcause =>
              exact ⟨_, fun d => (hcause d).bind_error, .fail (.here hfault hcause)⟩

/-! ## Bodies -/

/-- Whether a body takes arguments: it has a pattern for each of them that accepts it. -/
def MethodBody.Takes (b : MethodBody) (arguments : List Value) : Prop :=
  List.Forall₂ Pattern.Accepts b.head.patterns arguments

/-- Whether a body has as many patterns as there are arguments, and they reach a fault. -/
def MethodBody.Fails (b : MethodBody) (arguments : List Value) (cause : EvalError) : Prop :=
  b.head.patterns.length = arguments.length ∧ PatternsFail b.head.patterns arguments cause

theorem MethodBody.Fails.not_takes {b : MethodBody} {arguments : List Value} {cause : EvalError}
    (h : b.Fails arguments cause) : ¬b.Takes arguments := h.2.not_forall₂

/-- One of some bodies satisfies `P`, and none in front of it satisfies `Q`. -/
def Reaches (P Q : MethodBody → Prop) (bodies : List MethodBody) (b : MethodBody) : Prop :=
  ∃ before behind, bodies = before ++ b :: behind ∧ P b ∧ ∀ b' ∈ before, ¬Q b'

/-- The body is the first of some bodies to take the arguments. -/
def FirstToTake (bodies : List MethodBody) (arguments : List Value) (b : MethodBody) : Prop :=
  Reaches (·.Takes arguments) (·.Takes arguments) bodies b

/-- One of some bodies reaches a fault, and no body in front of it takes the arguments. -/
def Blocked (bodies : List MethodBody) (arguments : List Value) : Prop :=
  ∃ b cause, Reaches (·.Fails arguments cause) (·.Takes arguments) bodies b

theorem not_reaches_nil {P Q : MethodBody → Prop} (b : MethodBody) : ¬Reaches P Q [] b := by
  rintro ⟨before, behind, hsplit, -⟩
  simp at hsplit

/-- A body is reached at once, or behind one that does not stop the search. -/
theorem reaches_cons {P Q : MethodBody → Prop} {bodies : List MethodBody} {a b : MethodBody} :
    Reaches P Q (a :: bodies) b ↔ P a ∧ b = a ∨ ¬Q a ∧ Reaches P Q bodies b := by
  constructor
  · rintro ⟨before, behind, hsplit, hb, hbefore⟩
    cases before with
    | nil =>
        obtain ⟨rfl, rfl⟩ := List.cons.inj hsplit
        exact .inl ⟨hb, rfl⟩
    | cons a' before =>
        obtain ⟨rfl, rfl⟩ := List.cons.inj hsplit
        obtain ⟨ha, hbefore⟩ := List.forall_mem_cons.mp hbefore
        exact .inr ⟨ha, before, behind, rfl, hb, hbefore⟩
  · rintro (⟨hb, rfl⟩ | ⟨ha, before, behind, rfl, hb, hbefore⟩)
    · exact ⟨[], bodies, rfl, hb, List.forall_mem_nil _⟩
    · exact ⟨a :: before, behind, rfl, hb, List.forall_mem_cons.mpr ⟨ha, hbefore⟩⟩

/-- The result of choosing among bodies is the first match. -/
structure Selects (bodies : List MethodBody) (arguments : List Value)
    (result : Except EvalError (Option MethodBody)) : Prop where
  some_iff : ∀ b, result = .ok (some b) ↔
    ¬Blocked bodies arguments ∧ FirstToTake bodies arguments b
  none_iff : result = .ok none ↔
    ¬Blocked bodies arguments ∧ ∀ b ∈ bodies, ¬b.Takes arguments
  error_iff : (∃ cause, result = .error cause) ↔ Blocked bodies arguments
  /-- The error is that of the first fault which is reached. -/
  first_fault : ∀ cause, result = .error cause →
    ∃ b, Reaches (·.Fails arguments cause)
      (fun b' => b'.Takes arguments ∨ ∃ cause', b'.Fails arguments cause') bodies b

namespace Selects

variable {b : MethodBody} {bodies : List MethodBody} {arguments : List Value}

theorem nil : Selects [] arguments (.ok none) := by
  have hblocked : ¬Blocked [] arguments := by
    rintro ⟨b, cause, hreaches⟩
    exact not_reaches_nil b hreaches
  constructor
  · simp [FirstToTake, not_reaches_nil]
  · simp [hblocked]
  · simp [hblocked]
  · simp

theorem taken (h : b.Takes arguments) : Selects (b :: bodies) arguments (.ok (some b)) := by
  have hblocked : ¬Blocked (b :: bodies) arguments := by
    rintro ⟨b', cause, hreaches⟩
    rcases reaches_cons.mp hreaches with ⟨hfails, -⟩ | ⟨hno, -⟩
    · exact hfails.not_takes h
    · exact hno h
  constructor
  · intro b'
    simp [hblocked, FirstToTake, reaches_cons, h, eq_comm]
  · simp [h]
  · simp [hblocked]
  · simp

theorem failed {cause : EvalError} (h : b.Fails arguments cause) :
    Selects (b :: bodies) arguments (.error cause) := by
  have hblocked : Blocked (b :: bodies) arguments :=
    ⟨b, cause, reaches_cons.mpr (.inl ⟨h, rfl⟩)⟩
  constructor
  · simp [hblocked]
  · simp [hblocked]
  · simp [hblocked]
  · intro cause' hcause'
    cases hcause'
    exact ⟨b, reaches_cons.mpr (.inl ⟨h, rfl⟩)⟩

/-- A body that refuses the arguments leaves the choice to those behind it. -/
theorem refused {result : Except EvalError (Option MethodBody)} (hno : ¬b.Takes arguments)
    (hfail : ∀ cause, ¬b.Fails arguments cause) (h : Selects bodies arguments result) :
    Selects (b :: bodies) arguments result := by
  have hblocked : Blocked (b :: bodies) arguments ↔ Blocked bodies arguments := by
    simp [Blocked, reaches_cons, hno, hfail]
  constructor
  · intro b'
    rw [h.some_iff, hblocked, FirstToTake, FirstToTake, reaches_cons]
    simp [hno]
  · rw [h.none_iff, hblocked]
    simp [hno]
  · rw [h.error_iff, hblocked]
  · intro cause hcause
    obtain ⟨b', hreaches⟩ := h.first_fault cause hcause
    refine ⟨b', reaches_cons.mpr (.inr ⟨?_, hreaches⟩)⟩
    rintro (htakes | ⟨cause', hfails⟩)
    · exact hno htakes
    · exact hfail cause' hfails

end Selects

/-! ## Choosing -/

/-- Choosing among bodies whose patterns are names and constants is first match, without regard
    to the state. -/
theorem exists_selects {bodies : Array MethodBody} {ids : List BodyId}
    (hconst : ∀ b ∈ ids.filterMap (bodies[·]?), ∀ e, .value e ∈ b.head.patterns →
      EvaluatesAsConstant e) (arguments : List Value) :
    ∃ result, (∀ dispatch, (selectBody bodies dispatch arguments ids).Always result) ∧
      Selects (ids.filterMap (bodies[·]?)) arguments result := by
  induction ids with
  | nil => exact ⟨.ok none, fun _ => .pure none, .nil⟩
  | cons id ids ih =>
      cases hb : bodies[id]? with
      | none =>
          have hskip (d : Dispatch) :
              selectBody bodies d arguments (id :: ids) = selectBody bodies d arguments ids := by
            rw [selectBody, hb]
          rw [List.filterMap_cons_none hb] at hconst ⊢
          simp only [hskip]
          exact ih hconst
      | some b =>
          have htry (d : Dispatch) : selectBody bodies d arguments (id :: ids) =
              if b.head.patterns.length = arguments.length then do
                if ← patternsAccept d b.head.patterns arguments then
                  return some b
                else
                  selectBody bodies d arguments ids
              else selectBody bodies d arguments ids := by
            rw [selectBody, hb]
          rw [List.filterMap_cons_some hb] at hconst ⊢
          obtain ⟨hhead, hrest⟩ := List.forall_mem_cons.mp hconst
          obtain ⟨result, hresult, hselects⟩ := ih hrest
          -- The patterns of a body are looked at only if it takes as many arguments.
          by_cases hlength : b.head.patterns.length = arguments.length
          · simp only [htry, if_pos hlength]
            obtain ⟨verdict, hverdict, hjudged⟩ := exists_judged hhead hlength
            cases hjudged with
            | accept htakes =>
                exact ⟨_, fun d => (hverdict d).bind (.pure (some b)), .taken htakes⟩
            | refuse hno hfail =>
                exact ⟨result, fun d => (hverdict d).bind (hresult d),
                  .refused hno (fun cause h => hfail cause h.2) hselects⟩
            | fail hfails =>
                exact ⟨_, fun d => (hverdict d).bind_error, .failed ⟨hlength, hfails⟩⟩
          · simp only [htry, if_neg hlength]
            refine ⟨result, hresult, .refused (fun htakes => ?_) (fun cause h => ?_) hselects⟩
            · exact hlength htakes.length_eq
            · exact hlength h.1

namespace Executable

/-- The bodies of a method, in the order in which they are tried. -/
def candidates (x : Executable) (m : MethodId) : List MethodBody :=
  (x.scopes.implementations m).filterMap (x.bodies[·]?)

variable {x : Executable} (hx : x.WellScoped)
include hx

theorem map_id_candidates (m : MethodId) :
    (x.candidates m).map (·.head.id) = x.scopes.implementations m := by
  rw [candidates, List.map_filterMap]
  -- Every number has its body, which carries the number.
  have hid : ∀ id ∈ x.scopes.implementations m,
      (x.bodies[id]?).map (·.head.id) = some id := by
    intro id hid
    have hlt : id < x.bodies.size := hx.size_bodies ▸ hx.coherent.implemented m id hid
    have hget := Array.getElem?_eq_getElem hlt
    rw [hget, Option.map_some, (hx.body id _ hget).1]
  rw [List.filterMap_congr hid, List.filterMap_some]

theorem method_of_mem_candidates {m : MethodId} {b : MethodBody} (hb : b ∈ x.candidates m) :
    b.head.method = m := by
  obtain ⟨id, hid, hget⟩ := List.mem_filterMap.mp hb
  exact hx.method_of_implementation hget hid

theorem constants_of_mem_candidates {m : MethodId} {b : MethodBody} (hb : b ∈ x.candidates m)
    (e : Expr) (he : .value e ∈ b.head.patterns) : EvaluatesAsConstant e := by
  obtain ⟨id, -, hget⟩ := List.mem_filterMap.mp hb
  have hpattern := (hx.body_scoped hget).2.2.1.pattern_of_mem he
  exact Expr.evaluatesAsConstant hpattern.fits (hpattern.part List.mem_cons_self)

end Executable

/-- For every accepted program, every method and every list of arguments: the bodies that
    implement the method are tried in their order, and choosing one of them has one and the
    same result in all states of a run and changes none of them.  The result is the first body
    that takes the arguments, none if no body does, and an error exactly if a constant without
    a value is reached before such a body is found. -/
theorem overloads_select_first_match {text : String} {p : Parsed} (hp : parse text = .ok p)
    (limit : Option Nat) :
    ∃ x, p.prepare? limit = some x ∧ ∀ m arguments,
      (x.candidates m).map (·.head.id) = p.scopes.implementations m ∧
      (∀ b ∈ x.candidates m, b.head.method = m) ∧
      ∃ result, Selects (x.candidates m) arguments result ∧
        ∀ dispatch r, r.scopes.withoutValues = p.scopes →
          (selectBody x.bodies dispatch arguments (r.scopes.implementations m)).outcome r =
            (result.mapError Stop.error, r) := by
  obtain ⟨root, hroot⟩ := exists_readsText hp
  obtain ⟨x, hprepare⟩ := hroot.wellScoped.exists_prepare limit
  obtain ⟨-, hscopes, -, hx⟩ := hroot.wellScoped.prepare hprepare
  refine ⟨x, hprepare, fun m arguments => ?_⟩
  obtain ⟨result, hresult, hselects⟩ := exists_selects
    (fun b (hb : b ∈ x.candidates m) => x.constants_of_mem_candidates hx hb) arguments
  refine ⟨hscopes ▸ x.map_id_candidates hx m, fun b => x.method_of_mem_candidates hx, result,
    hselects, fun dispatch r htable => ?_⟩
  have himplementations : r.scopes.implementations m = x.scopes.implementations m := by
    rw [← ScopeTable.implementations_withoutValues, htable, hscopes]
  rw [himplementations]
  exact hresult dispatch r

/-- A method with a body whose second pattern has no value. -/
def overloadText : String :=
  "f :: Int <- Int, Int\nf(0, -\"a\") do\nend\nf(n, -(2)) do\nend\n"

/-- The bodies of `overloadText`. -/
def overloadBodies : List MethodBody :=
  [ ⟨⟨0, 0, ⟨"f", 2⟩, [.value (.literal (.integer 0)),
      .value (.unary ⟨.minus, "-", 2⟩ (.literal (.string "a")))]⟩, []⟩,
    ⟨⟨1, 0, ⟨"f", 4⟩, [.binding ⟨"n", 4⟩,
      .value (.unary ⟨.minus, "-", 4⟩ (.grouping (.literal (.integer 2))))]⟩, []⟩ ]

/-- The tree of `overloadText`. -/
def overloadItems : List Item :=
  .methodDecl ⟨"f", 1⟩ "Int" ["Int", "Int"] ::
    overloadBodies.map fun b => .methodBody b.head b.block

/-- The table of `overloadText`. -/
def overloadTable : ScopeTable where
  methods := #[⟨"f", "Int", ["Int", "Int"], none, none, { vars := [0] }, [0, 1]⟩]
  vars := #[⟨"n", none, none, some 0⟩]
  global := { methods := [0] }
  bodyCount := 2

theorem parse_overloadText : parse overloadText = .ok ⟨overloadItems, overloadTable⟩ := by cbv

/-- `overloadText` ready to run. -/
def overloadProgram : Executable := ⟨overloadItems, overloadTable, overloadBodies.toArray, none⟩

/-- With 0 as first argument the constant that has no value is reached, and with 1 it is not. -/
theorem overload_blocked_by_first_zero :
    parse overloadText = .ok ⟨overloadItems, overloadTable⟩ ∧
      Blocked overloadBodies [.integer 0, .integer (-2)] ∧
      (¬Blocked overloadBodies [.integer 1, .integer (-2)] ∧
        ∃ b, b.head.id = 1 ∧ FirstToTake overloadBodies [.integer 1, .integer (-2)] b) ∧
      ∀ b ∈ overloadBodies, ¬b.Takes [.integer 1, .integer 3] := by
  obtain ⟨x, hx, hselects⟩ := overloads_select_first_match parse_overloadText none
  obtain rfl : overloadProgram = x := Option.some.inj hx
  have htable : overloadTable.withoutValues = overloadTable := by cbv
  -- One run tells what the result is, and the result tells about the bodies.
  have hresult (arguments : List Value) (result : Except EvalError (Option MethodBody))
      (hrun : (selectBody overloadProgram.bodies (overloadProgram.dispatch 0) arguments
        [0, 1]).outcome overloadProgram.initial =
          (result.mapError Stop.error, overloadProgram.initial)) :
      Selects overloadBodies arguments result := by
    obtain ⟨-, -, result', hselects, hrun'⟩ := hselects 0 arguments
    have heq := (hrun' (overloadProgram.dispatch 0) overloadProgram.initial htable).symm.trans hrun
    obtain rfl := mapError_inj (congrArg Prod.fst heq)
    exact hselects
  have hzero := hresult [.integer 0, .integer (-2)] (.error (.invalidOperand "-" "string" 2)) rfl
  have hone := hresult [.integer 1, .integer (-2)] (.ok overloadBodies[1]?) rfl
  have hthree := hresult [.integer 1, .integer 3] (.ok none) rfl
  refine ⟨parse_overloadText, hzero.error_iff.mp ⟨_, rfl⟩, ?_, (hthree.none_iff.mp rfl).2⟩
  obtain ⟨hfree, hfirst⟩ := (hone.some_iff _).mp rfl
  exact ⟨hfree, _, rfl, hfirst⟩

end BlockLang
