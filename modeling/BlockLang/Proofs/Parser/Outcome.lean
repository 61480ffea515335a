/-
  BlockLang.Proofs.Parser.Outcome

  What readers make of a state.

  A reader turns a state into a result and the state behind it.  Readers of several
  steps are taken apart here, the smallest steps are run, and so is one round of
  reading items.
-/
import BlockLang.Parser.Program
import Mathlib

namespace BlockLang

theorem eq_ok_of_toOption {ε α : Type} {x : Except ε α} {a : α} (h : x.toOption = some a) :
    x = .ok a := by
  cases x with
  | error e => cases h
  | ok b => exact congrArg Except.ok (Option.some.inj h)

namespace ParseState

@[simp] theorem advance_scopes (s : ParseState) : s.advance.scopes = s.scopes := by
  unfold advance
  split
  · rfl
  · split <;> rfl

@[simp] theorem advance_cursor (s : ParseState) : s.advance.cursor = s.cursor := by
  unfold advance
  split
  · rfl
  · split <;> rfl

@[simp] theorem advance_errors (s : ParseState) : s.advance.errors = s.errors := by
  unfold advance
  split
  · rfl
  · split <;> rfl

/-- The state behind the next token if that is of a kind, else the same state. -/
def pass (s : ParseState) (kind : TokenKind) : ParseState := if s.check kind then s.advance else s

@[simp] theorem pass_scopes (s : ParseState) (kind : TokenKind) :
    (s.pass kind).scopes = s.scopes := by
  unfold pass
  split
  · exact s.advance_scopes
  · rfl

@[simp] theorem pass_cursor (s : ParseState) (kind : TokenKind) :
    (s.pass kind).cursor = s.cursor := by
  unfold pass
  split
  · exact s.advance_cursor
  · rfl

@[simp] theorem pass_errors (s : ParseState) (kind : TokenKind) :
    (s.pass kind).errors = s.errors := by
  unfold pass
  split
  · exact s.advance_errors
  · rfl

end ParseState

namespace ParseM

variable {α β : Type}

/-- What a reader makes of a state. -/
def outcome (x : ParseM α) (s : ParseState) : Except ParseError α × ParseState := x s

@[simp] theorem outcome_pure (a : α) (s : ParseState) :
    (pure a : ParseM α).outcome s = (.ok a, s) := rfl

@[simp] theorem outcome_get (s : ParseState) :
    (get : ParseM ParseState).outcome s = (.ok s, s) := rfl

@[simp] theorem outcome_set (t s : ParseState) :
    (set t : ParseM PUnit).outcome s = (.ok ⟨⟩, t) := rfl

@[simp] theorem outcome_modify (f : ParseState → ParseState) (s : ParseState) :
    (modify f : ParseM PUnit).outcome s = (.ok ⟨⟩, f s) := rfl

@[simp] theorem outcome_throw (e : ParseError) (s : ParseState) :
    (throw e : ParseM α).outcome s = (.error e, s) := rfl

@[simp] theorem outcome_lift (x : StateM ParseState α) (s : ParseState) :
    (liftM x : ParseM α).outcome s = (.ok (x.run s).1, (x.run s).2) := rfl

theorem outcome_bind (x : ParseM α) (f : α → ParseM β) (s : ParseState) :
    (x >>= f).outcome s = match x.outcome s with
      | (.ok a, s₁) => (f a).outcome s₁
      | (.error e, s₁) => (.error e, s₁) := by
  rcases h : x.outcome s with ⟨a | a, s₁⟩
  · simp only [outcome] at h
    simp [outcome, bind, ExceptT.bind, ExceptT.mk, StateT.bind, ExceptT.bindCont, h]
    rfl
  · simp only [outcome] at h
    simp [outcome, bind, ExceptT.bind, ExceptT.mk, StateT.bind, ExceptT.bindCont, h]

theorem outcome_map (f : α → β) (x : ParseM α) (s : ParseState) :
    (f <$> x).outcome s = match x.outcome s with
      | (.ok a, s₁) => (.ok (f a), s₁)
      | (.error e, s₁) => (.error e, s₁) := by
  rw [← bind_pure_comp, outcome_bind]
  rfl

/-- A reader of two steps succeeds when both do. -/
theorem outcome_bind_ok {x : ParseM α} {f : α → ParseM β} {s s' : ParseState} {b : β} :
    (x >>= f).outcome s = (.ok b, s') ↔
      ∃ a s₁, x.outcome s = (.ok a, s₁) ∧ (f a).outcome s₁ = (.ok b, s') := by
  rw [outcome_bind]
  rcases x.outcome s with ⟨a | a, s₁⟩
  · simp
  · constructor
    · intro h
      exact ⟨a, s₁, rfl, h⟩
    · rintro ⟨_, _, h, hf⟩
      cases h
      exact hf

@[simp] theorem outcome_next (s : ParseState) : next.outcome s = (.ok s.current, s.advance) := rfl

@[simp] theorem outcome_accept (kind : TokenKind) (s : ParseState) :
    (accept kind).outcome s = (.ok (s.check kind), s.pass kind) := by
  cases h : s.check kind <;> simp [accept, outcome_bind, outcome_map, ParseState.pass, h]

@[simp] theorem outcome_unexpected (expected : Expected) (s : ParseState) :
    (unexpected expected : ParseM α).outcome s =
      (.error (.unexpectedToken expected s.current.describe s.current.line), s) := rfl

theorem outcome_expect (expected : Expected) (s : ParseState) :
    (expect expected).outcome s = if s.check expected.kind then (.ok s.current, s.advance)
      else (.error (.unexpectedToken expected s.current.describe s.current.line), s) := by
  cases h : s.check expected.kind <;> simp [expect, outcome_bind, h]

theorem expect_ok {expected : Expected} {s s' : ParseState} {t : Token}
    (h : (expect expected).outcome s = (.ok t, s')) :
    s.check expected.kind ∧ t = s.current ∧ s' = s.advance := by
  rw [outcome_expect] at h
  split at h
  · cases h
    exact ⟨‹_›, rfl, rfl⟩
  · cases h

theorem outcome_expectDo (s : ParseState) :
    expectDo.outcome s = if s.current.isDo then (.ok (), s.advance)
      else (.error (.unexpectedToken .blockStart s.current.describe s.current.line), s) := by
  cases h : s.current.isDo <;> simp [expectDo, outcome_bind, outcome_map, h]

theorem expectDo_ok {s s' : ParseState} (h : expectDo.outcome s = (.ok (), s')) :
    s.current.isDo ∧ s' = s.advance := by
  rw [outcome_expectDo] at h
  split at h
  · cases h
    exact ⟨‹_›, rfl⟩
  · cases h

@[simp] theorem outcome_withCursor (c : Cursor) (read : ParseM α) (s : ParseState) :
    (withCursor c read).outcome s =
      ((read.outcome { s with cursor := c }).1,
        { (read.outcome { s with cursor := c }).2 with cursor := s.cursor }) := rfl

theorem withCursor_ok {c : Cursor} {read : ParseM α} {s s' : ParseState} {a : α}
    (h : (withCursor c read).outcome s = (.ok a, s')) :
    ∃ s₁, read.outcome { s with cursor := c } = (.ok a, s₁) ∧
      s' = { s₁ with cursor := s.cursor } := by
  rw [outcome_withCursor] at h
  obtain ⟨hread, rfl⟩ := Prod.mk.inj h
  exact ⟨_, Prod.ext hread rfl, rfl⟩

/-! ## Lists in parentheses -/

/-- Reads elements with commas between them, in parentheses.  There may be none. -/
def inParens (budget : Nat) (element : ParseM α) : ParseM (List α) := do
  let _ ← expect .leftParen
  let elements ← if (← get).check .rightParen then pure [] else separated element budget
  let _ ← expect .rightParen
  return elements

theorem arguments_eq (budget : Nat) (nested : ParseM Expr) :
    arguments budget nested = inParens budget nested := rfl

/-- What is read in parentheses. -/
theorem inParens_ok {budget : Nat} {element : ParseM α} {s s' : ParseState} {as : List α}
    (h : (inParens budget element).outcome s = (.ok as, s')) :
    ∃ s₁, s.check .leftParen ∧ s₁.check .rightParen ∧ s' = s₁.advance ∧
      (as = [] ∧ s₁ = s.advance ∨ (separated element budget).outcome s.advance = (.ok as, s₁)) := by
  rw [inParens, outcome_bind_ok] at h
  obtain ⟨_, _, hopen, h⟩ := h
  obtain ⟨hparen, -, rfl⟩ := expect_ok hopen
  rw [outcome_bind, outcome_get] at h
  dsimp only at h
  split at h
  · obtain ⟨_, _, hnone, h⟩ := outcome_bind_ok.mp h
    cases hnone
    obtain ⟨_, _, hclose, h⟩ := outcome_bind_ok.mp h
    obtain ⟨hparen', -, rfl⟩ := expect_ok hclose
    cases h
    exact ⟨_, hparen, hparen', rfl, .inl ⟨rfl, rfl⟩⟩
  · obtain ⟨as', s₁, has, h⟩ := outcome_bind_ok.mp h
    obtain ⟨_, _, hclose, h⟩ := outcome_bind_ok.mp h
    obtain ⟨hparen', -, rfl⟩ := expect_ok hclose
    cases h
    exact ⟨s₁, hparen, hparen', rfl, .inr has⟩

/-! ## Method bodies -/

/-- Reads the parameters of a body of `method` with their parentheses. -/
def parameters (budget : Nat) (method : MethodId) : ParseM (List Pattern) :=
  inParens budget (pattern budget method)

/-- Reads the block of a body of `method`, which is numbered behind it. -/
def numberedBlock (name : Ident) (method : MethodId) (content : StateM ParseState (List Item))
    (patterns : List Pattern) : ParseM Item := do
  let body ← block .methodBody name.line content
  let s ← get
  set { s with scopes := (s.scopes.addImplementation method).2 }
  return .methodBody ⟨(s.scopes.addImplementation method).1, method, name, patterns⟩ body

/-- A body is its parameters, `do` and its block. -/
theorem methodBodyRest_eq (budget : Nat) (name : Ident) (method : MethodId)
    (content : StateM ParseState (List Item)) :
    methodBodyRest budget name method content = parameters budget method >>= fun patterns =>
      expectDo >>= fun _ => numberedBlock name method content patterns := by
  -- Both sides read `(` and look at the next token; what follows is the same in either case.
  rw [methodBodyRest, parameters, inParens, bind_assoc]
  congr 1
  funext _
  rw [bind_assoc]
  congr 1
  funext s
  split
  · simp only [bind_assoc, pure_bind]
    rfl
  · simp only [bind_assoc, pure_bind]
    rfl

end ParseM

/-- One round of `parseItems`, which reads blocks and goes on with `more`. -/
def itemsStep (budget : Nat) (more : Bool → StateM ParseState (List Item)) (inBlock : Bool) :
    StateM ParseState (List Item) := do
  let start ← get
  if start.atEnd || (inBlock && start.check .kwEnd) then
    return []
  else
    match ← (ParseM.item budget (more true)).run with
    | .ok item => return item :: (← more inBlock)
    | .error e =>
      modify fun s => (s.report e).synchronize start
      more inBlock

theorem run_itemsStep (budget : Nat) (more : Bool → StateM ParseState (List Item)) (inBlock : Bool)
    (s : ParseState) :
    (itemsStep budget more inBlock).run s =
      if s.atEnd || (inBlock && s.check .kwEnd) then ([], s)
      else match (ParseM.item budget (more true)).outcome s with
        | (.ok item, s₁) => (item :: ((more inBlock).run s₁).1, ((more inBlock).run s₁).2)
        | (.error e, s₁) => (more inBlock).run ((s₁.report e).synchronize s) := by
  simp only [itemsStep, StateT.run_bind, StateT.run_get, pure_bind]
  split
  · rfl
  · have hrun : StateT.run (ParseM.item budget (more true)).run s =
        (ParseM.item budget (more true)).outcome s := rfl
    rw [StateT.run_bind, hrun]
    rcases (ParseM.item budget (more true)).outcome s with ⟨e | i, s₁⟩
    · rfl
    · rfl

/-- One round of reading items. -/
theorem parseItems_succ (budget : Nat) (inBlock : Bool) (s : ParseState) :
    (parseItems (budget + 1) inBlock).run s =
      if s.atEnd || (inBlock && s.check .kwEnd) then ([], s)
      else match (ParseM.item (budget + 1) (parseItems budget true)).outcome s with
        | (.ok item, s₁) =>
          (item :: ((parseItems budget inBlock).run s₁).1, ((parseItems budget inBlock).run s₁).2)
        | (.error e, s₁) => (parseItems budget inBlock).run ((s₁.report e).synchronize s) :=
  run_itemsStep (budget + 1) (parseItems budget) inBlock s

end BlockLang
