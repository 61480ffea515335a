/-
  BlockLang.Proofs.Parser.Completeness

  Stratified expressions are read as what they are.

  A passage says which tokens make up a tree, but not that the readers find this tree and no
  other.  Here they do: for each tightness there is a reader of expressions at least that
  tight, and on a stratified expression it stops exactly where the expression ends, provided
  that the next token does not go on with it.  Operations of one level are read in a loop, so
  what is shown by induction is how the loop stands behind each left operand.
-/
import BlockLang.Proofs.Parser.Agreement
import BlockLang.Proofs.Parser.Words
import BlockLang.Proofs.Tree.Stratified

namespace BlockLang

/-! ## What ends an expression -/

/-- A kind of token that does not go on with an expression at least this tight. -/
def TokenKind.Stops (k : Nat) (kind : TokenKind) : Prop :=
  (∀ level : Level, k ≤ level.tightness → kind ∉ level.operators) ∧ kind ≠ .leftParen ∧
    kind ≠ .equal

namespace TokenKind

theorem EndsExpression.stops {kind : TokenKind} (h : kind.EndsExpression) (k : Nat) :
    kind.Stops k :=
  ⟨fun level _ => h.1 level, h.2⟩

theorem Stops.mono {k k' : Nat} {kind : TokenKind} (h : kind.Stops k) (hk : k ≤ k') :
    kind.Stops k' :=
  ⟨fun level hlevel => h.1 level (hk.trans hlevel), h.2⟩

theorem Stops.endsExpression {kind : TokenKind} (h : kind.Stops 1) : kind.EndsExpression :=
  ⟨fun level => h.1 level level.tightness_pos, h.2⟩

/-- Behind signs there are no more levels. -/
theorem Stops.sign {k : Nat} {kind : TokenKind} (h : kind.Stops k) : kind.Stops signTightness :=
  ⟨fun level hlevel => absurd hlevel level.tightness_lt.not_ge, h.2⟩

/-- An operator of a level ends what is tighter than the level. -/
theorem stops_of_mem_operators {level : Level} {kind : TokenKind} (h : kind ∈ level.operators) :
    kind.Stops (level.tightness + 1) := by
  have hmarks : ∀ kind ∈ level.operators, kind ≠ .leftParen ∧ kind ≠ .equal := by
    cases level <;> decide
  have hother (other : Level) (htight : level.tightness + 1 ≤ other.tightness) :
      ∀ kind ∈ level.operators, kind ∉ other.operators := by
    cases level <;> cases other <;> first | decide | exact absurd htight (by decide)
  exact ⟨fun other htight => hother other htight kind h, hmarks kind h⟩

theorem endsExpression_of_check {kind : TokenKind} {s : ParseState} (h : s.check kind)
    (hkind : kind.EndsExpression) : s.current.kind.EndsExpression := by
  have hcurrent : s.current.kind = kind := by simpa [ParseState.check] using h
  rw [hcurrent]
  exact hkind

end TokenKind

/-! ## Where passages start -/

namespace ParseState

variable {s s' : ParseState}

/-- In front of the end, the token behind the next one is the next one behind that. -/
theorem current_advance (hend : s.atEnd = false) : s.advance.current = s.peekAt 1 := by
  cases hrest : s.rest with
  | nil => simp [current, advance, peekAt, hrest]
  | cons t rest =>
      have hkind : t.kind ≠ .endOfInput := by
        rw [← current_of_rest hrest]
        simpa [atEnd, check] using hend
      simp [current, advance, peekAt, hrest, hkind]

/-- Whether an assignment starts here. -/
def atAssignment (s : ParseState) : Bool := s.check .identifier && (s.peekAt 1).kind = .equal

theorem atAssignment_of_kind (h : s.current.kind ≠ .identifier) : s.atAssignment = false := by
  simp [atAssignment, check, h]

/-- A name is the start of an assignment only if `=` stands behind it. -/
theorem atAssignment_of_advance {kind : TokenKind} (hname : s.check kind)
    (hend : kind ≠ .endOfInput) (h : s.advance.current.kind ≠ .equal) : s.atAssignment = false := by
  rw [current_advance (atEnd_of_check hname hend)] at h
  simp [atAssignment, h]

end ParseState

namespace Passage.Read

variable {e : Expr} {s s' : ParseState}

/-- Reading an expression passes at least one token. -/
theorem length_lt (h : Read ⟨.expr e, s, s'⟩) (hs : s.Closed) :
    s'.rest.length < s.rest.length ∧ s'.Closed := by
  obtain ⟨read, hpass, hwords⟩ := h.writes hs
  have hlen : s.rest.length = read.length + s'.rest.length := hpass.length_eq
  cases read with
  | nil => exact absurd hwords.symm e.words_ne_nil
  | cons t read =>
      rw [List.length_cons] at hlen
      exact ⟨by omega, hpass.closed hs⟩

/-- No assignment starts in front of a stratified expression that is none. -/
theorem not_atAssignment {ρ : Passage} (h : ρ.Read) {e : Expr} (hφ : ρ.phrase = .expr e)
    (he : e.Stratified) (htight : 0 < e.tightness) (hafter : ρ.after.current.kind ≠ .equal) :
    ρ.before.atAssignment = false := by
  -- Only the leftmost operand matters, and the operator behind it is no `=`.
  induction h generalizing e with
  | @intro φ s s' parts hprod _ ih =>
      cases hprod with
      | name hname _ => exact ParseState.atAssignment_of_advance hname (by decide) hafter
      | literal hkind _ =>
          refine ParseState.atAssignment_of_kind fun hname => ?_
          rw [hname] at hkind
          exact absurd hkind (by decide)
      | grouping hopen _ =>
          refine ParseState.atAssignment_of_kind fun hname => ?_
          simp [ParseState.check, hname] at hopen
      | unary hsign =>
          refine ParseState.atAssignment_of_kind fun hname => ?_
          simp [ParseState.check, hname] at hsign
      | @binary _ s₁ _ level left right hop =>
          cases hφ
          obtain ⟨-, htighter, -⟩ : Expr.Layered _ := he.here
          refine ih ⟨.expr left, s, s₁⟩ List.mem_cons_self rfl (he.part List.mem_cons_self)
            (level.tightness_pos.trans_le htighter) ?_
          exact (TokenKind.stops_of_mem_operators hop).2.2
      | assign _ _ _ =>
          cases hφ
          exact absurd htight (lt_irrefl 0)
      | call hcallee hopen _ =>
          have hparen : s.advance.current.kind = .leftParen := by
            simpa [ParseState.check] using hopen
          cases hcallee with
          | builtin hprint =>
              exact ParseState.atAssignment_of_advance hprint (by decide) (by simp [hparen])
          | method hname _ =>
              exact ParseState.atAssignment_of_advance hname (by decide) (by simp [hparen])
      | _ => cases hφ

/-- No expression starts with a closing parenthesis. -/
theorem not_rightParen {ρ : Passage} (h : ρ.Read) {e : Expr} (hφ : ρ.phrase = .expr e) :
    ρ.before.check .rightParen = false := by
  have hother {s : ParseState} {kind : TokenKind} (h : s.check kind) (hkind : kind ≠ .rightParen) :
      s.check .rightParen = false := by
    have hcurrent : s.current.kind = kind := by simpa [ParseState.check] using h
    simp [ParseState.check, hcurrent, hkind]
  induction h generalizing e with
  | @intro φ s s' parts hprod _ ih =>
      cases hprod with
      | name hname _ => exact hother hname (by decide)
      | literal hkind _ =>
          refine hother (decide_eq_true rfl) fun hparen => ?_
          rw [hparen] at hkind
          exact absurd hkind (by decide)
      | grouping hopen _ => exact hother hopen (by decide)
      | unary hsign =>
          rcases hsign with hsign | hsign
          · exact hother hsign (by decide)
          · exact hother hsign (by decide)
      | @binary _ s₁ _ level left right hop => exact ih ⟨.expr left, s, s₁⟩ List.mem_cons_self rfl
      | assign hname _ _ => exact hother hname (by decide)
      | call hcallee _ _ =>
          cases hcallee with
          | builtin hprint => exact hother hprint (by decide)
          | method hname _ => exact hother hname (by decide)
      | _ => cases hφ

/-- There are no arguments exactly where the parentheses close at once. -/
theorem arguments_nil {args : List Expr} (h : Read ⟨.arguments args, s, s'⟩) :
    (args = [] → s' = s) ∧ (s.check .rightParen → args = []) := by
  cases h with
  | intro hprod hparts =>
      cases hprod with
      | noArguments => exact ⟨fun _ => rfl, fun _ => rfl⟩
      | lastArgument =>
          have hstart := (hparts _ List.mem_cons_self).not_rightParen rfl
          exact ⟨nofun, fun hclose => by simp [hclose] at hstart⟩
      | argument _ =>
          have hstart := (hparts _ List.mem_cons_self).not_rightParen rfl
          exact ⟨nofun, fun hclose => by simp [hclose] at hstart⟩

/-- What needs no operator does not start with a sign. -/
theorem not_sign (h : Read ⟨.expr e, s, s'⟩) (htight : signTightness < e.tightness) :
    s.current.kind ≠ .bang ∧ s.current.kind ≠ .minus := by
  have hcheck {kind : TokenKind} (h : s.check kind) : s.current.kind = kind := by
    simpa [ParseState.check] using h
  cases h with
  | intro hprod _ =>
      cases hprod with
      | name hname _ => simp [hcheck hname]
      | literal hkind _ =>
          constructor
          all_goals
            intro hsign
            rw [hsign] at hkind
            exact absurd hkind (by decide)
      | grouping hopen _ => simp [hcheck hopen]
      | unary _ => exact absurd htight (lt_irrefl _)
      | @binary _ _ _ level _ _ _ => exact absurd htight level.tightness_lt.not_gt
      | assign _ _ _ => exact absurd htight (Nat.not_lt_zero _)
      | call hcallee _ _ =>
          cases hcallee with
          | builtin hprint => simp [hcheck hprint]
          | method hname _ => simp [hcheck hname]

end Passage.Read

/-! ## Readers by tightness -/

namespace ParseM

/-- The levels of operators that bind at least this tightly. -/
def levelsFrom (k : Nat) : List Level :=
  ([.logic, .equality, .comparison, .addition, .multiplication] : List Level).filter
    (k ≤ ·.tightness)

/-- The reader of expressions that hold together at least this tightly, for at most `n + 1`
    tokens. -/
def reader (n k : Nat) : ParseM Expr :=
  if k = 0 then expression (n + 1)
  else if signTightness < k then primary (n + 1) (expression n)
  else (levelsFrom k).foldr (binary (n + 1)) (unary (n + 1) (expression n) (n + 1))

/-- How the reader of a tightness goes on behind an expression: at a level of operators it is
    in its loop, and else it is done. -/
def goOn (n k : Nat) (e : Expr) : ParseM Expr :=
  match (levelsFrom k).find? (·.tightness = k) with
  | some level => binaryRest level (reader n (k + 1)) (n + 1) e
  | none => pure e

variable {n k : Nat} {e : Expr} {s s' : ParseState}

theorem reader_level (n : Nat) (level : Level) :
    reader n level.tightness = reader n (level.tightness + 1) >>=
      binaryRest level (reader n (level.tightness + 1)) (n + 1) := by
  cases level <;> rfl

theorem goOn_level (n : Nat) (level : Level) (e : Expr) :
    goOn n level.tightness e = binaryRest level (reader n (level.tightness + 1)) (n + 1) e := by
  cases level <;> rfl

theorem moves_reader (n : Nat) (level : Level) :
    Moves Plain (fun _ => True) (reader n (level.tightness + 1)) := by
  have hunary := moves_unary (keeps_expression (L := fun _ => True) n) (n + 1) (n + 1)
  cases level <;> exact moves_levels (n + 1) _ hunary

/-- A token that does not go on with the expression ends the loop. -/
theorem outcome_goOn (h : s.current.kind.Stops k) : (goOn n k e).outcome s = (.ok e, s) := by
  unfold goOn
  split
  · rename_i level hlevel
    have htight : level.tightness = k := by simpa using List.find?_some hlevel
    have hop : level.operators.contains s.current.kind = false := by
      simpa using h.1 level htight.ge
    rw [binaryRest, outcome_bind, outcome_get]
    dsimp only
    rw [hop, if_neg Bool.false_ne_true]
    rfl
  · rfl

/-- An expression that the reader of the next tightness reads is left to it. -/
theorem outcome_reader_of_succ (hread : Passage.Read ⟨.expr e, s, s'⟩) (he : e.Stratified)
    (hk : k < e.tightness) (hstops : s'.current.kind.Stops (k + 1))
    (h : (reader n (k + 1)).outcome s = (.ok e, s')) :
    (reader n k).outcome s = (goOn n k e).outcome s' := by
  have hcases : k = 0 ∨ (∃ level : Level, k = level.tightness) ∨ k = signTightness := by
    have hlt : k < 7 := hk.trans_le e.tightness_le
    interval_cases k
    · exact .inl rfl
    · exact .inr (.inl ⟨.logic, rfl⟩)
    · exact .inr (.inl ⟨.equality, rfl⟩)
    · exact .inr (.inl ⟨.comparison, rfl⟩)
    · exact .inr (.inl ⟨.addition, rfl⟩)
    · exact .inr (.inl ⟨.multiplication, rfl⟩)
    · exact .inr (.inr rfl)
  -- There is no assignment and no sign in front, and a level looks for its operators only behind
  -- an operand.
  rcases hcases with rfl | ⟨level, rfl⟩ | rfl
  · have hassign := hread.not_atAssignment rfl he hk hstops.2.2
    rw [ParseState.atAssignment] at hassign
    show (expressionWith (n + 1) (expression n)).outcome s = _
    rw [expressionWith, outcome_bind, outcome_get]
    dsimp only
    rw [hassign, if_neg Bool.false_ne_true]
    exact h
  · rw [reader_level, outcome_bind, h, goOn_level]
  · obtain ⟨hbang, hminus⟩ := hread.not_sign hk
    show (unary (n + 1) (expression n) (n + 1)).outcome s = _
    rw [unary, outcome_bind, outcome_get]
    simp only [hbang, hminus, decide_false, Bool.or_false, if_neg Bool.false_ne_true]
    exact h

/-- It is enough that the reader of an expression's own tightness reads it. -/
theorem outcome_reader_of_own (hread : Passage.Read ⟨.expr e, s, s'⟩) (he : e.Stratified)
    (hk : k ≤ e.tightness) (hstops : s'.current.kind.Stops (k + 1))
    (hown : s'.current.kind.Stops (e.tightness + 1) →
      (reader n e.tightness).outcome s = (goOn n e.tightness e).outcome s') :
    (reader n k).outcome s = (goOn n k e).outcome s' := by
  induction hk using Nat.decreasingInduction with
  | self => exact hown hstops
  | of_succ k hlt ih =>
      have hnext := ih (hstops.mono (Nat.le_succ _))
      rw [outcome_goOn hstops] at hnext
      exact outcome_reader_of_succ hread he hlt hstops hnext

/-! ## Expressions without operators -/

section Primary

variable {budget : Nat} {nested : ParseM Expr}

theorem outcome_primary_literal {value : Value} (hkind : s.current.kind ∈ literalKinds)
    (hvalue : s.current.literal = some value) :
    (primary budget nested).outcome s = (.ok (.literal value), s.advance) := by
  have hliteral : literal.outcome s = (.ok (.literal value), s.advance) := by
    rw [literal, outcome_bind, outcome_next]
    simp only [hvalue]
    rfl
  rw [primary, outcome_bind, outcome_get]
  dsimp only
  simp only [literalKinds, List.mem_cons, List.not_mem_nil, or_false] at hkind
  rcases hkind with hkind | hkind | hkind | hkind | hkind
  all_goals
    simp only [hkind]
    exact hliteral

theorem outcome_primary_name (hname : s.check .identifier)
    (hfound : (s.scopes.resolve s.current.lexeme s.cursor).isSome)
    (hparen : s.advance.current.kind ≠ .leftParen) :
    (primary budget nested).outcome s = (.ok (.name (.ofToken s.current)), s.advance) := by
  have hkind : s.current.kind = .identifier := by simpa [ParseState.check] using hname
  rw [ParseState.current_advance (ParseState.atEnd_of_kind hkind (by decide))] at hparen
  rw [primary, outcome_bind, outcome_get]
  simp only [hkind, hparen, if_false]
  rw [nameUse, outcome_bind, outcome_next]
  simp only [outcome_bind, outcome_get, ParseState.advance_scopes, ParseState.advance_cursor,
    Ident.ofToken, hfound, if_true]
  rfl

theorem outcome_primary_grouping {inner : Expr} (hopen : s.check .leftParen)
    (hinner : nested.outcome s.advance = (.ok inner, s')) (hclose : s'.check .rightParen) :
    (primary budget nested).outcome s = (.ok (.grouping inner), s'.advance) := by
  have hkind : s.current.kind = .leftParen := by simpa [ParseState.check] using hopen
  rw [primary, outcome_bind, outcome_get]
  simp only [hkind]
  rw [grouping, outcome_bind, outcome_next]
  simp only [outcome_bind, hinner, outcome_accept, hclose, if_true, ParseState.pass]
  rfl

theorem outcome_expect_of_check {expected : Expected} (h : s.check expected.kind) :
    (expect expected).outcome s = (.ok s.current, s.advance) := by
  rw [outcome_expect, if_pos h]

/-- What the target of a call stands for. -/
theorem outcome_callee {target : Callee} (h : s.AtCallee target) :
    (callee s.current).outcome s.advance = (.ok target, s.advance) := by
  cases h with
  | builtin hprint =>
      have hkind : s.current.kind = .kwPrint := by simpa [ParseState.check] using hprint
      rw [callee, if_pos hkind]
      rfl
  | method hname hfound =>
      have hkind : s.current.kind ≠ .kwPrint := by
        have hname : s.current.kind = .identifier := by simpa [ParseState.check] using hname
        simp [hname]
      rw [callee, if_neg hkind, outcome_bind, outcome_get]
      simp only [ParseState.advance_scopes, ParseState.advance_cursor, hfound]
      rfl

theorem outcome_arguments {args : List Expr} (hopen : s.check .leftParen)
    (hargs : args ≠ [] → (separated nested budget).outcome s.advance = (.ok args, s'))
    (hnone : args = [] → s' = s.advance) (hempty : s.advance.check .rightParen → args = [])
    (hclose : s'.check .rightParen) :
    (arguments budget nested).outcome s = (.ok args, s'.advance) := by
  have hexpect : (expect .rightParen).outcome s' = (.ok s'.current, s'.advance) :=
    outcome_expect_of_check hclose
  have hexpect' : (expect .leftParen).outcome s = (.ok s.current, s.advance) :=
    outcome_expect_of_check hopen
  rw [arguments, outcome_bind, hexpect']
  dsimp only
  rw [outcome_bind, outcome_get]
  dsimp only
  by_cases hnil : args = []
  · obtain rfl := hnone hnil
    rw [if_pos hclose, outcome_bind, outcome_pure, hnil]
    dsimp only
    rw [outcome_bind, hexpect]
    rfl
  · have hcheck : ¬ s.advance.check .rightParen := fun h => hnil (hempty h)
    rw [if_neg hcheck, outcome_bind, hargs hnil]
    dsimp only
    rw [outcome_bind, hexpect]
    rfl

theorem outcome_primary_call {target : Callee} {args : List Expr} (htarget : s.AtCallee target)
    (hopen : s.advance.check .leftParen)
    (hargs : (arguments budget nested).outcome s.advance = (.ok args, s')) :
    (primary budget nested).outcome s = (.ok (.call target args), s') := by
  have hcall : (call budget nested).outcome s = (.ok (target, args), s') := by
    rw [call, outcome_bind, outcome_next]
    simp only [outcome_bind, outcome_callee htarget, hargs]
    rfl
  have hparen : s.advance.current.kind = .leftParen := by simpa [ParseState.check] using hopen
  rw [primary, outcome_bind, outcome_get]
  cases htarget with
  | builtin hprint =>
      have hkind : s.current.kind = .kwPrint := by simpa [ParseState.check] using hprint
      rw [ParseState.current_advance (ParseState.atEnd_of_kind hkind (by decide))] at hparen
      simp only [hkind, hparen, if_true, outcome_bind, hcall]
      rfl
  | method hname _ =>
      have hkind : s.current.kind = .identifier := by simpa [ParseState.check] using hname
      rw [ParseState.current_advance (ParseState.atEnd_of_kind hkind (by decide))] at hparen
      simp only [hkind, hparen, if_true, outcome_bind, hcall]
      rfl

end Primary

end ParseM

/-! ## Whole passages -/

open ParseM

/-- Whether the readers find an expression between two states: if it is stratified, every
    reader that is loose enough for it comes to stand behind it. -/
def Expr.Found (e : Expr) (s s' : ParseState) : Prop :=
  e.Stratified → ∀ n k, s.rest.length ≤ n + 1 → k ≤ e.tightness →
    s'.current.kind.Stops (k + 1) → (reader n k).outcome s = (goOn n k e).outcome s'

/-- Whether the reader of arguments finds them between two states. -/
def ArgumentsFound (es : List Expr) (s s' : ParseState) : Prop :=
  (∀ e ∈ es, e.Stratified) → ∀ n budget, s.rest.length ≤ n → s.rest.length ≤ budget →
    s'.check .rightParen → (separated (expression n) budget).outcome s = (.ok es, s')

namespace Expr.Found

variable {e : Expr} {s s₁ s' : ParseState} {n : Nat}

/-- An expression that the readers find is one that `expression` finds. -/
theorem outcome_expression (h : e.Found s s') (hread : Passage.Read ⟨.expr e, s, s'⟩)
    (he : e.Stratified) (hs : s.Closed) (hn : s.rest.length ≤ n)
    (hend : s'.current.kind.EndsExpression) : (expression n).outcome s = (.ok e, s') := by
  have hlt := (hread.length_lt hs).1
  obtain ⟨m, rfl⟩ := Nat.exists_eq_add_of_lt (Nat.zero_lt_of_lt (hlt.trans_le hn))
  rw [Nat.zero_add] at hn ⊢
  have hfound := h he m 0 hn (Nat.zero_le _) (hend.stops _)
  rw [outcome_goOn (hend.stops _)] at hfound
  exact hfound

theorem assign {v : VariableId} (hname : s.check .identifier)
    (hvar : s.scopes.resolve s.current.lexeme s.cursor = some (.var v))
    (hequal : s.advance.check .equal) (hs : s.Closed)
    (hread : Passage.Read ⟨.expr e, s.advance.advance, s'⟩)
    (h : s.advance.advance.Closed → e.Found s.advance.advance s') :
    Expr.Found (.assign (.ofToken s.current) e) s s' := by
  intro he n k hn hk hstops
  obtain rfl : k = 0 := Nat.le_zero.mp hk
  obtain ⟨hs₁, hlen₁⟩ := advance_lt hs (ParseState.atEnd_of_check hname (by decide))
    (Nat.lt_succ_of_le hn)
  have hs₂ := ((ParseState.passes_of_check hs₁ hequal (by decide)).closed hs₁)
  have hlen₂ := (ParseState.passes_of_check hs₁ hequal (by decide)).length_eq
  rw [List.length_singleton] at hlen₂
  -- The name and the sign are two tokens, so a smaller budget covers the value.
  have hvalue : (expression n).outcome s.advance.advance = (.ok e, s') :=
    (h hs₂).outcome_expression hread (he.part List.mem_cons_self) hs₂ (by omega)
      hstops.endsExpression
  have hexpect : (expect .equal).outcome s.advance = (.ok s.advance.current, s.advance.advance) :=
    outcome_expect_of_check hequal
  have hbehind : (s.peekAt 1).kind = .equal := by
    rw [← ParseState.current_advance (ParseState.atEnd_of_check hname (by decide))]
    simpa [ParseState.check] using hequal
  show (expressionWith (n + 1) (expression n)).outcome s = (.ok _, s')
  rw [expressionWith, outcome_bind, outcome_get]
  simp only [hname, hbehind, decide_true, Bool.and_true, if_true]
  rw [outcome_bind, assignment, outcome_bind, outcome_next]
  simp only [outcome_bind, requireVariable, outcome_get, ParseState.advance_scopes,
    ParseState.advance_cursor, Ident.ofToken, hvar, outcome_pure, hexpect, hvalue]

theorem unary (hsign : s.check .bang ∨ s.check .minus) (hs : s.Closed)
    (hread : Passage.Read ⟨.expr e, s.advance, s'⟩)
    (h : s.advance.Closed → e.Found s.advance s') :
    Expr.Found (.unary (.ofToken s.current) e) s s' := by
  intro he n k hn hk hstops
  refine outcome_reader_of_own (.of_one (.unary hsign) hread) he hk hstops fun hstops => ?_
  obtain ⟨-, htight⟩ : Expr.Layered _ := he.here
  have hkind : (s.current.kind = .bang || s.current.kind = .minus) = true := by
    simpa [ParseState.check] using hsign
  obtain ⟨hs₁, hlen⟩ := advance_lt hs (ParseState.atEnd_of_sign hkind) (Nat.lt_succ_of_le hn)
  -- The operand is read with one sign less to spare, which makes no difference.
  have hagree := agree_unary (keeps_expression n) (.refl (primary (n + 1) (expression n)))
    (le_refl n) (Nat.le_succ n) s.advance hs₁ hlen
  have hoperand :
      (ParseM.unary (n + 1) (expression n) (n + 1)).outcome s.advance = (.ok e, s') := by
    rw [← outcome_goOn (n := n) hstops.sign]
    exact h hs₁ (he.part List.mem_cons_self) n signTightness (by omega) htight hstops
  show (ParseM.unary (n + 1) (expression n) (n + 1)).outcome s = (.ok _, s')
  rw [ParseM.unary, outcome_bind, outcome_get]
  dsimp only
  rw [if_pos hkind, outcome_bind, outcome_next]
  dsimp only
  rw [outcome_bind, hagree, hoperand]
  rfl

theorem binary {level : Level} {left right : Expr} (hop : s₁.current.kind ∈ level.operators)
    (hs : s.Closed) (hleft : Passage.Read ⟨.expr left, s, s₁⟩)
    (hright : Passage.Read ⟨.expr right, s₁.advance, s'⟩) (hfoundLeft : s.Closed → left.Found s s₁)
    (hfoundRight : s₁.advance.Closed → right.Found s₁.advance s') :
    Expr.Found (.binary level left (.ofToken s₁.current) right) s s' := by
  intro he n k hn hk hstops
  refine outcome_reader_of_own (.of_two (.binary hop) hleft hright) he hk hstops fun hown => ?_
  have hstops : s'.current.kind.Stops (level.tightness + 1) := hown
  obtain ⟨-, htightLeft, htightRight⟩ : Expr.Layered _ := he.here
  have hcontains : level.operators.contains s₁.current.kind := by simpa using hop
  obtain ⟨hlen₁, hs₁⟩ := hleft.length_lt hs
  obtain ⟨hs₂, hlen₂⟩ := advance_lt hs₁ (ParseState.atEnd_of_operator hcontains)
    (show s₁.rest.length < n + 1 by omega)
  have hlen' := (hright.length_lt hs₂).1
  -- The operator ends the left operand as far as tighter levels go, so the loop stands behind it.
  have hloop := hfoundLeft hs (he.part List.mem_cons_self) n level.tightness hn htightLeft
    (TokenKind.stops_of_mem_operators hop)
  have hoperand := hfoundRight hs₂ (he.part (List.mem_cons_of_mem _ List.mem_cons_self)) n
    (level.tightness + 1) (by omega) htightRight (hstops.mono (Nat.le_succ _))
  rw [outcome_goOn hstops] at hoperand
  have hagree := agree_binaryRest level (.refl (reader n (level.tightness + 1)))
    (moves_reader n level).keeps.passing (le_refl n) (Nat.le_succ n)
    (.binary level left (.ofToken s₁.current) right) s' (hright.length_lt hs₂).2 (by omega)
  show (reader n level.tightness).outcome s = (goOn n level.tightness _).outcome s'
  rw [hloop, goOn_level, goOn_level, ← hagree, binaryRest, outcome_bind, outcome_get]
  dsimp only
  rw [if_pos hcontains, outcome_bind, outcome_next]
  dsimp only
  rw [outcome_bind, hoperand]

/-- Expressions without operators are found when the reader of those finds them. -/
theorem of_primary (hread : Passage.Read ⟨.expr e, s, s'⟩)
    (htight : e.tightness = signTightness + 1)
    (h : e.Stratified → ∀ n, s.rest.length ≤ n + 1 → s'.current.kind ≠ .leftParen →
      (primary (n + 1) (expression n)).outcome s = (.ok e, s')) : e.Found s s' := by
  intro he n k hn hk hstops
  refine outcome_reader_of_own hread he hk hstops fun hstops => ?_
  rw [htight]
  exact h he n hn hstops.2.1

theorem grouping (hopen : s.check .leftParen) (hclose : s'.check .rightParen) (hs : s.Closed)
    (hread : Passage.Read ⟨.expr e, s.advance, s'⟩)
    (h : s.advance.Closed → e.Found s.advance s') :
    Expr.Found (.grouping e) s s'.advance := by
  refine of_primary (.of_one (.grouping hopen hclose) hread) rfl fun he n hn _ => ?_
  obtain ⟨hs₁, hlen⟩ := advance_lt hs (ParseState.atEnd_of_check hopen (by decide))
    (Nat.lt_succ_of_le hn)
  refine outcome_primary_grouping hopen ?_ hclose
  refine (h hs₁).outcome_expression hread (he.part List.mem_cons_self) hs₁ (by omega) ?_
  exact TokenKind.endsExpression_of_check hclose (by decide)

theorem call {callee : Callee} {args : List Expr} (hcallee : s.AtCallee callee)
    (hopen : s.advance.check .leftParen) (hclose : s'.check .rightParen) (hs : s.Closed)
    (hread : Passage.Read ⟨.arguments args, s.advance.advance, s'⟩)
    (h : s.advance.advance.Closed → args ≠ [] → ArgumentsFound args s.advance.advance s') :
    Expr.Found (.call callee args) s s'.advance := by
  refine of_primary (.of_one (.call hcallee hopen hclose) hread) rfl fun he n hn _ => ?_
  have hend : s.atEnd = false := by
    cases hcallee with
    | builtin hprint => exact ParseState.atEnd_of_check hprint (by decide)
    | method hname _ => exact ParseState.atEnd_of_check hname (by decide)
  obtain ⟨hs₁, hlen₁⟩ := advance_lt hs hend (Nat.lt_succ_of_le hn)
  obtain ⟨hs₂, hlen₂⟩ := advance_lt hs₁ (ParseState.atEnd_of_check hopen (by decide)) hlen₁
  have hargs (hne : args ≠ []) :
      (separated (expression n) (n + 1)).outcome s.advance.advance = (.ok args, s') :=
    h hs₂ hne (Phrase.each_arguments.mp (he.part List.mem_cons_self)) n (n + 1) (by omega)
      (by omega) hclose
  obtain ⟨hnone, hempty⟩ := hread.arguments_nil
  exact outcome_primary_call hcallee hopen (outcome_arguments hopen hargs hnone hempty hclose)

end Expr.Found

/-! ### Arguments -/

theorem ParseM.outcome_separated_last {α : Type} {element : ParseM α} {budget : Nat}
    {s s' : ParseState} {a : α} (ha : element.outcome s = (.ok a, s'))
    (hcomma : s'.check .comma = false) :
    (separated element budget).outcome s = (.ok [a], s') := by
  cases budget with
  | zero =>
      rw [separated, outcome_bind, ha]
      rfl
  | succ budget =>
      rw [separated, outcome_bind, ha]
      simp only [outcome_bind, outcome_accept, hcomma, ParseState.pass]
      rfl

theorem ParseM.outcome_separated_cons {α : Type} {element : ParseM α} {budget : Nat}
    {s s₁ s' : ParseState} {a : α} {as : List α} (ha : element.outcome s = (.ok a, s₁))
    (hcomma : s₁.check .comma)
    (has : (separated element budget).outcome s₁.advance = (.ok as, s')) :
    (separated element (budget + 1)).outcome s = (.ok (a :: as), s') := by
  rw [separated, outcome_bind, ha]
  simp only [outcome_bind, outcome_accept, hcomma, ParseState.pass, if_true, has]
  rfl

namespace ArgumentsFound

variable {e e' : Expr} {es : List Expr} {s s₁ s' : ParseState}

theorem last (hs : s.Closed) (hread : Passage.Read ⟨.expr e, s, s'⟩)
    (h : s.Closed → e.Found s s') : ArgumentsFound [e] s s' := by
  intro hes n budget hn _ hclose
  have hend := TokenKind.endsExpression_of_check hclose (by decide)
  have hcomma : s'.check .comma = false := by
    have hkind : s'.current.kind = .rightParen := by simpa [ParseState.check] using hclose
    simp [ParseState.check, hkind]
  have he : e.Stratified := hes e List.mem_cons_self
  exact outcome_separated_last ((h hs).outcome_expression hread he hs hn hend) hcomma

theorem cons (hcomma : s₁.check .comma) (hs : s.Closed)
    (hread : Passage.Read ⟨.expr e, s, s₁⟩) (h : s.Closed → e.Found s s₁)
    (hmore : s₁.advance.Closed → ArgumentsFound (e' :: es) s₁.advance s') :
    ArgumentsFound (e :: e' :: es) s s' := by
  intro hall n budget hn hbudget hclose
  obtain ⟨he, hes⟩ := List.forall_mem_cons.mp hall
  obtain ⟨hlen₁, hs₁⟩ := hread.length_lt hs
  obtain ⟨hs₂, hlen₂⟩ := advance_lt hs₁ (ParseState.atEnd_of_check hcomma (by decide))
    (Nat.lt_succ_self _)
  obtain ⟨b, rfl⟩ := Nat.exists_eq_add_of_lt (show 0 < budget by omega)
  have hend := TokenKind.endsExpression_of_check hcomma (by decide)
  refine outcome_separated_cons ((h hs).outcome_expression hread he hs hn hend) hcomma ?_
  exact hmore hs₂ hes n (0 + b) (by omega) (by omega) hclose

end ArgumentsFound

/-! ### All of them -/

/-- Whether the readers find what a passage says. -/
def Passage.Found (ρ : Passage) : Prop :=
  match ρ.phrase with
  | .expr e => e.Found ρ.before ρ.after
  | .arguments es => es ≠ [] → ArgumentsFound es ρ.before ρ.after
  | _ => True

/-- The readers find what is read. -/
theorem Passage.Read.found {ρ : Passage} (h : ρ.Read) (hs : ρ.before.Closed) : ρ.Found := by
  have hfirst {σ : Passage} {rest : List Passage} : σ ∈ σ :: rest := List.mem_cons_self
  have hlast {σ τ : Passage} : τ ∈ [σ, τ] := List.mem_cons_of_mem σ List.mem_cons_self
  induction h with
  | @intro φ s s' parts hprod hparts ih =>
      cases hprod with
      | name hname hfound =>
          exact .of_primary (.of_none (.name hname hfound)) rfl fun _ n _ hparen =>
            outcome_primary_name hname hfound hparen
      | literal hkind hvalue =>
          exact .of_primary (.of_none (.literal hkind hvalue)) rfl fun _ n _ _ =>
            outcome_primary_literal hkind hvalue
      | grouping hopen hclose => exact .grouping hopen hclose hs (hparts _ hfirst) (ih _ hfirst)
      | unary hsign => exact .unary hsign hs (hparts _ hfirst) (ih _ hfirst)
      | binary hop =>
          exact .binary hop hs (hparts _ hfirst) (hparts _ hlast) (ih _ hfirst) (ih _ hlast)
      | assign hname hvar hequal =>
          exact .assign hname hvar hequal hs (hparts _ hfirst) (ih _ hfirst)
      | call hcallee hopen hclose =>
          exact .call hcallee hopen hclose hs (hparts _ hfirst) (ih _ hfirst)
      | noArguments => exact fun h => absurd rfl h
      | lastArgument => exact fun _ => .last hs (hparts _ hfirst) (ih _ hfirst)
      | argument hcomma =>
          exact fun _ => .cons hcomma hs (hparts _ hfirst) (ih _ hfirst) fun hs₁ =>
            ih _ hlast hs₁ (List.cons_ne_nil _ _)
      | _ => trivial

end BlockLang
