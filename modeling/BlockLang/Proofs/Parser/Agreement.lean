/-
  BlockLang.Proofs.Parser.Agreement

  Readers that differ in what they never come to.

  Two readers that are built in the same way, from different budgets and from different
  inner readers, do the same from a state if the budgets suffice for the tokens that are
  left and the inner readers agree wherever fewer tokens are left.  For a reader that calls
  itself the round is taken out and compared first, then the loop by induction on the number
  of tokens.
-/
import BlockLang.Proofs.Parser.Progress

namespace BlockLang

namespace ParseM

variable {α β : Type} {n : Nat}

/-- Two readers that do the same wherever fewer than `n` tokens are left. -/
def AgreeBelow (n : Nat) (x y : ParseM α) : Prop :=
  ∀ s : ParseState, s.Closed → s.rest.length < n → x.outcome s = y.outcome s

/-- A reader that passes tokens, whatever else it does. -/
def Passing (x : ParseM α) : Prop := ∀ s : ParseState, ∃ read, s.Passes read (x.outcome s).2

theorem Keeps.passing {R : ParseState → ParseState → Prop} [Stepping R] {V : α → Prop}
    {x : ParseM α} (h : Keeps R (fun _ => True) V x) : Passing x :=
  fun s => Stepping.passed (h s (.trivial s)).1

/-! ## Agreement step by step -/

section Steps

variable {x y : ParseM α} {f g : α → ParseM β}

theorem AgreeBelow.refl (x : ParseM α) : AgreeBelow n x x := fun _ _ _ => rfl

theorem AgreeBelow.mono {m : Nat} (h : AgreeBelow n x y) (hm : m ≤ n) : AgreeBelow m x y :=
  fun s hs hlt => h s hs (hlt.trans_le hm)

theorem agree_bind (hx : AgreeBelow n x y) (hpass : Passing x)
    (hf : ∀ a, AgreeBelow n (f a) (g a)) : AgreeBelow n (x >>= f) (y >>= g) := by
  intro s hs hlt
  obtain ⟨read, hread⟩ := hpass s
  rw [outcome_bind, outcome_bind, ← hx s hs hlt]
  rcases hout : x.outcome s with ⟨e | a, s₁⟩
  · rfl
  · -- Both go on from the same state, where no more tokens are left than before.
    rw [hout] at hread
    have hlen : s.rest.length = read.length + s₁.rest.length := hread.length_eq
    exact hf a s₁ (hread.closed hs) (by omega)

theorem agree_get {f g : ParseState → ParseM β}
    (hf : ∀ s, s.Closed → s.rest.length < n → (f s).outcome s = (g s).outcome s) :
    AgreeBelow n (get >>= f) (get >>= g) :=
  hf

/-- Behind a token fewer tokens are left. -/
theorem advance_lt {s : ParseState} (hs : s.Closed) (hend : s.atEnd = false)
    (hlt : s.rest.length < n + 1) : s.advance.Closed ∧ s.advance.rest.length < n := by
  have hpass := ParseState.passes_advance hs hend
  have hlen := hpass.length_eq
  rw [List.length_singleton] at hlen
  exact ⟨hpass.closed hs, by omega⟩

theorem agreeAt_next {f g : Token → ParseM β} {s : ParseState} (hs : s.Closed)
    (hend : s.atEnd = false) (hlt : s.rest.length < n + 1)
    (hf : ∀ t, AgreeBelow n (f t) (g t)) :
    (next >>= f).outcome s = (next >>= g).outcome s := by
  obtain ⟨hclosed, hfewer⟩ := advance_lt hs hend hlt
  rw [outcome_bind, outcome_bind, outcome_next]
  exact hf s.current s.advance hclosed hfewer

theorem agree_expect {expected : Expected} {f g : Token → ParseM β}
    (hf : ∀ t, AgreeBelow n (f t) (g t)) :
    AgreeBelow (n + 1) (expect expected >>= f) (expect expected >>= g) := by
  intro s hs hlt
  rw [outcome_bind, outcome_bind, outcome_expect]
  by_cases hcheck : s.check expected.kind
  · have hkind : expected.kind ≠ .endOfInput := by cases expected <;> decide
    obtain ⟨hclosed, hfewer⟩ := advance_lt hs (ParseState.atEnd_of_check hcheck hkind) hlt
    rw [if_pos hcheck]
    exact hf s.current s.advance hclosed hfewer
  · rw [if_neg hcheck]

/-- Where no token is left the program ends. -/
theorem atEnd_of_lt_one {s : ParseState} (hs : s.Closed) (hlt : s.rest.length < 1) : s.atEnd :=
  ParseState.atEnd_of_rest_nil hs (List.length_eq_zero_iff.mp (Nat.lt_one_iff.mp hlt))

end Steps

/-! ## Elements with commas between them -/

/-- One round of `separated`, which goes on with `more`. -/
def separatedStep (element : ParseM α) (more : ParseM (List α)) : ParseM (List α) := do
  let x ← element
  if ← accept .comma then
    return x :: (← more)
  else
    return [x]

theorem agree_separatedStep {element element' : ParseM α} {more more' : ParseM (List α)}
    (helement : AgreeBelow (n + 1) element element') (hpass : Passing element)
    (hmore : AgreeBelow n more more') (hmorePass : Passing more) :
    AgreeBelow (n + 1) (separatedStep element more) (separatedStep element' more') := by
  refine agree_bind helement hpass fun x => ?_
  intro s hs hlt
  rw [outcome_bind, outcome_bind, outcome_accept]
  cases hcomma : s.check .comma with
  | false => rfl
  | true =>
      -- The comma is passed, so what follows is read where fewer tokens are left.
      have hend := ParseState.atEnd_of_check hcomma (by decide)
      obtain ⟨hclosed, hfewer⟩ := advance_lt hs hend hlt
      have hreturn : AgreeBelow n (do return x :: (← more)) (do return x :: (← more')) :=
        agree_bind hmore hmorePass fun _ => .refl _
      rw [ParseState.pass, if_pos hcomma]
      exact hreturn s.advance hclosed hfewer

/-- Where no token is left, an element is the last one. -/
theorem outcome_lastElement (x : α) (more : ParseM (List α)) {s : ParseState} (hs : s.Closed)
    (hlt : s.rest.length < 1) :
    (do if ← accept .comma then return x :: (← more) else return [x] :
      ParseM (List α)).outcome s = (.ok [x], s) := by
  have hcomma : s.check .comma = false :=
    ParseState.check_of_atEnd (atEnd_of_lt_one hs hlt) (by decide)
  rw [outcome_bind, outcome_accept, hcomma, ParseState.pass, hcomma]
  rfl

theorem exists_separated_nil (element : ParseM α) (budget : Nat) :
    ∃ last : α → ParseM (List α), separated element budget = element >>= last ∧
      ∀ x s, s.Closed → s.rest.length < 1 → (last x).outcome s = (.ok [x], s) := by
  cases budget with
  | zero => exact ⟨_, rfl, fun _ _ _ _ => rfl⟩
  | succ budget => exact ⟨_, rfl, fun x s hs hlt => outcome_lastElement x _ hs hlt⟩

theorem passing_separated {element : ParseM α} (h : GoesOn (fun _ => True) element)
    (budget : Nat) : Passing (separated element budget) :=
  (keeps_separated (keeps_accept .comma).onward h budget).passing

theorem agree_separated {element element' : ParseM α}
    (helement : AgreeBelow (n + 1) element element') (hgo : GoesOn (fun _ => True) element)
    {b b' : Nat} (hb : n ≤ b) (hb' : n ≤ b') :
    AgreeBelow (n + 1) (separated element b) (separated element' b') := by
  induction n generalizing b b' with
  | zero =>
      obtain ⟨last, hlast, hone⟩ := exists_separated_nil element b
      obtain ⟨last', hlast', hone'⟩ := exists_separated_nil element' b'
      rw [hlast, hlast']
      refine agree_bind helement hgo.passing fun x s hs hlt => ?_
      rw [hone x s hs hlt, hone' x s hs hlt]
  | succ n ih =>
      obtain ⟨k, rfl⟩ := Nat.exists_eq_add_of_lt hb
      obtain ⟨k', rfl⟩ := Nat.exists_eq_add_of_lt hb'
      have hmore : AgreeBelow (n + 1) (separated element (n + k)) (separated element' (n + k')) :=
        ih (helement.mono (by omega)) (by omega) (by omega)
      exact agree_separatedStep helement hgo.passing hmore (passing_separated hgo _)

theorem agree_separated_below {element element' : ParseM α}
    (helement : AgreeBelow n element element') (hgo : GoesOn (fun _ => True) element) {b b' : Nat}
    (hb : n ≤ b) (hb' : n ≤ b') :
    AgreeBelow n (separated element b) (separated element' b') := by
  cases n with
  | zero => exact fun s _ hlt => absurd hlt (Nat.not_lt_zero _)
  | succ n => exact agree_separated helement hgo (by omega) (by omega)

/-! ## Operators and operands -/

/-- One round of `binaryRest`, which goes on with `more`. -/
def binaryStep (level : Level) (operand : ParseM Expr) (more : Expr → ParseM Expr) (left : Expr) :
    ParseM Expr := do
  let t := (← get).current
  if level.operators.contains t.kind then
    let _ ← next
    let right ← operand
    more (.binary level left (.ofToken t) right)
  else
    return left

theorem agree_binaryStep (level : Level) {operand operand' : ParseM Expr}
    {more more' : Expr → ParseM Expr} (hoperand : AgreeBelow n operand operand')
    (hpass : Passing operand) (hmore : ∀ left, AgreeBelow n (more left) (more' left))
    (left : Expr) :
    AgreeBelow (n + 1) (binaryStep level operand more left)
      (binaryStep level operand' more' left) := by
  refine agree_get fun s hs hlt => ?_
  dsimp only
  split
  · rename_i hop
    refine agreeAt_next hs (ParseState.atEnd_of_operator hop) hlt fun _ => ?_
    exact agree_bind hoperand hpass fun right => hmore _
  · rfl

/-- Where no token is left there is no operator. -/
theorem outcome_binaryStep_nil (level : Level) (operand : ParseM Expr) (more : Expr → ParseM Expr)
    (left : Expr) {s : ParseState} (hs : s.Closed) (hlt : s.rest.length < 1) :
    (binaryStep level operand more left).outcome s = (.ok left, s) := by
  have hop : ¬ level.operators.contains s.current.kind := by
    intro hop
    exact absurd (atEnd_of_lt_one hs hlt) (by simp [ParseState.atEnd_of_operator hop])
  rw [binaryStep, outcome_bind, outcome_get]
  dsimp only
  rw [if_neg hop]
  rfl

theorem outcome_binaryRest_nil (level : Level) (operand : ParseM Expr) (budget : Nat) (left : Expr)
    {s : ParseState} (hs : s.Closed) (hlt : s.rest.length < 1) :
    (binaryRest level operand budget left).outcome s = (.ok left, s) := by
  cases budget with
  | zero => rfl
  | succ budget => exact outcome_binaryStep_nil level operand _ left hs hlt

theorem agree_binaryRest (level : Level) {operand operand' : ParseM Expr}
    (hoperand : AgreeBelow n operand operand') (hpass : Passing operand) {b b' : Nat}
    (hb : n ≤ b) (hb' : n ≤ b') (left : Expr) :
    AgreeBelow (n + 1) (binaryRest level operand b left) (binaryRest level operand' b' left) := by
  induction n generalizing b b' left with
  | zero =>
      intro s hs hlt
      rw [outcome_binaryRest_nil _ _ _ _ hs hlt, outcome_binaryRest_nil _ _ _ _ hs hlt]
  | succ n ih =>
      obtain ⟨k, rfl⟩ := Nat.exists_eq_add_of_lt hb
      obtain ⟨k', rfl⟩ := Nat.exists_eq_add_of_lt hb'
      exact agree_binaryStep level hoperand hpass (fun left =>
        ih (hoperand.mono (by omega)) (by omega) (by omega) left) left

theorem agree_levels (levels : List Level) {operand operand' : ParseM Expr}
    (hoperand : AgreeBelow (n + 1) operand operand') (hmoves : Moves Plain (fun _ => True) operand)
    {b b' : Nat} (hb : n ≤ b) (hb' : n ≤ b') :
    AgreeBelow (n + 1) (levels.foldr (binary b) operand) (levels.foldr (binary b') operand') := by
  induction levels with
  | nil => exact hoperand
  | cons level levels ih =>
      have hinner := (moves_levels b levels hmoves).keeps.passing
      exact agree_bind ih hinner fun left =>
        agree_binaryRest level (ih.mono (Nat.le_succ n)) hinner hb hb' left

/-! ## Expressions -/

section Expressions

variable {nested nested' : ParseM Expr} (hnested : AgreeBelow n nested nested')
  (hreads : OnlyReads (fun _ => True) nested) {b b' : Nat} (hb : n ≤ b) (hb' : n ≤ b')
include hnested hreads

section Calls

include hb hb'

theorem agree_arguments : AgreeBelow (n + 1) (arguments b nested) (arguments b' nested') := by
  have hargs := agree_separated_below hnested hreads.onward hb hb'
  refine agree_expect fun _ => ?_
  refine agree_get fun s hs hlt => ?_
  split
  · rfl
  · exact agree_bind hargs (passing_separated hreads.onward b) (fun _ => .refl _) s hs hlt

theorem agreeAt_call {s : ParseState} (hs : s.Closed) (hend : s.atEnd = false)
    (hlt : s.rest.length < n + 1) :
    (call b nested).outcome s = (call b' nested').outcome s := by
  refine agreeAt_next hs hend hlt fun t => ?_
  refine agree_bind (.refl _) (keeps_callee trivial).passing fun target => ?_
  have hargs := (agree_arguments hnested hreads hb hb').mono (Nat.le_succ n)
  exact agree_bind hargs (keeps_arguments hreads b).passing fun _ => .refl _

end Calls

theorem agreeAt_assignment {s : ParseState} (hs : s.Closed) (hend : s.atEnd = false)
    (hlt : s.rest.length < n + 1) :
    (assignment nested).outcome s = (assignment nested').outcome s := by
  refine agreeAt_next hs hend hlt fun t => ?_
  refine agree_bind (.refl _) (keeps_requireVariable _ trivial).passing fun _ => ?_
  refine agree_bind (.refl _) (keeps_expect _).passing fun _ => ?_
  exact agree_bind hnested hreads.passing fun _ => .refl _

theorem agreeAt_grouping {s : ParseState} (hs : s.Closed) (hend : s.atEnd = false)
    (hlt : s.rest.length < n + 1) :
    (grouping nested).outcome s = (grouping nested').outcome s := by
  refine agreeAt_next hs hend hlt fun t => ?_
  exact agree_bind hnested hreads.passing fun _ => .refl _

include hb hb'

theorem agree_primary : AgreeBelow (n + 1) (primary b nested) (primary b' nested') := by
  refine agree_get fun s hs hlt => ?_
  dsimp only
  split
  case h_6 hkind =>
    have hend := ParseState.atEnd_of_kind hkind (by decide)
    split
    · rw [outcome_bind, outcome_bind, agreeAt_call hnested hreads hb hb' hs hend hlt]
    · rfl
  case h_7 hkind =>
    have hend := ParseState.atEnd_of_kind hkind (by decide)
    split
    · rw [outcome_bind, outcome_bind, agreeAt_call hnested hreads hb hb' hs hend hlt]
    · rfl
  case h_8 hkind =>
    have hend := ParseState.atEnd_of_kind hkind (by decide)
    exact agreeAt_grouping hnested hreads hs hend hlt
  -- Nothing else reads inner expressions.
  all_goals rfl

end Expressions

/-- One round of `unary`, which goes on with `more`. -/
def unaryStep (budget : Nat) (nested more : ParseM Expr) : ParseM Expr := do
  let t := (← get).current
  if t.kind = .bang || t.kind = .minus then
    let _ ← next
    return .unary (.ofToken t) (← more)
  else
    primary budget nested

theorem agree_unaryStep {b b' : Nat} {nested nested' more more' : ParseM Expr}
    (hprimary : AgreeBelow (n + 1) (primary b nested) (primary b' nested'))
    (hmore : AgreeBelow n more more') (hpass : Passing more) :
    AgreeBelow (n + 1) (unaryStep b nested more) (unaryStep b' nested' more') := by
  refine agree_get fun s hs hlt => ?_
  dsimp only
  split
  · rename_i hsign
    refine agreeAt_next hs (ParseState.atEnd_of_sign hsign) hlt fun _ => ?_
    exact agree_bind hmore hpass fun _ => .refl _
  · exact hprimary s hs hlt

/-! ### Where no token is left -/

section Nothing

variable (budget : Nat) (nested : ParseM Expr)

theorem agree_primary_nil : AgreeBelow 1 (primary budget nested) noExpression := by
  intro s hs hlt
  have hkind : s.current.kind = .endOfInput := by
    simpa [ParseState.atEnd, ParseState.check] using atEnd_of_lt_one hs hlt
  rw [primary, outcome_bind, outcome_get]
  simp only [hkind]

theorem agree_unaryStep_nil (more : ParseM Expr) :
    AgreeBelow 1 (unaryStep budget nested more) noExpression := by
  intro s hs hlt
  rw [unaryStep, outcome_bind, outcome_get]
  dsimp only
  split
  · rename_i hsign
    exact absurd (atEnd_of_lt_one hs hlt) (by simp [ParseState.atEnd_of_sign hsign])
  · exact agree_primary_nil budget nested s hs hlt

theorem agree_unary_nil (signs : Nat) : AgreeBelow 1 (unary budget nested signs) noExpression := by
  cases signs with
  | zero => exact agree_primary_nil budget nested
  | succ signs => exact agree_unaryStep_nil budget nested (unary budget nested signs)

theorem agree_levels_nil (levels : List Level) {operand : ParseM Expr}
    (h : AgreeBelow 1 operand noExpression) :
    AgreeBelow 1 (levels.foldr (binary budget) operand) noExpression := by
  induction levels with
  | nil => exact h
  | cons level levels ih =>
      intro s hs hlt
      rw [List.foldr_cons, binary, outcome_bind, ih s hs hlt]
      rfl

theorem agree_expressionWith_nil : AgreeBelow 1 (expressionWith budget nested) noExpression := by
  intro s hs hlt
  have hname : s.check .identifier = false :=
    ParseState.check_of_atEnd (atEnd_of_lt_one hs hlt) (by decide)
  rw [expressionWith, outcome_bind, outcome_get]
  dsimp only
  rw [hname, Bool.false_and, if_neg Bool.false_ne_true]
  exact agree_levels_nil budget _ (agree_unary_nil budget nested budget) s hs hlt

theorem agree_expression_nil : AgreeBelow 1 (expression budget) noExpression := by
  cases budget with
  | zero => exact .refl _
  | succ budget => exact agree_expressionWith_nil _ _

end Nothing

/-! ### Whole expressions -/

section Whole

variable {nested nested' : ParseM Expr} (hreads : OnlyReads (fun _ => True) nested) {b b' : Nat}
include hreads

theorem agree_unary (hprimary : AgreeBelow (n + 1) (primary b nested) (primary b' nested'))
    {signs signs' : Nat} (hsigns : n ≤ signs) (hsigns' : n ≤ signs') :
    AgreeBelow (n + 1) (unary b nested signs) (unary b' nested' signs') := by
  induction n generalizing signs signs' with
  | zero =>
      intro s hs hlt
      rw [agree_unary_nil b nested signs s hs hlt, agree_unary_nil b' nested' signs' s hs hlt]
  | succ n ih =>
      obtain ⟨k, rfl⟩ := Nat.exists_eq_add_of_lt hsigns
      obtain ⟨k', rfl⟩ := Nat.exists_eq_add_of_lt hsigns'
      have hmore : AgreeBelow (n + 1) (unary b nested (n + k)) (unary b' nested' (n + k')) :=
        ih (hprimary.mono (by omega)) (by omega) (by omega)
      exact agree_unaryStep hprimary hmore (moves_unary hreads b _).keeps.passing

variable (hnested : AgreeBelow n nested nested') (hb : n ≤ b) (hb' : n ≤ b')
include hnested hb hb'

theorem agree_expressionWith :
    AgreeBelow (n + 1) (expressionWith b nested) (expressionWith b' nested') := by
  refine agree_get fun s hs hlt => ?_
  split
  · rename_i hname
    simp only [Bool.and_eq_true] at hname
    have hend := ParseState.atEnd_of_check hname.1 (by decide)
    rw [outcome_bind, outcome_bind, agreeAt_assignment hnested hreads hs hend hlt]
  · have hunary := agree_unary hreads (agree_primary hnested hreads hb hb') hb hb'
    exact agree_levels _ hunary (moves_unary hreads b b) hb hb' s hs hlt

end Whole

/-- Every budget from the number of tokens on gives the same expression. -/
theorem agree_expression {b b' : Nat} (hb : n ≤ b) (hb' : n ≤ b') :
    AgreeBelow (n + 1) (expression b) (expression b') := by
  induction n generalizing b b' with
  | zero =>
      intro s hs hlt
      rw [agree_expression_nil b s hs hlt, agree_expression_nil b' s hs hlt]
  | succ n ih =>
      obtain ⟨k, rfl⟩ := Nat.exists_eq_add_of_lt hb
      obtain ⟨k', rfl⟩ := Nat.exists_eq_add_of_lt hb'
      exact agree_expressionWith (keeps_expression _) (ih (by omega) (by omega)) (by omega)
        (by omega)

/-! ## Items -/

theorem agree_withCursor (c : Cursor) {x y : ParseM α} (h : AgreeBelow n x y) :
    AgreeBelow n (withCursor c x) (withCursor c y) := by
  intro s hs hlt
  rw [outcome_withCursor, outcome_withCursor, h { s with cursor := c } hs hlt]

theorem Passing.withCursor (c : Cursor) {x : ParseM α} (h : Passing x) :
    Passing (ParseM.withCursor c x) := by
  intro s
  obtain ⟨read, hread⟩ := h { s with cursor := c }
  exact ⟨read, hread.rest, hread.noEnd, hread.closing⟩

section Budgets

variable {b b' : Nat} (hb : n ≤ b) (hb' : n ≤ b')
include hb hb'

theorem agree_pattern (method : MethodId) :
    AgreeBelow (n + 1) (pattern b method) (pattern b' method) := by
  have hexpression := (agree_expression hb hb').mono (Nat.le_succ n)
  have hprimary := agree_primary hexpression (keeps_expression b) hb hb'
  have hvalue := agree_unary (keeps_expression b) hprimary hb hb'
  refine agree_get fun s hs hlt => ?_
  dsimp only
  split
  · rfl
  · exact agree_bind hvalue (moves_unary (keeps_expression b) b b).keeps.passing
      (fun _ => .refl _) s hs hlt

variable {s : ParseState} (hs : s.Closed) (hend : s.atEnd = false) (hlt : s.rest.length < n + 1)
include hs hend hlt

theorem agreeAt_methodDeclaration :
    (methodDeclaration b).outcome s = (methodDeclaration b').outcome s := by
  have htypes : AgreeBelow n (separated expectType b) (separated expectType b') :=
    agree_separated_below (.refl _) keeps_expectType.onward hb hb'
  refine agreeAt_next hs hend hlt fun t => ?_
  refine agree_bind (.refl _) (keeps_expect _).passing fun _ => ?_
  refine agree_bind (.refl _) keeps_expectType.passing fun _ => ?_
  refine agree_bind (.refl _) (keeps_expect _).passing fun _ => ?_
  exact agree_bind htypes (passing_separated keeps_expectType.onward b) fun _ => .refl _

theorem agreeAt_callStatement : (callStatement b).outcome s = (callStatement b').outcome s := by
  have hexpression := (agree_expression hb hb').mono (Nat.le_succ n)
  rw [callStatement, callStatement, outcome_bind, outcome_bind,
    agreeAt_call hexpression (keeps_expression b) hb hb' hs hend hlt]

end Budgets

section Blocks

variable {content content' : StateM ParseState (List Item)}
  (hcontent : ∀ s : ParseState, s.Closed → s.rest.length < n → content.run s = content'.run s)
  (hgo : ∀ s, Onward (fun _ => True) s (content.run s).2)
include hcontent hgo

theorem agree_block (construct : Construct) (line : Nat) :
    AgreeBelow n (block construct line content) (block construct line content') := by
  have hlift : AgreeBelow n (liftM content : ParseM (List Item)) (liftM content') := by
    intro s hs hlt
    rw [outcome_lift, outcome_lift, hcontent s hs hlt]
  exact agree_bind hlift (fun s => (hgo s).passed) fun _ => .refl _

omit hcontent in
theorem passing_block (construct : Construct) (line : Nat) :
    Passing (block construct line content) :=
  (keeps_block (L := fun _ => True) (fun s _ => hgo s) construct line trivial).passing

variable {b b' : Nat} (hb : n ≤ b) (hb' : n ≤ b')

section At

variable {s : ParseState} (hs : s.Closed) (hend : s.atEnd = false) (hlt : s.rest.length < n + 1)

include hs hend hlt in
theorem agreeAt_classDeclaration :
    (classDeclaration content).outcome s = (classDeclaration content').outcome s := by
  refine agreeAt_next hs hend hlt fun keyword => ?_
  refine agree_bind (.refl _) (keeps_expect _).passing fun name => ?_
  refine agree_get fun s hs hlt => ?_
  split
  · rename_i id scopes _
    rw [outcome_bind, outcome_bind, outcome_set]
    have hblock := agree_withCursor (.inClass id) (agree_block hcontent hgo .classDecl keyword.line)
    have hpass := (passing_block hgo .classDecl keyword.line).withCursor (.inClass id)
    exact agree_bind hblock hpass (fun _ => .refl _) { s with scopes } hs hlt
  · rfl

include hb hb' in
theorem agree_methodBodyRest (name : Ident) (method : MethodId) :
    AgreeBelow n (methodBodyRest b name method content)
      (methodBodyRest b' name method content') := by
  have hpatterns := agree_separated_below ((agree_pattern hb hb' method).mono (Nat.le_succ n))
    (keeps_pattern b method) hb hb'
  have hblock := agree_block hcontent hgo .methodBody name.line
  have hpass := passing_block hgo .methodBody name.line
  refine agree_bind (.refl _) (keeps_expect _).passing fun _ => ?_
  refine agree_get fun s hs hlt => ?_
  split
  · refine agree_bind (.refl _) (keeps_pure (L := fun _ => True) (R := Plain)
      (V := fun _ => True) trivial).passing (fun patterns => ?_) s hs hlt
    refine agree_bind (.refl _) (keeps_expect _).passing fun _ => ?_
    refine agree_bind (.refl _) keeps_expectDo.passing fun _ => ?_
    exact agree_bind hblock hpass fun _ => .refl _
  · refine agree_bind hpatterns (passing_separated (keeps_pattern b method) b)
      (fun patterns => ?_) s hs hlt
    refine agree_bind (.refl _) (keeps_expect _).passing fun _ => ?_
    refine agree_bind (.refl _) keeps_expectDo.passing fun _ => ?_
    exact agree_bind hblock hpass fun _ => .refl _

include hb hb' hs hend hlt

theorem agreeAt_conditional (construct : Construct) (make : Expr → List Item → Nat → Item) :
    (conditional b construct make content).outcome s =
      (conditional b' construct make content').outcome s := by
  refine agreeAt_next hs hend hlt fun keyword => ?_
  refine agree_bind ((agree_expression hb hb').mono (Nat.le_succ n)) (keeps_expression b).passing
    fun _ => ?_
  refine agree_bind (.refl _) keeps_expectDo.passing fun _ => ?_
  exact agree_bind (agree_block hcontent hgo construct keyword.line)
    (passing_block hgo construct keyword.line) fun _ => .refl _

theorem agreeAt_methodBody :
    (methodBody b content).outcome s = (methodBody b' content').outcome s := by
  refine agreeAt_next hs hend hlt fun t => ?_
  refine agree_get fun s hs hlt => ?_
  split
  · exact agree_withCursor _ (agree_methodBodyRest hcontent hgo hb hb' _ _) s hs hlt
  · rfl

end At

include hb hb'

theorem agree_bareStatement :
    AgreeBelow (n + 1) (bareStatement b content) (bareStatement b' content') := by
  have hexpr : AgreeBelow (n + 1) (do return Item.expr (← expression b))
      (do return Item.expr (← expression b')) :=
    agree_bind (agree_expression hb hb') (keeps_expression b).passing fun _ => .refl _
  refine agree_get fun s hs hlt => ?_
  dsimp only
  split
  · rename_i hkind
    have hend := ParseState.atEnd_of_kind hkind (by decide)
    exact agreeAt_conditional hcontent hgo hb hb' hs hend hlt _ _
  · rename_i hkind
    have hend := ParseState.atEnd_of_kind hkind (by decide)
    exact agreeAt_conditional hcontent hgo hb hb' hs hend hlt _ _
  · rename_i hkind
    have hend := ParseState.atEnd_of_kind hkind (by decide)
    split
    · split
      · exact agreeAt_methodBody hcontent hgo hb hb' hs hend hlt
      · exact agreeAt_callStatement hb hb' hs hend hlt
    · split
      · rw [outcome_bind, outcome_bind, agreeAt_assignment
          ((agree_expression hb hb').mono (Nat.le_succ n)) (keeps_expression b) hs hend hlt]
      · exact hexpr s hs hlt
  · rename_i hkind
    have hend := ParseState.atEnd_of_kind hkind (by decide)
    split
    · exact agreeAt_callStatement hb hb' hs hend hlt
    · exact hexpr s hs hlt
  · exact hexpr s hs hlt

theorem agree_item : AgreeBelow (n + 1) (item b content) (item b' content') := by
  refine agree_get fun s hs hlt => ?_
  split
  · rename_i hclass
    have hend := ParseState.atEnd_of_check hclass (by decide)
    exact agreeAt_classDeclaration hcontent hgo hs hend hlt
  · split
    · rename_i hname
      simp only [Bool.and_eq_true] at hname
      have hend := ParseState.atEnd_of_check hname.1 (by decide)
      exact agreeAt_methodDeclaration hb hb' hs hend hlt
    · split
      · rfl
      · have hpass := (moves_bareStatement (L := fun _ => True) (fun s _ => hgo s) b).keeps.passing
        exact agree_bind (agree_bareStatement hcontent hgo hb hb') hpass (fun _ => .refl _) s hs hlt

end Blocks

end ParseM

/-! ## Programs -/

section Programs

variable {n : Nat}

theorem agree_itemsStep {more more' : Bool → StateM ParseState (List Item)}
    (hmore : ∀ (inBlock : Bool) (s : ParseState), s.Closed → s.rest.length < n →
      (more inBlock).run s = (more' inBlock).run s)
    (hgo : ∀ inBlock s, Onward (fun _ => True) s ((more inBlock).run s).2) {b b' : Nat}
    (hb : n ≤ b) (hb' : n ≤ b') (inBlock : Bool) {s : ParseState} (hs : s.Closed)
    (hlt : s.rest.length < n + 1) :
    (itemsStep b more inBlock).run s = (itemsStep b' more' inBlock).run s := by
  rw [run_itemsStep, run_itemsStep]
  by_cases hstop : s.atEnd || (inBlock && s.check .kwEnd)
  · rw [if_pos hstop, if_pos hstop]
  · rw [if_neg hstop, if_neg hstop,
      ← ParseM.agree_item (fun s => hmore true s) (hgo true) hb hb' s hs hlt]
    -- Both go on from the same state, which is behind the round.
    have hend := atEnd_of_goesOn hstop
    have hround := onward_afterRound b (fun s _ => hgo true s) (.trivial s) hend
    have hfewer := afterRound_lt b (fun s _ => hgo true s) hs hend
    have hclosed := hround.closed hs
    unfold afterRound at hfewer hclosed
    rcases hout : (ParseM.item b (more true)).outcome s with ⟨e | i, s₁⟩
    · rw [hout] at hfewer hclosed
      exact hmore inBlock _ hclosed (by dsimp only at hfewer ⊢; omega)
    · rw [hout] at hfewer hclosed
      dsimp only at hfewer hclosed ⊢
      rw [hmore inBlock s₁ hclosed (by omega)]

/-- Every budget from the number of tokens on gives the same items. -/
theorem agree_parseItems {b b' : Nat} (hb : n ≤ b) (hb' : n ≤ b') (inBlock : Bool)
    {s : ParseState} (hs : s.Closed) (hlt : s.rest.length < n + 1) :
    (parseItems b inBlock).run s = (parseItems b' inBlock).run s := by
  induction n generalizing b b' inBlock s with
  | zero =>
      have hnil (budget : Nat) : (parseItems budget inBlock).run s = ([], s) := by
        cases budget with
        | zero => rfl
        | succ budget =>
            have hend := ParseM.atEnd_of_lt_one hs hlt
            rw [parseItems_succ, if_pos (by rw [hend, Bool.true_or])]
      rw [hnil b, hnil b']
  | succ n ih =>
      obtain ⟨k, rfl⟩ := Nat.exists_eq_add_of_lt hb
      obtain ⟨k', rfl⟩ := Nat.exists_eq_add_of_lt hb'
      refine agree_itemsStep (fun inBlock s hs hlt => ?_) (fun inBlock s => ?_) (by omega)
        (by omega) inBlock hs hlt
      · exact ih (by omega) (by omega) inBlock hs hlt
      · exact onward_parseItems _ inBlock s (.trivial s)

end Programs

end BlockLang
