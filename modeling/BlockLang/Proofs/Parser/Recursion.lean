/-
  BlockLang.Proofs.Parser.Recursion

  The recursion of the parser goes down in the number of tokens to be read.

  Readers that call themselves have a budget.  It is no more than a way to write the
  recursion down: what a reader hands to itself starts behind at least one more token, so
  from every state its result depends on its own results where fewer tokens are left, and
  on nothing else.  Every budget from the number of tokens on gives that result.
-/
import BlockLang.Proofs.Parser.Agreement

namespace BlockLang

/-- A function of states is made by `step` out of itself, and of itself it needs only what
    it gives where fewer tokens are left. -/
def Descends {ι β : Type} (step : (ι → ParseState → β) → ι → ParseState → β)
    (f : ι → ParseState → β) : Prop :=
  ∀ i s, s.Closed → ∀ g : ι → ParseState → β,
    (∀ j u, u.Closed → u.rest.length < s.rest.length → g j u = f j u) → step g i s = f i s

/-- A function with a budget that is handed down step by step descends, once it does not
    depend on the budget. -/
theorem descends_of_budget {ι β : Type} (step : Nat → (ι → ParseState → β) → ι → ParseState → β)
    (x : Nat → ι → ParseState → β)
    (hsucc : ∀ n, x (n + 1) = step (n + 1) (x n))
    (hnil : ∀ g i s, s.Closed → s.rest = [] → step 0 g i s = x 0 i s)
    (hbudget : ∀ n i s, s.Closed → s.rest.length ≤ n → x n i s = x s.rest.length i s)
    (hstep : ∀ n g, (∀ j u, u.Closed → u.rest.length < n + 1 → x n j u = g j u) →
      ∀ i s, s.Closed → s.rest.length < n + 2 → step (n + 1) (x n) i s = step (n + 1) g i s) :
    Descends (fun g i s => step s.rest.length g i s) (fun i s => x s.rest.length i s) := by
  intro i s hs g hg
  show step s.rest.length g i s = x s.rest.length i s
  cases hlen : s.rest.length with
  | zero => exact hnil g i s hs (List.length_eq_zero_iff.mp hlen)
  | succ n =>
      -- Where fewer tokens are left, the smaller budget suffices.
      rw [hsucc]
      refine (hstep n g (fun j u hu hlt => ?_) i s hs (by omega)).symm
      rw [hg j u hu (by omega)]
      exact hbudget n j u hu (by omega)

/-! ## The readers that call themselves -/

namespace ParseM

theorem descends_separated {α : Type} {element : ParseM α}
    (hgo : GoesOn (fun _ => True) element) :
    Descends (fun more (_ : Unit) s => (separatedStep element (more ())).outcome s)
      (fun _ s => (separated element s.rest.length).outcome s) := by
  refine descends_of_budget (fun _ more _ s => (separatedStep element (more ())).outcome s)
    (fun n _ s => (separated element n).outcome s)
    (fun _ => rfl) ?_ ?_ ?_
  · intro more _ s hs hrest
    have hlast : AgreeBelow 1 (separatedStep element (more ())) (separated element 0) :=
      agree_bind (.refl _) hgo.passing fun x _ hs hlt => outcome_lastElement x _ hs hlt
    exact hlast s hs (by simp [hrest])
  · intro n _ s hs hle
    exact agree_separated (.refl _) hgo hle (Nat.le_refl _) s hs (Nat.lt_succ_self _)
  · intro n more hmore _ s hs hlt
    exact agree_separatedStep (.refl _) hgo.passing (hmore ()) (passing_separated hgo n) s hs hlt

theorem descends_binaryRest (level : Level) {operand : ParseM Expr} (hpass : Passing operand) :
    Descends (fun more left s => (binaryStep level operand more left).outcome s)
      (fun left s => (binaryRest level operand s.rest.length left).outcome s) := by
  refine descends_of_budget (fun _ more left s => (binaryStep level operand more left).outcome s)
    (fun n left s => (binaryRest level operand n left).outcome s)
    (fun _ => rfl) ?_ ?_ ?_
  · intro more left s hs hrest
    exact outcome_binaryStep_nil level operand more left hs (by simp [hrest])
  · intro n left s hs hle
    exact agree_binaryRest level (.refl _) hpass hle (Nat.le_refl _) left s hs (Nat.lt_succ_self _)
  · intro n more hmore left s hs hlt
    exact agree_binaryStep level (.refl _) hpass hmore left s hs hlt

theorem descends_unary (budget : Nat) {nested : ParseM Expr}
    (hreads : OnlyReads (fun _ => True) nested) :
    Descends (fun more (_ : Unit) s => (unaryStep budget nested (more ())).outcome s)
      (fun _ s => (unary budget nested s.rest.length).outcome s) := by
  refine descends_of_budget (fun _ more _ s => (unaryStep budget nested (more ())).outcome s)
    (fun n _ s => (unary budget nested n).outcome s)
    (fun _ => rfl) ?_ ?_ ?_
  · intro more _ s hs hrest
    have hlt : s.rest.length < 1 := by simp [hrest]
    rw [agree_unaryStep_nil budget nested (more ()) s hs hlt,
      agree_unary_nil budget nested 0 s hs hlt]
  · intro n _ s hs hle
    exact agree_unary hreads (.refl _) hle (Nat.le_refl _) s hs (Nat.lt_succ_self _)
  · intro n more hmore _ s hs hlt
    exact agree_unaryStep (.refl _) (hmore ()) (moves_unary hreads budget n).keeps.passing s hs hlt

theorem descends_expression :
    Descends (fun nested (_ : Unit) s => (expressionWith s.rest.length (nested ())).outcome s)
      (fun _ s => (expression s.rest.length).outcome s) := by
  refine descends_of_budget (fun n nested _ s => (expressionWith n (nested ())).outcome s)
    (fun n _ s => (expression n).outcome s)
    (fun _ => rfl) ?_ ?_ ?_
  · intro nested _ s hs hrest
    exact agree_expressionWith_nil 0 (nested ()) s hs (by simp [hrest])
  · intro n _ s hs hle
    exact agree_expression hle (Nat.le_refl _) s hs (Nat.lt_succ_self _)
  · intro n nested hnested _ s hs hlt
    exact agree_expressionWith (keeps_expression n) (hnested ()) (Nat.le_refl _) (Nat.le_refl _) s
      hs hlt

end ParseM

theorem descends_parseItems :
    Descends (fun more inBlock s => (itemsStep s.rest.length more inBlock).run s)
      (fun inBlock s => (parseItems s.rest.length inBlock).run s) := by
  refine descends_of_budget (fun n more inBlock s => (itemsStep n more inBlock).run s)
    (fun n inBlock s => (parseItems n inBlock).run s)
    (fun _ => rfl) ?_ ?_ ?_
  · intro more inBlock s hs hrest
    have hend := ParseState.atEnd_of_rest_nil hs hrest
    rw [run_itemsStep, if_pos (by rw [hend, Bool.true_or])]
    rfl
  · intro n inBlock s hs hle
    exact agree_parseItems hle (Nat.le_refl _) inBlock hs (Nat.lt_succ_self _)
  · intro n more hmore inBlock s hs hlt
    exact agree_itemsStep hmore (fun inBlock s => onward_parseItems n inBlock s (.trivial s))
      (Nat.le_refl _) (Nat.le_refl _) inBlock hs hlt

end BlockLang
