/-
  BlockLang.Proofs.Parser.Progress

  Reading items always gets on.

  A reader of an item comes back to its place and goes onward, also when it fails.  Each
  round of reading items passes at least one token: an item that is read has one, and
  behind an error at least one is passed over.  So with a budget for all tokens, reading
  items stops at the end of the program or, inside a block, at an `end`.
-/
import BlockLang.Proofs.Parser.Conduct

namespace BlockLang

namespace ParseM

variable {α : Type} {L : Nat → Prop} {V : α → Prop}

/-! ## Items -/

theorem keeps_declare (line : Nat) (hline : L line)
    (add : ScopeTable → Cursor → Except ScopeError (α × ScopeTable)) :
    GoesOn L (declare line add) := by
  refine keeps_get fun s hs => ?_
  split
  · exact ⟨(Onward.refl s).withScopes _, trivial⟩
  · exact keeps_throw hline s hs

theorem keeps_pattern (budget : Nat) (method : MethodId) : GoesOn L (pattern budget method) := by
  refine keeps_get fun s hs => ?_
  refine keeps_ite ?_ ?_ s hs
  · refine keeps_bind keeps_next.onward fun t _ => ?_
    refine keeps_bind (V := fun _ => True) ?_ fun _ _ => keeps_pure trivial
    exact fun s _ => ⟨(Onward.refl s).withScopes _, trivial⟩
  · have hvalue := moves_unary (L := L) (keeps_expression budget) budget budget
    refine keeps_bind hvalue.keeps.onward fun _ _ => ?_
    exact keeps_ite (keeps_pure trivial) (keeps_throw hs.current)

theorem keeps_withCursor (c : Cursor) {read : ParseM α} (h : Keeps (Onward L) L V read) :
    Keeps (Onward L) L V (withCursor c read) := by
  intro s hs
  obtain ⟨hstep, hresult⟩ := h { s with cursor := c } ⟨hs.rest, hs.closing⟩
  exact ⟨hstep.withCursor, hresult⟩

section Statements

variable {s : ParseState} (hs : s.LinesIn L)
include hs

theorem movesAt_methodDeclaration (budget : Nat) (hend : s.atEnd = false) :
    MovesAt (Paying L) L (methodDeclaration budget) s := by
  have htypes : OnlyReads L (separated expectType budget) :=
    keeps_separated (keeps_accept _) keeps_expectType budget
  refine movesAt_next_paying hs hend fun t ht => ?_
  refine keeps_bind (keeps_expect _).onward fun _ _ => ?_
  refine keeps_bind keeps_expectType.onward fun _ _ => ?_
  refine keeps_bind (keeps_expect _).onward fun _ _ => ?_
  refine keeps_bind htypes.onward fun _ _ => ?_
  refine keeps_bind (keeps_declare (Ident.ofToken t).line ht _) fun _ _ => ?_
  exact keeps_bind (keeps_accept _).onward fun _ _ => keeps_pure trivial

theorem movesAt_varDeclaration (hend : s.atEnd = false) :
    MovesAt (Paying L) L varDeclaration s := by
  refine movesAt_next_paying hs hend fun t ht => ?_
  refine keeps_bind (keeps_expect _).onward fun _ _ => ?_
  refine keeps_bind keeps_expectType.onward fun _ _ => ?_
  refine keeps_bind (keeps_declare (Ident.ofToken t).line ht _) fun _ _ => ?_
  exact keeps_bind (keeps_accept _).onward fun _ _ => keeps_pure trivial

theorem movesAt_callStatement (budget : Nat) (hend : s.atEnd = false) :
    MovesAt Plain L (callStatement budget) s :=
  movesAt_bind hs (movesAt_call (keeps_expression budget) hs budget hend) fun _ =>
    keeps_pure trivial

end Statements

section Blocks

variable {content : StateM ParseState (List Item)}
  (hcontent : ∀ s, s.LinesIn L → Onward L s (content.run s).2)
include hcontent

theorem keeps_block (construct : Construct) (line : Nat) (hline : L line) :
    GoesOn L (block construct line content) := by
  refine keeps_bind (V := fun _ => True) ?_ fun body _ => ?_
  · exact fun s hs => ⟨hcontent s hs, trivial⟩
  · refine keeps_bind (keeps_accept _).onward fun _ _ => ?_
    exact keeps_ite (keeps_pure trivial) (keeps_throw hline)

theorem keeps_methodBodyRest (budget : Nat) (name : Ident) (hname : L name.line)
    (method : MethodId) : GoesOn L (methodBodyRest budget name method content) := by
  refine keeps_bind (keeps_expect _).onward fun _ _ => ?_
  refine keeps_get fun s hs => ?_
  have hpatterns := keeps_separated (keeps_accept (L := L) .comma).onward
    (keeps_pattern budget method) budget
  refine keeps_ite (keeps_bind (keeps_pure (V := fun _ => True) trivial) fun patterns _ => ?_)
    (keeps_bind hpatterns fun patterns _ => ?_) s hs
  -- What follows the parameters does not depend on whether there are any.
  all_goals
    refine keeps_bind (keeps_expect _).onward fun _ _ => ?_
    refine keeps_bind keeps_expectDo.onward fun _ _ => ?_
    refine keeps_bind (keeps_block hcontent _ _ hname) fun _ _ => ?_
    refine keeps_get fun s _ => ?_
    exact ⟨(Onward.refl s).withScopes _, trivial⟩

section At

variable {s : ParseState} (hs : s.LinesIn L)
include hs

theorem movesAt_classDeclaration (hend : s.atEnd = false) :
    MovesAt (Paying L) L (classDeclaration content) s := by
  refine movesAt_next_paying hs hend fun keyword hkeyword => ?_
  refine keeps_bind (keeps_expect _).onward fun name hname => ?_
  refine keeps_get fun s hs => ?_
  split
  · rename_i id scopes _
    refine keepsAt_bind hs (V := fun _ => True) ?_ fun _ _ => ?_
    · exact ⟨(Onward.refl s).withScopes scopes, trivial⟩
    · have hblock := keeps_block hcontent .classDecl _ hkeyword
      exact keeps_bind (keeps_withCursor _ hblock) fun _ _ => keeps_pure trivial
  · refine keepsAt_bind hs (V := fun _ => True) ?_ fun _ _ => ?_
    · exact ⟨(Plain.skipBlock s).onward, trivial⟩
    · exact keeps_throw hname

theorem movesAt_conditional (budget : Nat) (construct : Construct)
    (make : Expr → List Item → Nat → Item) (hend : s.atEnd = false) :
    MovesAt (Paying L) L (conditional budget construct make content) s := by
  refine movesAt_next_paying hs hend fun keyword hkeyword => ?_
  refine keeps_bind (keeps_expression budget).onward fun _ _ => ?_
  refine keeps_bind keeps_expectDo.onward fun _ _ => ?_
  exact keeps_bind (keeps_block hcontent _ _ hkeyword) fun _ _ => keeps_pure trivial

theorem movesAt_methodBody (budget : Nat) (hend : s.atEnd = false) :
    MovesAt (Paying L) L (methodBody budget content) s := by
  refine movesAt_next_paying hs hend fun t ht => ?_
  refine keeps_get fun s hs => ?_
  split
  · exact keeps_withCursor _ (keeps_methodBodyRest hcontent budget (.ofToken t) ht _) s hs
  · refine keepsAt_bind hs (V := fun _ => True) ?_ fun _ _ => ?_
    · exact ⟨(Plain.skipMethodBody s).onward, trivial⟩
    · exact keeps_throw (L := L) ht

end At

theorem moves_bareStatement (budget : Nat) :
    Moves (Paying L) L (bareStatement budget content) := by
  intro s hs
  have hexpr : MovesAt (Paying L) L (do return Item.expr (← expression budget)) s :=
    (movesAt_bind hs (moves_expression budget s hs) fun _ => keeps_pure trivial).paying
  refine movesAt_get ?_
  dsimp only
  split
  · rename_i hkind
    exact movesAt_conditional hcontent hs budget _ _ (ParseState.atEnd_of_kind hkind (by decide))
  · rename_i hkind
    exact movesAt_conditional hcontent hs budget _ _ (ParseState.atEnd_of_kind hkind (by decide))
  · rename_i hkind
    have hend := ParseState.atEnd_of_kind hkind (by decide)
    split
    · split
      · exact movesAt_methodBody hcontent hs budget hend
      · exact (movesAt_callStatement hs budget hend).paying
    · split
      · have hassign := movesAt_assignment (keeps_expression budget) hs hend
        exact (movesAt_bind hs hassign fun _ => keeps_pure trivial).paying
      · exact hexpr
  · rename_i hkind
    split
    · exact (movesAt_callStatement hs budget (ParseState.atEnd_of_kind hkind (by decide))).paying
    · exact hexpr
  · exact hexpr

/-- Reading an item comes back to its place and pays for its error; a token is passed if it
    succeeds. -/
theorem moves_item (budget : Nat) : Moves (Paying L) L (item budget content) := by
  intro s hs
  refine movesAt_get ?_
  split
  · rename_i hclass
    exact movesAt_classDeclaration hcontent hs (ParseState.atEnd_of_check hclass (by decide))
  · split
    · rename_i hname
      simp only [Bool.and_eq_true] at hname
      exact movesAt_methodDeclaration hs budget (ParseState.atEnd_of_check hname.1 (by decide))
    · split
      · rename_i hname
        simp only [Bool.and_eq_true] at hname
        exact movesAt_varDeclaration hs (ParseState.atEnd_of_check hname.1 (by decide))
      · refine movesAt_bind hs (moves_bareStatement hcontent budget s hs) fun _ => ?_
        exact keeps_bind (keeps_accept _).paying fun _ _ => keeps_pure trivial

end Blocks

end ParseM

/-! ## Rounds -/

/-- Noting the error of an item and going on behind it goes onward. -/
theorem Paying.recover {L : Nat → Prop} {s s₁ : ParseState} {e : ParseError} (h : Paying L s s₁)
    (he : L e.line) (hend : s.atEnd = false) : Onward L s ((s₁.report e).synchronize s) := by
  have hplain := (s₁.report e).plain_synchronize s
  obtain ⟨read, hread⟩ := h.passed
  have hreport : s.Passes read (s₁.report e) := ⟨hread.rest, hread.noEnd, hread.closing⟩
  obtain ⟨read', hread'⟩ := hplain.passed
  refine ⟨⟨read ++ read', hreport.trans hread'⟩, hplain.cursor.trans h.cursor, ?_, ?_, ?_⟩
  · rw [hplain.errors]
    exact h.errors.trans (List.prefix_append _ _)
  · intro e' he'
    rw [hplain.errors] at he'
    rcases List.mem_append.mp he' with he' | he'
    · exact h.blamed e' he'
    · rw [List.mem_singleton.mp he']
      exact .inr he
  · intro hs
    have hlen : ((s₁.report e).synchronize s).errors.length = s₁.errors.length + 1 := by
      rw [hplain.errors]
      simp [ParseState.report]
    rcases h.spare hs with ⟨-, herrors⟩ | hlt
    · -- The reader did nothing: the error is paid for by the token that is passed now.
      have hlt := ParseState.synchronize_lt hreport hs hend
      rw [herrors] at hlen
      omega
    · have hle : (s₁.report e).rest.length = s₁.rest.length := rfl
      have hrest := hread'.length_eq
      omega

/-- The state behind one round of reading items. -/
def afterRound (budget : Nat) (content : StateM ParseState (List Item)) (s : ParseState) :
    ParseState :=
  match (ParseM.item budget content).outcome s with
  | (.ok _, s₁) => s₁
  | (.error e, s₁) => (s₁.report e).synchronize s

/-- Reading items goes on from behind each round. -/
theorem parseItems_round {budget : Nat} {inBlock : Bool} {s : ParseState}
    (hgo : ¬(s.atEnd || (inBlock && s.check .kwEnd))) :
    ((parseItems (budget + 1) inBlock).run s).2 =
      ((parseItems budget inBlock).run (afterRound (budget + 1) (parseItems budget true) s)).2 := by
  rw [parseItems_succ, if_neg hgo, afterRound]
  rcases (ParseM.item (budget + 1) (parseItems budget true)).outcome s with ⟨e | i, s₁⟩
  · rfl
  · rfl

theorem atEnd_of_goesOn {inBlock : Bool} {s : ParseState}
    (hgo : ¬(s.atEnd || (inBlock && s.check .kwEnd))) : s.atEnd = false := by
  simp only [Bool.or_eq_true, not_or, Bool.not_eq_true] at hgo
  exact hgo.1

section Rounds

variable {L : Nat → Prop} (budget : Nat) {content : StateM ParseState (List Item)} {s : ParseState}

theorem onward_afterRound (hcontent : ∀ s, s.LinesIn L → Onward L s (content.run s).2)
    (hs : s.LinesIn L) (hend : s.atEnd = false) : Onward L s (afterRound budget content s) := by
  obtain ⟨hstep, hresult⟩ := (ParseM.moves_item hcontent budget s hs).keepsAt
  unfold afterRound
  split
  · rename_i i s₁ hout
    rw [hout] at hstep
    exact hstep.toOnward
  · rename_i e s₁ hout
    rw [hout] at hstep hresult
    exact hstep.recover hresult hend

/-- Every round passes a token. -/
theorem afterRound_lt (hcontent : ∀ s, s.LinesIn (fun _ => True) →
    Onward (fun _ => True) s (content.run s).2) (hs : s.Closed) (hend : s.atEnd = false) :
    (afterRound budget content s).rest.length < s.rest.length := by
  have hitem := ParseM.moves_item hcontent budget s (.trivial s)
  unfold afterRound
  split
  · rename_i i s₁ hout
    exact hitem.fewer hs i s₁ hout
  · rename_i e s₁ hout
    have hstep := hitem.keepsAt.1
    rw [hout] at hstep
    obtain ⟨read, hread⟩ := hstep.passed
    have hreport : s.Passes read (s₁.report e) := ⟨hread.rest, hread.noEnd, hread.closing⟩
    exact ParseState.synchronize_lt hreport hs hend

end Rounds

/-- Reading items goes onward. -/
theorem onward_parseItems {L : Nat → Prop} (budget : Nat) (inBlock : Bool) (s : ParseState)
    (hs : s.LinesIn L) : Onward L s ((parseItems budget inBlock).run s).2 := by
  induction budget generalizing inBlock s with
  | zero => exact .refl s
  | succ budget ih =>
      by_cases hgo : s.atEnd || (inBlock && s.check .kwEnd)
      · rw [parseItems_succ, if_pos hgo]
        exact .refl s
      · rw [parseItems_round hgo]
        have hround := onward_afterRound (budget + 1) (fun s hs => ih true s hs) hs
          (atEnd_of_goesOn hgo)
        obtain ⟨read, hread⟩ := hround.passed
        exact hround.trans (ih inBlock _ (hs.passes hread))

/-- With a budget for all tokens, reading items stops where it has to. -/
theorem parseItems_stops (budget : Nat) (inBlock : Bool) (s : ParseState) (hs : s.Closed)
    (hbudget : s.rest.length ≤ budget) :
    let s' := ((parseItems budget inBlock).run s).2
    s'.atEnd || (inBlock && s'.check .kwEnd) := by
  induction budget generalizing s with
  | zero =>
      have hnil : s.rest = [] := List.length_eq_zero_iff.mp (Nat.le_zero.mp hbudget)
      have hend : s.atEnd := ParseState.atEnd_of_rest_nil hs hnil
      show s.atEnd || (inBlock && s.check .kwEnd)
      rw [hend, Bool.true_or]
  | succ budget ih =>
      by_cases hgo : s.atEnd || (inBlock && s.check .kwEnd)
      · rw [parseItems_succ, if_pos hgo]
        exact hgo
      · have hend := atEnd_of_goesOn hgo
        have hcontent : ∀ s : ParseState, s.LinesIn (fun _ => True) →
            Onward (fun _ => True) s ((parseItems budget true).run s).2 :=
          onward_parseItems budget true
        -- Every round passes a token, so the budget covers those that are left.
        have hround := onward_afterRound (budget + 1) hcontent (.trivial s) hend
        have hlt := afterRound_lt (budget + 1) hcontent hs hend
        rw [parseItems_round hgo]
        exact ih _ (hround.closed hs) (by omega)

end BlockLang
