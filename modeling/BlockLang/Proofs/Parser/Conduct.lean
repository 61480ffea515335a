/-
  BlockLang.Proofs.Parser.Conduct

  What every reader keeps to, whether it succeeds or fails.

  Readers of expressions pass tokens and change nothing else.  Readers of items also
  note errors and let the table grow.  Both pass tokens in front of the first
  end-of-input token only, come back to their place in the nesting of scopes and drop
  no error.  Errors are on lines of tokens that were still to be read, and every error
  has a token of its own that was passed: a reader of an item that stops behind its
  first token leaves one over for the error that it stops with.
-/
import BlockLang.Proofs.Parser.Outcome

namespace BlockLang

/-! ## Passing tokens -/

namespace ParseState

variable {s s₁ s₂ s' : ParseState}

/-- Whether the token behind all others ends the program, as it does in front of every
    list of tokens. -/
def Closed (s : ParseState) : Prop := s.closing.kind = .endOfInput

/-- Exactly the tokens `read` stand between two states of one program, and none of them
    ends it. -/
structure Passes (s : ParseState) (read : List Token) (s' : ParseState) : Prop where
  rest : s.rest = read ++ s'.rest
  noEnd : ∀ t ∈ read, t.kind ≠ .endOfInput
  closing : s'.closing = s.closing

namespace Passes

variable {read read' : List Token}

theorem refl (s : ParseState) : s.Passes [] s :=
  ⟨rfl, fun _ ht => absurd ht List.not_mem_nil, rfl⟩

theorem trans (h₁ : s.Passes read s₁) (h₂ : s₁.Passes read' s₂) :
    s.Passes (read ++ read') s₂ where
  rest := by rw [h₁.rest, h₂.rest, List.append_assoc]
  noEnd t ht := by
    rcases List.mem_append.mp ht with ht | ht
    · exact h₁.noEnd t ht
    · exact h₂.noEnd t ht
  closing := h₂.closing.trans h₁.closing

theorem length_eq (h : s.Passes read s') : s.rest.length = read.length + s'.rest.length := by
  rw [h.rest, List.length_append]

theorem closed (h : s.Passes read s') (hs : s.Closed) : s'.Closed := by
  unfold Closed
  rw [h.closing]
  exact hs

/-- Nothing is passed at the end of the program. -/
theorem eq_nil_of_atEnd (h : s.Passes read s') (hend : s.atEnd) : read = [] := by
  cases read with
  | nil => rfl
  | cons t read =>
      have hcurrent : s.current = t := by
        simp [current, peekAt, h.rest]
      have hkind : t.kind = .endOfInput := by
        rw [← hcurrent]
        simpa [atEnd, check] using hend
      exact absurd hkind (h.noEnd t List.mem_cons_self)

end Passes

theorem current_of_rest {t : Token} {rest : List Token} (h : s.rest = t :: rest) :
    s.current = t := by
  simp [current, peekAt, h]

/-- A step to the next token passes it or stands still. -/
theorem advance_cases (s : ParseState) : s.advance = s ∨ s.Passes [s.current] s.advance := by
  cases hrest : s.rest with
  | nil =>
      left
      simp only [advance, hrest]
  | cons t rest =>
      have hcurrent : s.current = t := current_of_rest hrest
      by_cases hkind : t.kind = .endOfInput
      · left
        simp only [advance, hrest, if_pos hkind]
      · right
        have hadvance : s.advance = { s with rest, lastLine := t.line } := by
          simp only [advance, hrest, if_neg hkind]
        rw [hadvance, hcurrent]
        refine ⟨hrest, ?_, rfl⟩
        intro t' ht'
        rw [List.mem_singleton.mp ht']
        exact hkind

/-- Behind the last token the program ends. -/
theorem atEnd_of_rest_nil (hs : s.Closed) (hrest : s.rest = []) : s.atEnd := by
  have hcurrent : s.current = s.closing := by simp [current, peekAt, hrest]
  rw [atEnd, check, hcurrent, decide_eq_true_eq]
  exact hs

/-- In front of the end, a step passes the next token. -/
theorem passes_advance (hs : s.Closed) (hend : s.atEnd = false) :
    s.Passes [s.current] s.advance := by
  cases hrest : s.rest with
  | nil => exact absurd (atEnd_of_rest_nil hs hrest) (by simp [hend])
  | cons t rest =>
      have hkind : t.kind ≠ .endOfInput := by
        rw [← current_of_rest hrest]
        simpa [atEnd, check] using hend
      rcases s.advance_cases with hsame | hpass
      · have hlen := congrArg (·.rest.length) hsame
        simp only [advance, hrest, if_neg hkind, List.length_cons] at hlen
        omega
      · exact hpass

theorem atEnd_of_check {kind : TokenKind} (h : s.check kind) (hkind : kind ≠ .endOfInput) :
    s.atEnd = false := by
  have hcurrent : s.current.kind = kind := by simpa [check] using h
  simp [atEnd, check, hcurrent, hkind]

theorem atEnd_of_kind {kind : TokenKind} (h : s.current.kind = kind) (hkind : kind ≠ .endOfInput) :
    s.atEnd = false :=
  atEnd_of_check (show s.check kind by simp [check, h]) hkind

theorem atEnd_of_sign (h : s.current.kind = .bang || s.current.kind = .minus) :
    s.atEnd = false := by
  simp only [Bool.or_eq_true, decide_eq_true_eq] at h
  rcases h with h | h
  · exact atEnd_of_kind h (by decide)
  · exact atEnd_of_kind h (by decide)

/-- The end of input is no operator. -/
theorem atEnd_of_operator {level : Level} (h : level.operators.contains s.current.kind) :
    s.atEnd = false := by
  refine atEnd_of_kind rfl fun hkind => ?_
  rw [hkind] at h
  cases level <;> exact absurd h (by decide)

theorem check_of_atEnd {kind : TokenKind} (h : s.atEnd) (hkind : kind ≠ .endOfInput) :
    s.check kind = false := by
  have hcurrent : s.current.kind = .endOfInput := by simpa [atEnd, check] using h
  simp [check, hcurrent, hkind.symm]

/-- A token of a kind that does not end the program is passed. -/
theorem passes_of_check {kind : TokenKind} (hs : s.Closed) (h : s.check kind)
    (hkind : kind ≠ .endOfInput) : s.Passes [s.current] s.advance :=
  passes_advance hs (atEnd_of_check h hkind)

/-- The tokens in front of the line of a failure that are passed over. -/
theorem exists_passes_synchronize (s start : ParseState) :
    ∃ read, s.Passes read (s.synchronize start) := by
  have hskip (s' : ParseState) : ∃ read, s'.Passes read
      { s' with rest := s'.rest.dropWhile fun t =>
          t.kind != .endOfInput && t.kind != .kwEnd && t.line == s'.lastLine } := by
    refine ⟨_, List.takeWhile_append_dropWhile.symm, ?_, rfl⟩
    intro t ht
    have := List.mem_takeWhile_imp ht
    simp only [Bool.and_eq_true, bne_iff_ne] at this
    exact this.1.1
  unfold synchronize
  split
  · obtain ⟨read, hread⟩ := hskip s.advance
    rcases s.advance_cases with hsame | hpass
    · rw [hsame] at hread ⊢
      exact ⟨read, hread⟩
    · exact ⟨_, hpass.trans hread⟩
  · exact hskip s

end ParseState

/-! ## Lines -/

/-- Whether all tokens that are still to be read, and the closing one, are on lines that
    `L` allows. -/
structure ParseState.LinesIn (L : Nat → Prop) (s : ParseState) : Prop where
  rest : ∀ t ∈ s.rest, L t.line
  closing : L s.closing.line

namespace ParseState.LinesIn

variable {L : Nat → Prop} {s s' : ParseState}

theorem current (h : s.LinesIn L) : L s.current.line := by
  cases hrest : s.rest with
  | nil =>
      have hcurrent : s.current = s.closing := by simp [ParseState.current, peekAt, hrest]
      rw [hcurrent]
      exact h.closing
  | cons t rest =>
      rw [current_of_rest hrest]
      exact h.rest t (by rw [hrest]; exact List.mem_cons_self)

theorem passes (h : s.LinesIn L) {read : List Token} (hpass : s.Passes read s') :
    s'.LinesIn L where
  rest t ht := h.rest t (by rw [hpass.rest]; exact List.mem_append_right read ht)
  closing := by
    rw [hpass.closing]
    exact h.closing

theorem trivial (s : ParseState) : s.LinesIn fun _ => True :=
  ⟨fun _ _ => True.intro, True.intro⟩

end ParseState.LinesIn

/-! ## In front of a list of tokens -/

namespace ParseState

variable (tokens : List Token)

@[simp] theorem ofTokens_scopes : (ofTokens tokens).scopes = .empty := by
  unfold ofTokens
  split
  · split <;> rfl
  · rfl

@[simp] theorem ofTokens_cursor : (ofTokens tokens).cursor = .global := by
  unfold ofTokens
  split
  · split <;> rfl
  · rfl

@[simp] theorem ofTokens_errors : (ofTokens tokens).errors = [] := by
  unfold ofTokens
  split
  · split <;> rfl
  · rfl

theorem ofTokens_closed : (ofTokens tokens).Closed := by
  unfold ofTokens
  split
  · split
    · assumption
    · rfl
  · rfl

/-- The tokens are those still to be read, with the closing one if it is among them. -/
theorem ofTokens_cases : (ofTokens tokens).rest = tokens ∨
    tokens = (ofTokens tokens).rest ++ [(ofTokens tokens).closing] := by
  unfold ofTokens
  split
  · rename_i t ht
    obtain ⟨front, rfl⟩ := List.getLast?_eq_some_iff.mp ht
    split
    · exact .inr (by simp)
    · exact .inl rfl
  · rename_i hnone
    exact .inl (List.getLast?_eq_none_iff.mp hnone).symm

theorem length_ofTokens_le : (ofTokens tokens).rest.length ≤ tokens.length := by
  rcases ofTokens_cases tokens with h | h
  · rw [h]
  · have hlen := congrArg List.length h
    rw [List.length_append] at hlen
    omega

/-- The tokens in front of the first one that ends the program. -/
theorem takeWhile_ofTokens :
    (ofTokens tokens).rest.takeWhile (·.kind != .endOfInput) =
      tokens.takeWhile (·.kind != .endOfInput) := by
  rcases ofTokens_cases tokens with h | h
  · rw [h]
  · have hclosed := ofTokens_closed tokens
    unfold Closed at hclosed
    conv_rhs => rw [h]
    rw [List.takeWhile_append]
    split
    · rename_i hall
      have hsame := (List.takeWhile_sublist _).eq_of_length hall
      simp [hsame, hclosed]
    · rfl

/-- Where reading ends, all tokens in front of the first end of input are passed. -/
theorem Passes.eq_takeWhile {tokens read : List Token} {s : ParseState}
    (h : (ofTokens tokens).Passes read s) (hend : s.atEnd) :
    read = tokens.takeWhile (·.kind != .endOfInput) := by
  have hkind : s.current.kind = .endOfInput := by simpa [atEnd, check] using hend
  have hrest : s.rest.takeWhile (·.kind != .endOfInput) = [] := by
    cases hrest : s.rest with
    | nil => rfl
    | cons t rest =>
        rw [current_of_rest hrest] at hkind
        exact List.takeWhile_cons_of_neg (by simp [hkind])
  rw [← takeWhile_ofTokens, h.rest, List.takeWhile_append_of_pos, hrest, List.append_nil]
  intro t ht
  exact bne_iff_ne.mpr (h.noEnd t ht)

/-- The closing token is on the line of the last one. -/
theorem linesIn_ofTokens {tokens : List Token} (hne : tokens ≠ []) :
    (ofTokens tokens).LinesIn fun line => ∃ t ∈ tokens, t.line = line := by
  have hlast : tokens.getLast? = some (tokens.getLast hne) := List.getLast?_eq_some_getLast hne
  have hmem := List.getLast_mem hne
  unfold ofTokens
  rw [hlast]
  dsimp only
  split
  · exact ⟨fun t ht => ⟨t, List.dropLast_subset _ ht, rfl⟩, ⟨_, hmem, rfl⟩⟩
  · exact ⟨fun t ht => ⟨t, ht, rfl⟩, ⟨_, hmem, rfl⟩⟩

end ParseState

/-! ## How states follow one another -/

/-- From the first state to the second one, tokens are passed and nothing else changes. -/
structure Plain (s s' : ParseState) : Prop where
  passed : ∃ read, s.Passes read s'
  cursor : s'.cursor = s.cursor
  scopes : s'.scopes = s.scopes
  errors : s'.errors = s.errors

/-- The second state is the first one or comes behind it in the same program, and the
    errors noted between them are on lines that `L` allows. -/
structure Onward (L : Nat → Prop) (s s' : ParseState) : Prop where
  passed : ∃ read, s.Passes read s'
  cursor : s'.cursor = s.cursor
  errors : s.errors <+: s'.errors
  blamed : ∀ e ∈ s'.errors, e ∈ s.errors ∨ L e.line
  /-- Each noted error has a passed token of its own. -/
  paid : s.Closed → s'.errors.length + s'.rest.length ≤ s.errors.length + s.rest.length

/-- The second state comes behind the first one, with a token to spare for one more error
    unless nothing was passed and noted at all. -/
structure Paying (L : Nat → Prop) (s s' : ParseState) : Prop extends Onward L s s' where
  spare : s.Closed → (s'.rest = s.rest ∧ s'.errors = s.errors) ∨
    s'.errors.length + s'.rest.length < s.errors.length + s.rest.length

/-- A relation between a state and those that a reader may lead to. -/
class Stepping (R : ParseState → ParseState → Prop) : Prop where
  refl : ∀ s, R s s
  trans : ∀ {s₁ s₂ s₃}, R s₁ s₂ → R s₂ s₃ → R s₁ s₃
  passed : ∀ {s s'}, R s s' → ∃ read, s.Passes read s'

namespace Plain

theorem refl (s : ParseState) : Plain s s := ⟨⟨[], .refl s⟩, rfl, rfl, rfl⟩

theorem trans {s₁ s₂ s₃ : ParseState} (h₁ : Plain s₁ s₂) (h₂ : Plain s₂ s₃) : Plain s₁ s₃ where
  passed := by
    obtain ⟨read, hread⟩ := h₁.passed
    obtain ⟨read', hread'⟩ := h₂.passed
    exact ⟨read ++ read', hread.trans hread'⟩
  cursor := h₂.cursor.trans h₁.cursor
  scopes := h₂.scopes.trans h₁.scopes
  errors := h₂.errors.trans h₁.errors

instance : Stepping Plain := ⟨refl, trans, Plain.passed⟩

theorem advance (s : ParseState) : Plain s s.advance := by
  refine ⟨?_, s.advance_cursor, s.advance_scopes, s.advance_errors⟩
  rcases s.advance_cases with hsame | hpass
  · rw [hsame]
    exact ⟨[], .refl s⟩
  · exact ⟨[s.current], hpass⟩

theorem pass (s : ParseState) (kind : TokenKind) : Plain s (s.pass kind) := by
  unfold ParseState.pass
  split
  · exact advance s
  · exact refl s

theorem closed {s s' : ParseState} (h : Plain s s') (hs : s.Closed) : s'.Closed := by
  obtain ⟨read, hread⟩ := h.passed
  exact hread.closed hs

theorem cons {t : Token} (ht : t.kind ≠ .endOfInput) (s : ParseState) (ts : List Token) :
    Plain { s with rest := t :: ts } { s with rest := ts, lastLine := t.line } :=
  ⟨⟨[t], rfl, List.forall_mem_singleton.mpr ht, rfl⟩, rfl, rfl, rfl⟩

theorem skipBlock_from (depth : Nat) (s : ParseState) (ts : List Token) :
    Plain { s with rest := ts } (s.skipBlock depth ts) := by
  -- Cases 4 and 5 are an `end` with no block and with a block open inside.
  fun_induction ParseState.skipBlock depth s ts with
  | case1 depth s => exact refl _
  | case2 depth s t ts hend => exact refl _
  | case3 depth s t ts hend s' hopen ih => exact (cons hend s ts).trans ih
  | case4 s t ts hend s' hopen hclose => exact cons hend s ts
  | case5 s t ts hend s' hopen hclose depth ih => exact (cons hend s ts).trans ih
  | case6 depth s t ts hend s' hopen hclose ih => exact (cons hend s ts).trans ih

theorem skipParens_from (depth : Nat) (s : ParseState) (ts : List Token) :
    Plain { s with rest := ts } (s.skipParens depth ts) := by
  -- Cases 4 to 6 are a closing parenthesis with none, one and more of them open.
  fun_induction ParseState.skipParens depth s ts with
  | case1 depth s => exact refl _
  | case2 depth s t ts hend => exact refl _
  | case3 depth s t ts hend s' hopen ih => exact (cons hend s ts).trans ih
  | case4 s t ts hend s' hopen hclose => exact cons hend s ts
  | case5 s t ts hend s' hopen hclose => exact cons hend s ts
  | case6 s t ts hend s' hopen hclose depth ih => exact (cons hend s ts).trans ih
  | case7 depth s t ts hend s' hopen hclose ih => exact (cons hend s ts).trans ih

/-- Passing over a block changes the tokens and the last line only. -/
theorem skipBlock (s : ParseState) : Plain s (s.skipBlock 0 s.rest) := skipBlock_from 0 s s.rest

theorem skipParens (s : ParseState) : Plain s (s.skipParens 0 s.rest) := skipParens_from 0 s s.rest

theorem skipMethodBody (s : ParseState) : Plain s s.skipMethodBody := by
  refine (skipParens s).trans ?_
  simp only [ParseState.skipMethodBody]
  split
  · exact (advance _).trans (skipBlock _)
  · exact skipBlock _

theorem onward {s s' : ParseState} {L : Nat → Prop} (h : Plain s s') : Onward L s s' where
  passed := h.passed
  cursor := h.cursor
  errors := by rw [h.errors]
  blamed e he := .inl (by rw [← h.errors]; exact he)
  paid _ := by
    obtain ⟨read, hread⟩ := h.passed
    have hlen := hread.length_eq
    rw [h.errors]
    omega

theorem paying {s s' : ParseState} {L : Nat → Prop} (h : Plain s s') : Paying L s s' where
  toOnward := h.onward
  spare _ := by
    obtain ⟨read, hread⟩ := h.passed
    cases read with
    | nil => exact .inl ⟨hread.rest.symm, h.errors⟩
    | cons t read =>
        have hlen := hread.length_eq
        rw [List.length_cons] at hlen
        rw [h.errors]
        exact .inr (by omega)

end Plain

namespace Onward

variable {L : Nat → Prop} {s s₁ s' : ParseState}

theorem refl (s : ParseState) : Onward L s s := (Plain.refl s).onward

theorem trans {s₁ s₂ s₃ : ParseState} (h₁ : Onward L s₁ s₂) (h₂ : Onward L s₂ s₃) :
    Onward L s₁ s₃ where
  passed := by
    obtain ⟨read, hread⟩ := h₁.passed
    obtain ⟨read', hread'⟩ := h₂.passed
    exact ⟨read ++ read', hread.trans hread'⟩
  cursor := h₂.cursor.trans h₁.cursor
  errors := h₁.errors.trans h₂.errors
  blamed e he := by
    rcases h₂.blamed e he with he | he
    · exact h₁.blamed e he
    · exact .inr he
  paid hs := by
    obtain ⟨read, hread⟩ := h₁.passed
    have hfirst := h₁.paid hs
    have hsecond := h₂.paid (hread.closed hs)
    omega

instance : Stepping (Onward L) := ⟨refl, trans, Onward.passed⟩

theorem closed (h : Onward L s s') (hs : s.Closed) : s'.Closed := by
  obtain ⟨read, hread⟩ := h.passed
  exact hread.closed hs

/-- Changing the table goes onward from wherever the state before it does. -/
theorem withScopes (h : Onward L s s') (scopes : ScopeTable) : Onward L s { s' with scopes } where
  passed := by
    obtain ⟨read, hread⟩ := h.passed
    exact ⟨read, hread.rest, hread.noEnd, hread.closing⟩
  cursor := h.cursor
  errors := h.errors
  blamed := h.blamed
  paid := h.paid

/-- Reading at another place and coming back goes onward. -/
theorem withCursor {c : Cursor} (h : Onward L { s with cursor := c } s') :
    Onward L s { s' with cursor := s.cursor } where
  passed := by
    obtain ⟨read, hread⟩ := h.passed
    exact ⟨read, hread.rest, hread.noEnd, hread.closing⟩
  cursor := rfl
  errors := h.errors
  blamed := h.blamed
  paid := h.paid

/-- At the end of the program nothing is passed and no error is noted. -/
theorem eq_of_atEnd (h : Onward L s s') (hs : s.Closed) (hend : s.atEnd) :
    s'.rest = s.rest ∧ s'.errors = s.errors := by
  obtain ⟨read, hread⟩ := h.passed
  have hnil : read = [] := hread.eq_nil_of_atEnd hend
  have hrest : s'.rest = s.rest := by
    rw [hread.rest, hnil, List.nil_append]
  refine ⟨hrest, (h.errors.eq_of_length_le ?_).symm⟩
  have hpaid := h.paid hs
  rw [hrest] at hpaid
  omega

end Onward

namespace Paying

variable {L : Nat → Prop} {s s₁ s' : ParseState}

theorem trans {s₁ s₂ s₃ : ParseState} (h₁ : Paying L s₁ s₂) (h₂ : Paying L s₂ s₃) :
    Paying L s₁ s₃ where
  toOnward := h₁.toOnward.trans h₂.toOnward
  spare hs := by
    have hpaid := h₂.paid (h₁.closed hs)
    rcases h₁.spare hs with ⟨hrest, herrors⟩ | hlt
    · rw [← hrest, ← herrors]
      exact h₂.spare (h₁.closed hs)
    · exact .inr (by omega)

instance : Stepping (Paying L) :=
  ⟨fun s => (Plain.refl s).paying, trans, fun h => h.passed⟩

/-- What goes onward behind a token pays. -/
theorem of_advance (h : Onward L s.advance s') : Paying L s s' where
  toOnward := (Plain.advance s).onward.trans h
  spare hs := by
    cases hend : s.atEnd with
    | true => exact .inl (((Plain.advance s).onward.trans h).eq_of_atEnd hs hend)
    | false =>
        have hpass := ParseState.passes_advance hs hend
        have hlen := hpass.length_eq
        have hpaid := h.paid (hpass.closed hs)
        rw [s.advance_errors] at hpaid
        rw [List.length_singleton] at hlen
        exact .inr (by omega)

end Paying

namespace ParseState

variable {L : Nat → Prop} {s s₁ : ParseState}

theorem plain_synchronize (s start : ParseState) : Plain s (s.synchronize start) := by
  refine ⟨s.exists_passes_synchronize start, ?_, ?_, ?_⟩
  all_goals
    unfold synchronize
    split
    · simp
    · rfl

/-- Going on behind an error that stopped a reader passes at least one token. -/
theorem synchronize_lt {read : List Token} (h : s.Passes read s₁) (hs : s.Closed)
    (hend : s.atEnd = false) : (s₁.synchronize s).rest.length < s.rest.length := by
  have hlen := h.length_eq
  obtain ⟨read', hread'⟩ := s₁.exists_passes_synchronize s
  have hlen' := hread'.length_eq
  by_cases hsame : s₁.rest.length = s.rest.length
  · -- Nothing was passed, so the token in front of the reader is passed now.
    have hnil : read = [] := List.length_eq_zero_iff.mp (by omega)
    have hrest : s₁.rest = s.rest := by
      rw [h.rest, hnil, List.nil_append]
    have hcurrent : s₁.current = s.current := by
      rw [current, current, peekAt, peekAt, hrest, h.closing]
    have hend₁ : s₁.atEnd = false := by
      rw [← hend, atEnd, atEnd, check, check, hcurrent]
    have hpass := (passes_advance (h.closed hs) hend₁).length_eq
    have hdrop : (s₁.synchronize s).rest.length ≤ s₁.advance.rest.length := by
      unfold synchronize
      rw [if_pos hsame]
      exact (List.dropWhile_sublist _).length_le
    rw [List.length_singleton] at hpass
    omega
  · omega

end ParseState

/-! ## Readers that keep to a relation -/

namespace ParseM

variable {α β : Type} {R : ParseState → ParseState → Prop} {L : Nat → Prop} {V : α → Prop}
  {W : β → Prop}

/-- Whether a result is one that `V` allows or an error on a line that `L` allows. -/
def Fair (L : Nat → Prop) (V : α → Prop) : Except ParseError α → Prop
  | .ok a => V a
  | .error e => L e.line

/-- From this state a reader leads to one that `R` relates to it, with a fair result. -/
def KeepsAt (R : ParseState → ParseState → Prop) (L : Nat → Prop) (V : α → Prop) (x : ParseM α)
    (s : ParseState) : Prop :=
  R s (x.outcome s).2 ∧ Fair L V (x.outcome s).1

/-- A reader that does so from every state on lines that `L` allows. -/
def Keeps (R : ParseState → ParseState → Prop) (L : Nat → Prop) (V : α → Prop) (x : ParseM α) :
    Prop :=
  ∀ s, s.LinesIn L → KeepsAt R L V x s

/-- A reader that passes tokens and changes nothing else. -/
abbrev OnlyReads (L : Nat → Prop) (x : ParseM α) : Prop := Keeps Plain L (fun _ => True) x

/-- A reader that goes onward. -/
abbrev GoesOn (L : Nat → Prop) (x : ParseM α) : Prop := Keeps (Onward L) L (fun _ => True) x

theorem Keeps.onward {x : ParseM α} (h : Keeps Plain L V x) : Keeps (Onward L) L V x :=
  fun s hs => ⟨(h s hs).1.onward, (h s hs).2⟩

theorem Keeps.paying {x : ParseM α} (h : Keeps Plain L V x) : Keeps (Paying L) L V x :=
  fun s hs => ⟨(h s hs).1.paying, (h s hs).2⟩

section Steps

variable [Stepping R]

theorem keeps_pure {a : α} (ha : V a) : Keeps R L V (pure a : ParseM α) :=
  fun s _ => ⟨Stepping.refl s, ha⟩

theorem keeps_throw {e : ParseError} (he : L e.line) : Keeps R L V (throw e : ParseM α) :=
  fun s _ => ⟨Stepping.refl s, he⟩

theorem keepsAt_bind {x : ParseM α} {f : α → ParseM β} {s : ParseState} (hs : s.LinesIn L)
    (hx : KeepsAt R L V x s) (hf : ∀ a, V a → Keeps R L W (f a)) : KeepsAt R L W (x >>= f) s := by
  obtain ⟨hstep, hresult⟩ := hx
  unfold KeepsAt
  rw [outcome_bind]
  rcases hout : x.outcome s with ⟨e | a, s₁⟩
  · rw [hout] at hstep hresult
    exact ⟨hstep, hresult⟩
  · rw [hout] at hstep hresult
    obtain ⟨read, hread⟩ := Stepping.passed hstep
    obtain ⟨hstep', hresult'⟩ := hf a hresult s₁ (hs.passes hread)
    exact ⟨Stepping.trans hstep hstep', hresult'⟩

theorem keeps_bind {x : ParseM α} {f : α → ParseM β} (hx : Keeps R L V x)
    (hf : ∀ a, V a → Keeps R L W (f a)) : Keeps R L W (x >>= f) :=
  fun s hs => keepsAt_bind hs (hx s hs) hf

end Steps

/-- A step that looks at the state first keeps to a relation if it does so from that
    state. -/
theorem keeps_get {f : ParseState → ParseM β}
    (hf : ∀ s, s.LinesIn L → KeepsAt R L W (f s) s) : Keeps R L W (get >>= f) := by
  intro s hs
  unfold KeepsAt
  rw [outcome_bind, outcome_get]
  exact hf s hs

theorem keeps_ite {c : Prop} [Decidable c] {x y : ParseM α} (hx : Keeps R L V x)
    (hy : Keeps R L V y) : Keeps R L V (if c then x else y) := by
  split
  · exact hx
  · exact hy

theorem keeps_next : Keeps Plain L (fun t => L t.line) next :=
  fun s hs => ⟨.advance s, hs.current⟩

theorem keeps_accept (kind : TokenKind) : OnlyReads L (accept kind) := by
  intro s _
  unfold KeepsAt
  rw [outcome_accept]
  exact ⟨.pass s kind, trivial⟩

theorem keeps_unexpected (expected : Expected) : Keeps Plain L V (unexpected expected : ParseM α) :=
  fun s hs => ⟨.refl s, hs.current⟩

theorem keeps_expect (expected : Expected) :
    Keeps Plain L (fun t => L t.line) (expect expected) := by
  refine keeps_get fun s hs => ?_
  split
  · exact keeps_next s hs
  · exact keeps_unexpected expected s hs

theorem keeps_expectDo : OnlyReads L expectDo := by
  refine keeps_get fun s hs => ?_
  split
  · exact keeps_bind keeps_next (fun _ _ => keeps_pure trivial) s hs
  · exact keeps_unexpected .blockStart s hs

theorem keeps_expectType : OnlyReads L expectType :=
  keeps_bind (keeps_expect .typeName) fun _ _ => keeps_pure trivial

theorem keeps_separated [Stepping R] {element : ParseM α}
    (haccept : Keeps R L (fun _ => True) (accept .comma))
    (h : Keeps R L (fun _ => True) element) (budget : Nat) :
    Keeps R L (fun _ => True) (separated element budget) := by
  induction budget with
  | zero => exact keeps_bind h fun _ _ => keeps_pure trivial
  | succ budget ih =>
      refine keeps_bind h fun x _ => ?_
      refine keeps_bind haccept fun more _ => ?_
      refine keeps_ite ?_ (keeps_pure trivial)
      exact keeps_bind ih fun _ _ => keeps_pure trivial

/-! ### Readers that pass a token -/

/-- From this state a reader keeps to a relation, and if it succeeds it has passed a
    token. -/
structure MovesAt (R : ParseState → ParseState → Prop) (L : Nat → Prop) (x : ParseM α)
    (s : ParseState) : Prop where
  keepsAt : KeepsAt R L (fun _ => True) x s
  fewer : s.Closed → ∀ a s', x.outcome s = (.ok a, s') → s'.rest.length < s.rest.length

/-- A reader that does so from every state on lines that `L` allows. -/
def Moves (R : ParseState → ParseState → Prop) (L : Nat → Prop) (x : ParseM α) : Prop :=
  ∀ s, s.LinesIn L → MovesAt R L x s

theorem Moves.keeps {x : ParseM α} (h : Moves R L x) : Keeps R L (fun _ => True) x :=
  fun s hs => (h s hs).keepsAt

theorem MovesAt.paying {x : ParseM α} {s : ParseState} (h : MovesAt Plain L x s) :
    MovesAt (Paying L) L x s :=
  ⟨⟨h.keepsAt.1.paying, h.keepsAt.2⟩, h.fewer⟩

theorem movesAt_get {f : ParseState → ParseM β} {s : ParseState} (hf : MovesAt R L (f s) s) :
    MovesAt R L (get >>= f) s :=
  ⟨hf.keepsAt, hf.fewer⟩

/-- What follows a reader that passes a token may stand still. -/
theorem movesAt_bind [Stepping R] {x : ParseM α} {f : α → ParseM β} {s : ParseState}
    (hs : s.LinesIn L) (hx : MovesAt R L x s) (hf : ∀ a, Keeps R L (fun _ => True) (f a)) :
    MovesAt R L (x >>= f) s := by
  refine ⟨keepsAt_bind hs hx.keepsAt fun a _ => hf a, fun hclosed b s' h => ?_⟩
  obtain ⟨a, s₁, ha, hb⟩ := outcome_bind_ok.mp h
  have hfewer := hx.fewer hclosed a s₁ ha
  have hstep := hx.keepsAt.1
  rw [ha] at hstep
  obtain ⟨read, hread⟩ := Stepping.passed hstep
  have hstep' := (hf a s₁ (hs.passes hread)).1
  rw [hb] at hstep'
  obtain ⟨read', hread'⟩ := Stepping.passed hstep'
  have hlen : s₁.rest.length = read'.length + s'.rest.length := hread'.length_eq
  omega

/-- A reader that starts with a token passes it, in front of the end. -/
theorem movesAt_next {R' : ParseState → ParseState → Prop} [Stepping R'] {f : Token → ParseM α}
    {s : ParseState} (hs : s.LinesIn L) (hend : s.atEnd = false)
    (hR : ∀ {s'}, R' s.advance s' → R s s')
    (hf : ∀ t, L t.line → Keeps R' L (fun _ => True) (f t)) : MovesAt R L (next >>= f) s := by
  obtain ⟨read, hread⟩ := (Plain.advance s).passed
  obtain ⟨hstep, hresult⟩ := hf s.current hs.current s.advance (hs.passes hread)
  have hout : (next >>= f).outcome s = (f s.current).outcome s.advance := by
    rw [outcome_bind, outcome_next]
  refine ⟨⟨?_, ?_⟩, fun hclosed a s' h => ?_⟩
  · rw [hout]
    exact hR hstep
  · rw [hout]
    exact hresult
  · rw [hout] at h
    rw [h] at hstep
    obtain ⟨read', hread'⟩ := Stepping.passed hstep
    have hlen : s.advance.rest.length = read'.length + s'.rest.length := hread'.length_eq
    have hpass := (ParseState.passes_advance hclosed hend).length_eq
    rw [List.length_singleton] at hpass
    omega

/-- A reader of an expression that starts with a token. -/
theorem movesAt_next_plain {f : Token → ParseM α} {s : ParseState} (hs : s.LinesIn L)
    (hend : s.atEnd = false) (hf : ∀ t, L t.line → OnlyReads L (f t)) :
    MovesAt Plain L (next >>= f) s :=
  movesAt_next hs hend (Plain.advance s).trans hf

/-- A reader of an item that starts with a token. -/
theorem movesAt_next_paying {f : Token → ParseM α} {s : ParseState} (hs : s.LinesIn L)
    (hend : s.atEnd = false) (hf : ∀ t, L t.line → GoesOn L (f t)) :
    MovesAt (Paying L) L (next >>= f) s :=
  movesAt_next hs hend Paying.of_advance hf

/-! ### Expressions -/

section Expressions

variable {nested : ParseM Expr} (h : OnlyReads L nested) {s : ParseState} (hs : s.LinesIn L)

theorem keeps_binaryRest (level : Level) {operand : ParseM Expr} (h : OnlyReads L operand)
    (budget : Nat) (left : Expr) : OnlyReads L (binaryRest level operand budget left) := by
  induction budget generalizing left with
  | zero => exact keeps_pure trivial
  | succ budget ih =>
      refine keeps_get fun s hs => ?_
      refine keeps_ite ?_ (keeps_pure trivial) s hs
      refine keeps_bind keeps_next fun _ _ => ?_
      exact keeps_bind h fun _ _ => ih _

theorem moves_binary (budget : Nat) (level : Level) {operand : ParseM Expr}
    (h : Moves Plain L operand) : Moves Plain L (binary budget level operand) :=
  fun s hs => movesAt_bind hs (h s hs) fun left => keeps_binaryRest level h.keeps budget left

theorem moves_levels (budget : Nat) (levels : List Level) {operand : ParseM Expr}
    (h : Moves Plain L operand) : Moves Plain L (levels.foldr (binary budget) operand) := by
  induction levels with
  | nil => exact h
  | cons level levels ih => exact moves_binary budget level ih

include h in
theorem keeps_arguments (budget : Nat) : OnlyReads L (arguments budget nested) := by
  have hclose (args : List Expr) : OnlyReads L (do let _ ← expect .rightParen; return args) :=
    keeps_bind (keeps_expect _) fun _ _ => keeps_pure trivial
  refine keeps_bind (keeps_expect _) fun _ _ => ?_
  refine keeps_get fun s hs => ?_
  refine keeps_ite ?_ ?_ s hs
  · exact keeps_bind (keeps_pure (V := fun _ => True) trivial) fun args _ => hclose args
  · exact keeps_bind (keeps_separated (keeps_accept _) h budget) fun args _ => hclose args

theorem keeps_callee {t : Token} (ht : L t.line) : OnlyReads L (callee t) := by
  refine keeps_ite (keeps_pure trivial) ?_
  refine keeps_get fun s hs => ?_
  split
  · exact keeps_pure trivial s hs
  · exact keeps_throw ht s hs

theorem keeps_requireVariable (name : Ident) (hname : L name.line) :
    OnlyReads L (requireVariable name) := by
  refine keeps_get fun s hs => ?_
  split
  · exact keeps_pure trivial s hs
  · exact keeps_throw hname s hs
  · exact keeps_throw hname s hs

theorem keeps_noExpression : Keeps Plain L V (noExpression : ParseM α) :=
  fun s hs => ⟨.refl s, hs.current⟩

include hs

theorem movesAt_noExpression : MovesAt Plain L (noExpression : ParseM α) s :=
  ⟨keeps_noExpression s hs, fun _ _ _ h => nomatch h⟩

theorem movesAt_literal (hend : s.atEnd = false) : MovesAt Plain L literal s := by
  refine movesAt_next_plain hs hend fun t ht => ?_
  split
  · exact keeps_pure trivial
  · exact keeps_throw (L := L) ht

theorem movesAt_nameUse (hend : s.atEnd = false) : MovesAt Plain L nameUse s := by
  refine movesAt_next_plain hs hend fun t ht => ?_
  refine keeps_get fun s hs => ?_
  split
  · exact keeps_pure trivial s hs
  · refine keeps_throw ?_ s hs
    exact ht

include h

theorem movesAt_call (budget : Nat) (hend : s.atEnd = false) :
    MovesAt Plain L (call budget nested) s := by
  refine movesAt_next_plain hs hend fun t ht => ?_
  refine keeps_bind (keeps_callee ht) fun _ _ => ?_
  exact keeps_bind (keeps_arguments h budget) fun _ _ => keeps_pure trivial

theorem movesAt_assignment (hend : s.atEnd = false) : MovesAt Plain L (assignment nested) s := by
  refine movesAt_next_plain hs hend fun t ht => ?_
  refine keeps_bind (keeps_requireVariable (.ofToken t) ht) fun _ _ => ?_
  refine keeps_bind (keeps_expect _) fun _ _ => ?_
  exact keeps_bind h fun _ _ => keeps_pure trivial

theorem movesAt_grouping (hend : s.atEnd = false) : MovesAt Plain L (grouping nested) s := by
  refine movesAt_next_plain hs hend fun t ht => ?_
  refine keeps_bind h fun _ _ => ?_
  refine keeps_bind (keeps_accept _) fun _ _ => ?_
  exact keeps_ite (keeps_pure trivial) (keeps_throw (L := L) ht)

omit hs

theorem moves_primary (budget : Nat) : Moves Plain L (primary budget nested) := by
  intro s hs
  refine movesAt_get ?_
  dsimp only
  split
  case h_6 hkind =>
    have hend := ParseState.atEnd_of_kind hkind (by decide)
    split
    · exact movesAt_bind hs (movesAt_call h hs budget hend) fun _ => keeps_pure trivial
    · exact movesAt_nameUse hs hend
  case h_7 hkind =>
    have hend := ParseState.atEnd_of_kind hkind (by decide)
    split
    · exact movesAt_bind hs (movesAt_call h hs budget hend) fun _ => keeps_pure trivial
    · exact movesAt_noExpression hs
  case h_8 hkind => exact movesAt_grouping h hs (ParseState.atEnd_of_kind hkind (by decide))
  case h_9 => exact movesAt_noExpression hs
  all_goals
    rename_i hkind
    exact movesAt_literal hs (ParseState.atEnd_of_kind hkind (by decide))

theorem moves_unary (budget : Nat) (signs : Nat) : Moves Plain L (unary budget nested signs) := by
  induction signs with
  | zero => exact moves_primary h budget
  | succ signs ih =>
      intro s hs
      refine movesAt_get ?_
      dsimp only
      split
      · rename_i hsign
        refine movesAt_next_plain hs (ParseState.atEnd_of_sign hsign) fun _ _ => ?_
        exact keeps_bind ih.keeps fun _ _ => keeps_pure trivial
      · exact moves_primary h budget s hs

theorem moves_expressionWith (budget : Nat) : Moves Plain L (expressionWith budget nested) := by
  intro s hs
  refine movesAt_get ?_
  split
  · rename_i hname
    simp only [Bool.and_eq_true] at hname
    have hend := ParseState.atEnd_of_check hname.1 (by decide)
    exact movesAt_bind hs (movesAt_assignment h hs hend) fun _ => keeps_pure trivial
  · exact moves_levels budget _ (moves_unary h budget budget) s hs

end Expressions

/-- Reading an expression passes a token or fails. -/
theorem moves_expression (budget : Nat) : Moves Plain L (expression budget) := by
  induction budget with
  | zero => exact fun s hs => movesAt_noExpression hs
  | succ budget ih => exact moves_expressionWith ih.keeps (budget + 1)

theorem keeps_expression (budget : Nat) : OnlyReads L (expression budget) :=
  (moves_expression budget).keeps

end ParseM

end BlockLang
