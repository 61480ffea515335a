/-
  BlockLang.Proofs.Parser.Tolerance

  One more semicolon behind what is read.

  A reader that succeeds has passed some tokens, and decided on the way by tokens that it may
  not have passed.  It tolerates a semicolon that is added behind those it passes if it does
  the same with it.  What it decides in favour of, it passes; what it decides against, a
  semicolon is not either.  So readers of expressions tolerate a semicolon right behind them,
  and others do if there is a token in between.
-/
import BlockLang.Proofs.Parser.Progress

namespace BlockLang

/-! ## Tokens with one more semicolon -/

/-- The second list is the first one, or it has one more semicolon, behind at least `n`
    tokens. -/
inductive AddsSemicolon : Nat → List Token → List Token → Prop where
  | none {n ts} : AddsSemicolon n ts ts
  | one {n front back semi} : n ≤ front.length → semi.kind = .semicolon →
      AddsSemicolon n (front ++ back) (front ++ semi :: back)

namespace AddsSemicolon

variable {n k : Nat} {ts us : List Token}

theorem mono (h : AddsSemicolon n ts us) (hk : k ≤ n) : AddsSemicolon k ts us := by
  cases h with
  | none => exact .none
  | one hn hsemi => exact .one (hk.trans hn) hsemi

/-- Tokens in front of both lists are in front of the semicolon. -/
theorem append (h : AddsSemicolon n ts us) (read : List Token) :
    AddsSemicolon (read.length + n) (read ++ ts) (read ++ us) := by
  cases h with
  | none => exact .none
  | @one front back semi hn hsemi =>
      rw [← List.append_assoc, ← List.append_assoc]
      exact .one (by rw [List.length_append]; omega) hsemi

/-- The lists start with the same token, unless the semicolon comes first. -/
theorem head (h : AddsSemicolon n ts us) :
    us.head? = ts.head? ∨ n = 0 ∧ ∃ semi, semi.kind = .semicolon ∧ us = semi :: ts := by
  cases h with
  | none => exact .inl rfl
  | @one front back semi hn hsemi =>
      cases front with
      | nil => exact .inr ⟨Nat.le_zero.mp hn, semi, hsemi, rfl⟩
      | cons t front => exact .inl rfl

end AddsSemicolon

/-! ## The same state in front of other tokens -/

namespace ParseState

/-- The same state in front of other tokens. -/
def inFrontOf (s : ParseState) (rest : List Token) (lastLine : Nat) : ParseState :=
  { s with rest, lastLine }

variable {s s' : ParseState} {n : Nat} {c : Token} {read us : List Token} {line : Nat}

theorem current_inFrontOf_cons : (s.inFrontOf (c :: us) line).current = c := current_of_rest rfl

theorem advance_inFrontOf_cons (hc : c.kind ≠ .endOfInput) :
    (s.inFrontOf (c :: us) line).advance = s.inFrontOf us c.line := by
  simp only [advance, inFrontOf, if_neg hc]

/-- The next token is the same, unless it is the semicolon that is added. -/
theorem kind_current_inFrontOf (h : AddsSemicolon n s.rest us) (line : Nat) :
    (s.inFrontOf us line).current.kind = s.current.kind ∨
      n = 0 ∧ (s.inFrontOf us line).current.kind = .semicolon := by
  rcases h.head with hhead | ⟨hn, semi, hsemi, rfl⟩
  · left
    rw [List.head?_eq_getElem?, List.head?_eq_getElem?] at hhead
    rw [current, current, peekAt, peekAt, inFrontOf, hhead]
  · right
    rw [current_inFrontOf_cons]
    exact ⟨hn, hsemi⟩

/-- A first token that is passed. -/
theorem Passes.cons (h : s.Passes (c :: read) s') :
    s.current = c ∧ c.kind ≠ .endOfInput ∧ s.advance = s.inFrontOf (read ++ s'.rest) c.line ∧
      s.advance.Passes read s' := by
  have hc : c.kind ≠ .endOfInput := h.noEnd c List.mem_cons_self
  have hrest : s.rest = c :: (read ++ s'.rest) := h.rest
  have hadvance : s.advance = s.inFrontOf (read ++ s'.rest) c.line := by
    simp only [advance, hrest, if_neg hc, inFrontOf]
  refine ⟨current_of_rest hrest, hc, hadvance, ?_⟩
  rw [hadvance]
  exact ⟨rfl, fun t ht => h.noEnd t (List.mem_cons_of_mem c ht), h.closing⟩

/-- A token that is passed is still the next one, whatever is put behind what is passed. -/
theorem Passes.current_inFrontOf (h : s.Passes (c :: read) s') :
    (s.inFrontOf (c :: us) line).current = s.current :=
  current_inFrontOf_cons.trans h.cons.1.symm

theorem Passes.eq_nil (h : s.Passes read s') (hrest : s'.rest = s.rest) : read = [] := by
  have hlen := h.length_eq
  rw [hrest] at hlen
  exact List.length_eq_zero_iff.mp (by omega)

/-- The tokens that are passed between two states. -/
theorem Passes.eq {read' : List Token} (h : s.Passes read s') (h' : s.Passes read' s') :
    read = read' :=
  List.append_cancel_right (h.rest.symm.trans h'.rest)

/-- The token behind the next one is the same, unless one token only is passed and the
    semicolon follows it. -/
theorem kind_peekAt_one (h : s.Passes (c :: read) s') (hus : AddsSemicolon n s'.rest us) :
    ((s.inFrontOf (c :: read ++ us) line).peekAt 1).kind = (s.peekAt 1).kind ∨
      (n = 0 ∧ read = []) ∧
        ((s.inFrontOf (c :: read ++ us) line).peekAt 1).kind = .semicolon := by
  cases read with
  | nil =>
      have hcurrent (t : ParseState) (c : Token) (ts : List Token) (ht : t.rest = c :: ts) :
          t.peekAt 1 = ({ t with rest := ts } : ParseState).current := by
        simp [peekAt, current, ht]
      rw [hcurrent _ c us rfl, hcurrent s c s'.rest h.rest]
      rcases kind_current_inFrontOf (s := { s with rest := s'.rest }) hus line with
        hsame | ⟨hn, hsemi⟩
      · exact .inl hsame
      · exact .inr ⟨⟨hn, rfl⟩, hsemi⟩
  | cons d read => exact .inl (by simp [peekAt, inFrontOf, h.rest])

end ParseState

/-! ## Readers that tolerate it -/

/-- Each arrow has a `::` two places in front of it, as in the declaration of a method. -/
def ArrowsTyped (ts : List Token) : Prop :=
  ∀ k arrow, ts[k + 2]? = some arrow → arrow.kind = .arrow →
    ∃ separator, ts[k]? = some separator ∧ separator.kind = .typeSeparator

theorem ArrowsTyped.of_append {front ts : List Token} (h : ArrowsTyped (front ++ ts)) :
    ArrowsTyped ts := by
  intro k arrow harrow hkind
  have hsame (j : Nat) : (front ++ ts)[front.length + j]? = ts[j]? := by
    rw [List.getElem?_append_right (Nat.le_add_right _ _), Nat.add_sub_cancel_left]
  have hall := h (front.length + k) arrow
  rw [Nat.add_assoc, hsame, hsame] at hall
  exact hall harrow hkind

theorem ArrowsTyped.passes {s s' : ParseState} {read : List Token} (h : ArrowsTyped s.rest)
    (hread : s.Passes read s') : ArrowsTyped s'.rest :=
  .of_append (hread.rest ▸ h)

namespace ParseM

variable {α β : Type} {n : Nat}

/-- From this state, if a reader succeeds without noting an error, it does the same with one
    more semicolon at least `n` tokens behind what it passes. -/
def ToleratesAt (n : Nat) (x : ParseM α) (s : ParseState) : Prop :=
  ∀ ⦃a s' read us⦄, x.outcome s = (.ok a, s') → s.Passes read s' → s'.errors = [] →
    AddsSemicolon n s'.rest us → ∀ line, ∃ line',
      x.outcome (s.inFrontOf (read ++ us) line) = (.ok a, s'.inFrontOf us line')

/-- A reader that does so from every state, and goes onward. -/
structure Tolerates (n : Nat) (x : ParseM α) : Prop where
  goesOn : GoesOn (fun _ => True) x
  tolerates : ∀ s : ParseState, s.Closed → ArrowsTyped s.rest → ToleratesAt n x s

theorem ToleratesAt.mono {m : Nat} {x : ParseM α} {s : ParseState} (h : ToleratesAt n x s)
    (hm : n ≤ m) : ToleratesAt m x s :=
  fun _ _ _ _ hout hread herrors hus line => h hout hread herrors (hus.mono hm) line

/-- Only a reader that succeeds has something to tolerate. -/
theorem ToleratesAt.of_ok {x : ParseM α} {s : ParseState}
    (h : ∀ a s', x.outcome s = (.ok a, s') → ToleratesAt n x s) : ToleratesAt n x s :=
  fun a s' _ _ hout => h a s' hout hout

theorem Tolerates.mono {m : Nat} {x : ParseM α} (h : Tolerates n x) (hm : n ≤ m) :
    Tolerates m x :=
  ⟨h.goesOn, fun s hs htyped => (h.tolerates s hs htyped).mono hm⟩

/-- A reader that passes at least `k` tokens when it succeeds. -/
def Consumes (k : Nat) (x : ParseM α) : Prop :=
  ∀ ⦃s a s'⦄, s.Closed → x.outcome s = (.ok a, s') → s'.Closed ∧ s'.rest.length + k ≤ s.rest.length

/-- A reader that goes onward passes tokens, and errors stay noted. -/
theorem passes_of_onward {x : ParseM α} {s s' : ParseState} {a : α}
    (h : Onward (fun _ => True) s (x.outcome s).2) (hout : x.outcome s = (.ok a, s'))
    (herrors : s'.errors = []) : (∃ read, s.Passes read s') ∧ s.errors = [] := by
  rw [hout] at h
  exact ⟨h.passed, List.prefix_nil.mp (herrors ▸ h.errors)⟩

/-- Two steps that go onward pass tokens one after the other. -/
theorem exists_steps {x : ParseM α} {f : α → ParseM β} {s s' : ParseState} {b : β}
    {read : List Token} (hgo : Onward (fun _ => True) s (x.outcome s).2)
    (hf : ∀ a, GoesOn (fun _ => True) (f a)) (hout : (x >>= f).outcome s = (.ok b, s'))
    (hread : s.Passes read s') (herrors : s'.errors = []) :
    ∃ a s₁ read₁ read₂, x.outcome s = (.ok a, s₁) ∧ (f a).outcome s₁ = (.ok b, s') ∧
      s.Passes read₁ s₁ ∧ s₁.Passes read₂ s' ∧ s₁.errors = [] ∧ read = read₁ ++ read₂ := by
  obtain ⟨a, s₁, ha, hb⟩ := outcome_bind_ok.mp hout
  obtain ⟨⟨read₂, hread₂⟩, herrors₁⟩ := passes_of_onward (hf a s₁ (.trivial s₁)).1 hb herrors
  obtain ⟨⟨read₁, hread₁⟩, -⟩ := passes_of_onward hgo ha herrors₁
  exact ⟨a, s₁, read₁, read₂, ha, hb, hread₁, hread₂, herrors₁, hread.eq (hread₁.trans hread₂)⟩

/-! ### Tokens that are passed -/

section Consuming

variable {k m : Nat} {x : ParseM α} {f : α → ParseM β}

theorem consumes_of_goesOn (h : GoesOn (fun _ => True) x) : Consumes 0 x := by
  intro s a s' hs hout
  have hstep := (h s (.trivial s)).1
  rw [hout] at hstep
  obtain ⟨read, hread⟩ := hstep.passed
  have hlen : s.rest.length = read.length + s'.rest.length := hread.length_eq
  exact ⟨hread.closed hs, by omega⟩

theorem consumes_expect (expected : Expected) : Consumes 1 (expect expected) := by
  intro s t s' hs hout
  obtain ⟨hcheck, -, rfl⟩ := expect_ok hout
  have hkind : expected.kind ≠ .endOfInput := by cases expected <;> decide
  have hpass := ParseState.passes_of_check hs hcheck hkind
  have hlen := hpass.length_eq
  rw [List.length_singleton] at hlen
  exact ⟨hpass.closed hs, by omega⟩

theorem consumes_bind (hx : Consumes k x) (hf : ∀ a, Consumes m (f a)) :
    Consumes (k + m) (x >>= f) := by
  intro s b s' hs hout
  obtain ⟨a, s₁, ha, hb⟩ := outcome_bind_ok.mp hout
  obtain ⟨hs₁, hlen⟩ := hx hs ha
  obtain ⟨hs', hlen'⟩ := hf a hs₁ hb
  exact ⟨hs', by omega⟩

theorem Consumes.mono (h : Consumes k x) (hm : m ≤ k) : Consumes m x := by
  intro s a s' hs hout
  obtain ⟨hs', hlen⟩ := h hs hout
  exact ⟨hs', by omega⟩

/-- A reader that starts with a token and passes some behind it. -/
theorem le_length_of_next {f : Token → ParseM β} (hf : ∀ t, Consumes k (f t)) {s s' : ParseState}
    (hs : s.Closed) {b : β} (hout : (next >>= f).outcome s = (.ok b, s')) {c : Token}
    {read : List Token} (hread : s.Passes (c :: read) s') : k ≤ read.length := by
  rw [outcome_bind, outcome_next] at hout
  obtain ⟨-, -, -, hbehind⟩ := hread.cons
  have hclosed : s.advance.Closed := by
    obtain ⟨_, hpass⟩ := (Plain.advance s).passed
    exact hpass.closed hs
  have hlen := hbehind.length_eq
  have hfewer := (hf s.current hclosed hout).2
  omega

end Consuming

section Steps

variable {x : ParseM α} {f : α → ParseM β} {s : ParseState}

theorem toleratesAt_pure (a : α) : ToleratesAt n (pure a : ParseM α) s := by
  intro a' s' read us hout hread _ _ line
  cases hout
  obtain rfl := hread.eq (.refl s)
  exact ⟨line, rfl⟩

theorem tolerates_pure (a : α) : Tolerates n (pure a : ParseM α) :=
  ⟨keeps_pure trivial, fun _ _ _ => toleratesAt_pure a⟩

theorem toleratesAt_throw (e : ParseError) : ToleratesAt n (throw e : ParseM α) s :=
  fun _ _ _ _ hout => nomatch hout

theorem tolerates_throw (e : ParseError) : Tolerates n (throw e : ParseM α) :=
  ⟨keeps_throw trivial, fun _ _ _ => toleratesAt_throw e⟩

/-- The second step passes at least `k` tokens, so the semicolon is that much further behind
    the first one. -/
theorem toleratesAt_bind_of_consumes {k : Nat} (hs : s.Closed) (htyped : ArrowsTyped s.rest)
    (hgo : Onward (fun _ => True) s (x.outcome s).2) (hx : ToleratesAt (n + k) x s)
    (hf : ∀ a, Tolerates n (f a)) (hk : ∀ a, Consumes k (f a)) : ToleratesAt n (x >>= f) s := by
  intro b s' read us hout hread herrors hus line
  obtain ⟨a, s₁, read₁, read₂, ha, hb, hread₁, hread₂, herrors₁, rfl⟩ :=
    exists_steps hgo (fun a => (hf a).goesOn) hout hread herrors
  have hs₁ := hread₁.closed hs
  have hus₁ : AddsSemicolon (n + k) s₁.rest (read₂ ++ us) := by
    have hlen := hread₂.length_eq
    have hfewer := (hk a hs₁ hb).2
    rw [hread₂.rest]
    exact (hus.append read₂).mono (by omega)
  obtain ⟨line₁, h₁⟩ := hx ha hread₁ herrors₁ hus₁ line
  obtain ⟨line₂, h₂⟩ := (hf a).tolerates s₁ hs₁ (htyped.passes hread₁) hb hread₂ herrors hus line₁
  refine ⟨line₂, outcome_bind_ok.mpr ⟨a, _, ?_, h₂⟩⟩
  rw [List.append_assoc]
  exact h₁

theorem toleratesAt_bind (hs : s.Closed) (htyped : ArrowsTyped s.rest)
    (hgo : Onward (fun _ => True) s (x.outcome s).2) (hx : ToleratesAt n x s)
    (hf : ∀ a, Tolerates n (f a)) : ToleratesAt n (x >>= f) s :=
  toleratesAt_bind_of_consumes (k := 0) hs htyped hgo hx hf
    fun a => consumes_of_goesOn (hf a).goesOn

theorem tolerates_bind (hx : Tolerates n x) (hf : ∀ a, Tolerates n (f a)) :
    Tolerates n (x >>= f) where
  goesOn := keeps_bind hx.goesOn fun a _ => (hf a).goesOn
  tolerates s hs htyped :=
    toleratesAt_bind hs htyped (hx.goesOn s (.trivial s)).1 (hx.tolerates s hs htyped) hf

theorem tolerates_ite {c : Prop} [Decidable c] {x y : ParseM α} (hx : Tolerates n x)
    (hy : Tolerates n y) : Tolerates n (if c then x else y) := by
  split
  · exact hx
  · exact hy

/-- A reader that neither looks at tokens nor passes any. -/
theorem tolerates_of_blind (hgo : GoesOn (fun _ => True) x)
    (hrest : ∀ s, (x.outcome s).2.rest = s.rest)
    (hblind : ∀ s us line, x.outcome (s.inFrontOf us line) =
      ((x.outcome s).1, (x.outcome s).2.inFrontOf us line)) : Tolerates n x := by
  refine ⟨hgo, fun s _ _ a s' read us hout hread _ _ line => ⟨line, ?_⟩⟩
  have hsame := hrest s
  rw [hout] at hsame
  rw [hread.eq_nil hsame, List.nil_append, hblind, hout]

/-- A reader that looks at the table and at the place in it first. -/
theorem tolerates_get {f : ParseState → ParseM β}
    (hf : ∀ s us line, f (s.inFrontOf us line) = f s) (h : ∀ s, Tolerates n (f s)) :
    Tolerates n (get >>= f) := by
  refine ⟨keeps_get fun s hs => (h s).goesOn s hs, fun s hs htyped => ?_⟩
  intro b s' read us hout hread herrors hus line
  rw [outcome_bind, outcome_get] at hout ⊢
  dsimp only
  rw [hf]
  exact (h s).tolerates s hs htyped hout hread herrors hus line

/-! ### Single tokens -/

/-- A reader that passes the next token and goes by nothing else. -/
theorem toleratesAt_of_current (a : α) (hs : s.Closed) (hend : s.atEnd = false)
    (hx : ∀ t : ParseState, t.current = s.current → x.outcome t = (.ok a, t.advance)) :
    ToleratesAt n x s := by
  intro a' s' read us hout hread _ _ line
  cases (hx s rfl).symm.trans hout
  obtain rfl := hread.eq (ParseState.passes_advance hs hend)
  obtain ⟨-, hc, hadvance, -⟩ := hread.cons
  refine ⟨s.current.line, ?_⟩
  rw [List.singleton_append, hx _ ParseState.current_inFrontOf_cons,
    ParseState.advance_inFrontOf_cons hc, hadvance]
  rfl

theorem toleratesAt_next (hs : s.Closed) (hend : s.atEnd = false) : ToleratesAt n next s :=
  toleratesAt_of_current s.current hs hend fun t ht => by rw [outcome_next, ht]

theorem tolerates_expect (expected : Expected) : Tolerates n (expect expected) := by
  refine ⟨(keeps_expect expected).onward, fun s hs _ => .of_ok fun t s' hout => ?_⟩
  obtain ⟨hcheck, -, -⟩ := expect_ok hout
  have hkind : expected.kind ≠ .endOfInput := by cases expected <;> decide
  refine toleratesAt_of_current s.current hs (ParseState.atEnd_of_check hcheck hkind) fun t ht => ?_
  have hcheck' : t.check expected.kind := by rwa [ParseState.check, ht]
  rw [outcome_expect, if_pos hcheck', ht]

theorem tolerates_expectDo : Tolerates n expectDo := by
  refine ⟨keeps_expectDo.onward, fun s hs _ => .of_ok fun _ s' hout => ?_⟩
  obtain ⟨hdo, -⟩ := expectDo_ok hout
  have hend : s.atEnd = false := by
    simp only [Token.isDo, Bool.and_eq_true, decide_eq_true_eq] at hdo
    exact ParseState.atEnd_of_kind hdo.1 (by decide)
  refine toleratesAt_of_current () hs hend fun t ht => ?_
  rw [outcome_expectDo, ht, if_pos hdo]

/-- A token that may stand here.  If it is a semicolon, the added one must not come next. -/
theorem tolerates_accept {kind : TokenKind} (hkind : kind ≠ .endOfInput)
    (hn : kind = .semicolon → 0 < n) : Tolerates n (accept kind) := by
  refine ⟨(keeps_accept kind).onward, fun s hs _ => ?_⟩
  cases hcheck : s.check kind with
  | true =>
      refine toleratesAt_of_current true hs (ParseState.atEnd_of_check hcheck hkind) fun t ht => ?_
      have hcheck' : t.check kind = true := by rwa [ParseState.check, ht]
      rw [outcome_accept, hcheck', ParseState.pass, if_pos hcheck']
  | false =>
      intro a s' read us hout hread _ hus line
      rw [outcome_accept, hcheck, ParseState.pass, if_neg (by simp [hcheck])] at hout
      cases hout
      obtain rfl := hread.eq (.refl s)
      have hne : s.current.kind ≠ kind := by simpa [ParseState.check] using hcheck
      have hcheck' : (s.inFrontOf us line).check kind = false := by
        rw [ParseState.check, decide_eq_false_iff_not]
        rcases ParseState.kind_current_inFrontOf hus line with hsame | ⟨hzero, hsemi⟩
        · rwa [hsame]
        · rw [hsemi]
          exact fun h => absurd (hn h.symm) (by omega)
      refine ⟨line, ?_⟩
      rw [List.nil_append, outcome_accept, hcheck', ParseState.pass, if_neg (by simp [hcheck'])]

theorem tolerates_expectType : Tolerates n expectType :=
  tolerates_bind (tolerates_expect _) fun _ => tolerates_pure _

theorem tolerates_separated {element : ParseM α} (h : Tolerates n element) (budget : Nat) :
    Tolerates n (separated element budget) := by
  induction budget with
  | zero => exact tolerates_bind h fun _ => tolerates_pure _
  | succ budget ih =>
      refine tolerates_bind h fun x => ?_
      refine tolerates_bind (tolerates_accept (by decide) fun h => absurd h (by decide))
        fun more => ?_
      exact tolerates_ite (tolerates_bind ih fun _ => tolerates_pure _) (tolerates_pure _)

end Steps

/-! ### Expressions -/

/-- Where more than the next token is passed, the token behind it is the same; where a token
    of another kind is behind it, no semicolon turns it into one of this kind. -/
theorem peekAt_one_iff {s s' : ParseState} {c : Token} {read us : List Token} {line : Nat}
    (hread : s.Passes (c :: read) s') (hus : AddsSemicolon n s'.rest us) {kind : TokenKind}
    (hkind : kind ≠ .semicolon) (hmore : (s.peekAt 1).kind = kind → 1 ≤ read.length) :
    ((s.inFrontOf (c :: read ++ us) line).peekAt 1).kind = kind ↔ (s.peekAt 1).kind = kind := by
  rcases ParseState.kind_peekAt_one hread hus with hsame | ⟨⟨-, hnil⟩, hsemi⟩
  · rw [hsame]
  · rw [hsemi]
    have hshort := hmore
    rw [hnil] at hshort
    exact ⟨fun h => absurd h.symm hkind, fun h => absurd (hshort h) (by decide)⟩

section Expressions

variable {s : ParseState}

/-- From this state a reader goes onward and tolerates a semicolon, and if it succeeds it has
    passed a token. -/
structure ProceedsAt (n : Nat) (x : ParseM α) (s : ParseState) : Prop where
  onward : Onward (fun _ => True) s (x.outcome s).2
  tolerates : ToleratesAt n x s
  fewer : ∀ a s', x.outcome s = (.ok a, s') → s'.rest.length < s.rest.length

namespace ProceedsAt

theorem mono {m : Nat} {x : ParseM α} (h : ProceedsAt n x s) (hm : n ≤ m) : ProceedsAt m x s :=
  ⟨h.onward, h.tolerates.mono hm, h.fewer⟩

/-- A reader that starts with a token. -/
theorem next (hs : s.Closed) (htyped : ArrowsTyped s.rest) (hend : s.atEnd = false)
    {f : Token → ParseM β} (hf : ∀ t, Tolerates n (f t)) : ProceedsAt n (ParseM.next >>= f) s := by
  have hmoves := movesAt_next_paying (.trivial s) hend fun t _ => (hf t).goesOn
  exact ⟨hmoves.keepsAt.1.toOnward,
    toleratesAt_bind hs htyped (Plain.advance s).onward (toleratesAt_next hs hend) hf,
    hmoves.fewer hs⟩

/-- What follows a reader that passes a token may stand still. -/
theorem bind {x : ParseM α} {f : α → ParseM β} (h : ProceedsAt n x s) (hs : s.Closed)
    (htyped : ArrowsTyped s.rest) (hf : ∀ a, Tolerates n (f a)) : ProceedsAt n (x >>= f) s where
  onward := (keepsAt_bind (V := fun _ => True) (.trivial s) ⟨h.onward, by
    cases (x.outcome s).1 <;> trivial⟩ fun a _ => (hf a).goesOn).1
  tolerates := toleratesAt_bind hs htyped h.onward h.tolerates hf
  fewer b s' hout := by
    obtain ⟨a, s₁, ha, hb⟩ := outcome_bind_ok.mp hout
    have honward : Onward (fun _ => True) s s₁ := by
      have honward := h.onward
      rwa [ha] at honward
    have hlt := h.fewer a s₁ ha
    have hle := (consumes_of_goesOn (hf a).goesOn (honward.closed hs) hb).2
    omega

theorem noExpression : ProceedsAt n (ParseM.noExpression : ParseM α) s :=
  ⟨.refl s, fun _ _ _ _ hout => (nomatch hout), fun _ _ hout => (nomatch hout)⟩

/-- A reader that looks at the state first, if what it decides does not depend on the added
    semicolon. -/
theorem get {f : ParseState → ParseM β} (h : ProceedsAt n (f s) s)
    (hf : ∀ c read s' us line, s.Passes (c :: read) s' → (∃ b, (f s).outcome s = (.ok b, s')) →
      s'.errors = [] → AddsSemicolon n s'.rest us → f (s.inFrontOf (c :: read ++ us) line) = f s) :
    ProceedsAt n (MonadState.get >>= f) s := by
  refine ⟨h.onward, ?_, h.fewer⟩
  intro b s' read us hout hread herrors hus line
  cases read with
  | nil =>
      have hlt := h.fewer b s' hout
      rw [hread.rest, List.nil_append] at hlt
      exact absurd hlt (lt_irrefl _)
  | cons c read =>
      rw [outcome_bind, outcome_get] at hout ⊢
      dsimp only
      rw [hf c read s' us line hread ⟨b, hout⟩ herrors hus]
      exact h.tolerates hout hread herrors hus line

/-- A reader that decides by the next token. -/
theorem get_current {f : ParseState → ParseM β} (h : ProceedsAt n (f s) s)
    (hf : ∀ t : ParseState, t.current = s.current → f t = f s) :
    ProceedsAt n (MonadState.get >>= f) s :=
  h.get fun _ _ _ _ _ hread _ _ _ => hf _ (hread.current_inFrontOf)

end ProceedsAt

theorem Tolerates.proceedsAt {R : ParseState → ParseState → Prop} {x : ParseM α}
    (h : Tolerates n x) (hmoves : Moves R (fun _ => True) x) (hs : s.Closed)
    (htyped : ArrowsTyped s.rest) : ProceedsAt n x s :=
  ⟨(h.goesOn s (.trivial s)).1, h.tolerates s hs htyped, (hmoves s (.trivial s)).fewer hs⟩

/-- The loop over the operators of a level.  Where it ends, no semicolon makes it go on. -/
theorem tolerates_binaryRest (level : Level) {operand : ParseM Expr} (h : Tolerates 0 operand)
    (hreads : OnlyReads (fun _ => True) operand) (budget : Nat) (left : Expr) :
    Tolerates 0 (binaryRest level operand budget left) := by
  induction budget generalizing left with
  | zero => exact tolerates_pure left
  | succ budget ih =>
      refine ⟨(keeps_binaryRest level hreads (budget + 1) left).onward, fun s hs htyped => ?_⟩
      by_cases hop : level.operators.contains s.current.kind
      · have hend := ParseState.atEnd_of_operator hop
        refine (ProceedsAt.get_current ?_ fun t ht => by rw [ht]).tolerates
        dsimp only
        rw [if_pos hop]
        refine .next hs htyped hend fun _ => ?_
        exact tolerates_bind h fun right => ih _
      · intro e s' read us hout hread _ hus line
        rw [binaryRest, outcome_bind, outcome_get] at hout ⊢
        dsimp only at hout ⊢
        rw [if_neg hop] at hout
        cases hout
        obtain rfl := hread.eq (.refl s)
        have hop' : ¬level.operators.contains (s.inFrontOf us line).current.kind := by
          rcases ParseState.kind_current_inFrontOf hus line with hsame | ⟨-, hsemi⟩
          · rwa [hsame]
          · rw [hsemi]
            cases level <;> decide
        rw [List.nil_append, if_neg hop']
        exact ⟨line, rfl⟩

theorem tolerates_levels (levels : List Level) {operand : ParseM Expr} (h : Tolerates 0 operand)
    (hmoves : Moves Plain (fun _ => True) operand) (budget : Nat) :
    Tolerates 0 (levels.foldr (binary budget) operand) := by
  induction levels with
  | nil => exact h
  | cons level levels ih =>
      have hinner := (moves_levels budget levels hmoves).keeps
      exact tolerates_bind ih fun left => tolerates_binaryRest level ih hinner budget left

theorem tolerates_callee (t : Token) : Tolerates n (callee t) := by
  refine tolerates_ite (tolerates_pure _) (tolerates_get (fun _ _ _ => rfl) fun s => ?_)
  split
  · exact tolerates_pure _
  · exact tolerates_throw _

theorem tolerates_requireVariable (name : Ident) : Tolerates n (requireVariable name) := by
  refine tolerates_get (fun _ _ _ => rfl) fun s => ?_
  split
  · exact tolerates_pure _
  · exact tolerates_throw _
  · exact tolerates_throw _

section At

variable (hs : s.Closed) (htyped : ArrowsTyped s.rest) (hend : s.atEnd = false)
include hs htyped hend

theorem proceedsAt_literal : ProceedsAt n literal s := by
  refine .next hs htyped hend fun t => ?_
  split
  · exact tolerates_pure _
  · exact tolerates_throw _

theorem proceedsAt_nameUse : ProceedsAt n nameUse s := by
  refine .next hs htyped hend fun t => ?_
  refine tolerates_get (fun _ _ _ => rfl) fun s => ?_
  exact tolerates_ite (tolerates_pure _) (tolerates_throw _)

variable {nested : ParseM Expr} (h : Tolerates 0 nested)
include h

theorem proceedsAt_assignment : ProceedsAt 0 (assignment nested) s := by
  refine .next hs htyped hend fun t => ?_
  refine tolerates_bind (tolerates_requireVariable _) fun _ => ?_
  refine tolerates_bind (tolerates_expect _) fun _ => ?_
  exact tolerates_bind h fun _ => tolerates_pure _

theorem proceedsAt_grouping : ProceedsAt 0 (grouping nested) s := by
  refine .next hs htyped hend fun t => ?_
  refine tolerates_bind h fun _ => ?_
  refine tolerates_bind (tolerates_accept (by decide) fun h => absurd h (by decide)) fun _ => ?_
  exact tolerates_ite (tolerates_pure _) (tolerates_throw _)

end At

/-- A list up to the parenthesis that closes it, and what follows the list. -/
theorem keeps_list {element : ParseM α} {k : List α → ParseM β}
    {budget : Nat} (h : GoesOn (fun _ => True) (separated element budget))
    (hk : ∀ as, GoesOn (fun _ => True) (k as)) :
    GoesOn (fun _ => True) (do
      let as ← if (← get).check .rightParen then pure [] else separated element budget
      k as) := by
  refine keeps_get fun s hs => ?_
  refine keeps_ite ?_ ?_ s hs
  · exact keeps_bind (keeps_pure (V := fun _ => True) trivial) fun as _ => hk as
  · exact keeps_bind h fun as _ => hk as

/-- The elements of a list have a token behind them. -/
theorem tolerates_list {element : ParseM α} {k : List α → ParseM β} (h : Tolerates 1 element)
    (hk : ∀ as, Tolerates 0 (k as)) (hone : ∀ as, Consumes 1 (k as)) (budget : Nat) :
    Tolerates 0 (do
      let as ← if (← get).check .rightParen then pure [] else separated element budget
      k as) := by
  have helements := tolerates_separated h budget
  refine ⟨keeps_list helements.goesOn fun as => (hk as).goesOn, fun s hs htyped => ?_⟩
  refine (ProceedsAt.get_current ?_ fun t ht => ?_).tolerates
  · split
    · exact ⟨((hk []).goesOn s (.trivial s)).1, (hk []).tolerates s hs htyped,
        fun b s' hout => (hone [] hs hout).2⟩
    · exact ⟨(keeps_bind helements.goesOn (fun as _ => (hk as).goesOn) s (.trivial s)).1,
        toleratesAt_bind_of_consumes hs htyped (helements.goesOn s (.trivial s)).1
          (helements.tolerates s hs htyped) hk hone,
        fun b s' hout => (consumes_bind (consumes_of_goesOn helements.goesOn) hone hs hout).2⟩
  · have hcheck : t.check .rightParen = s.check .rightParen := by
      rw [ParseState.check, ht, ParseState.check]
    rw [hcheck]

/-! ### Expressions with parts -/

section Nested

variable {nested : ParseM Expr} (h : Tolerates 0 nested)
include h

/-- The arguments of a call behind the opening parenthesis. -/
theorem tolerates_argumentList (budget : Nat) : Tolerates 0 (do
    let args ← if (← get).check .rightParen then pure [] else separated nested budget
    let _ ← expect .rightParen
    return args) := by
  refine tolerates_list (h.mono (Nat.zero_le 1)) (fun args => ?_) (fun args => ?_) budget
  · exact tolerates_bind (tolerates_expect _) fun _ => tolerates_pure _
  · exact consumes_bind (consumes_expect _) fun _ => consumes_of_goesOn (keeps_pure trivial)

theorem tolerates_arguments (budget : Nat) : Tolerates 0 (arguments budget nested) :=
  tolerates_bind (tolerates_expect _) fun _ => tolerates_argumentList h budget

theorem proceedsAt_call (hs : s.Closed) (htyped : ArrowsTyped s.rest) (hend : s.atEnd = false)
    (budget : Nat) : ProceedsAt 0 (call budget nested) s := by
  refine .next hs htyped hend fun t => ?_
  refine tolerates_bind (tolerates_callee t) fun _ => ?_
  exact tolerates_bind (tolerates_arguments h budget) fun _ => tolerates_pure _

/-- A call passes a parenthesis behind its first token. -/
theorem one_le_of_call {c : Token} {read : List Token} {s' : ParseState} (hs : s.Closed)
    (hread : s.Passes (c :: read) s') {budget : Nat} {r : Callee × List Expr}
    (hout : (call budget nested).outcome s = (.ok r, s')) : 1 ≤ read.length := by
  have hargs : Consumes 1 (arguments budget nested) :=
    consumes_bind (consumes_expect _) fun _ =>
      consumes_of_goesOn (tolerates_argumentList h budget).goesOn
  refine le_length_of_next (fun t => ?_) hs hout hread
  have hpure (r : Callee × List Expr) : Consumes 0 (pure r : ParseM (Callee × List Expr)) :=
    consumes_of_goesOn (keeps_pure trivial)
  exact (consumes_bind (consumes_of_goesOn (keeps_callee trivial).onward) fun _ =>
    consumes_bind hargs fun _ => hpure _).mono (by omega)

/-- An assignment passes `=` behind its first token. -/
theorem one_le_of_assignment {c : Token} {read : List Token} {s' : ParseState} (hs : s.Closed)
    (hread : s.Passes (c :: read) s') {r : Ident × Expr}
    (hout : (assignment nested).outcome s = (.ok r, s')) : 1 ≤ read.length := by
  refine le_length_of_next (fun t => ?_) hs hout hread
  have hvalue (target : Ident) : Consumes 0 (do let value ← nested; return (target, value)) :=
    consumes_of_goesOn (keeps_bind h.goesOn fun _ _ => keeps_pure trivial)
  exact (consumes_bind (consumes_of_goesOn (keeps_requireVariable _ trivial).onward) fun _ =>
    consumes_bind (consumes_expect _) fun _ => hvalue _).mono (by omega)

variable (hreads : OnlyReads (fun _ => True) nested)
include hreads

/-- A call or a lone name, whichever a parenthesis behind the name decides. -/
theorem tolerates_primary (budget : Nat) : Tolerates 0 (primary budget nested) := by
  refine ⟨(moves_primary hreads budget).keeps.onward, fun s hs htyped => ?_⟩
  have hcall (hend : s.atEnd = false) :
      ProceedsAt 0 (do let r ← call budget nested; return Expr.call r.1 r.2) s :=
    (proceedsAt_call h hs htyped hend budget).bind hs htyped fun _ => tolerates_pure _
  refine (ProceedsAt.get ?_ ?_).tolerates
  · dsimp only
    split
    case h_6 hkind =>
      have hend := ParseState.atEnd_of_kind hkind (by decide)
      split
      · exact hcall hend
      · exact proceedsAt_nameUse hs htyped hend
    case h_7 hkind =>
      split
      · exact hcall (ParseState.atEnd_of_kind hkind (by decide))
      · exact .noExpression
    case h_8 hkind =>
      exact proceedsAt_grouping hs htyped (ParseState.atEnd_of_kind hkind (by decide)) h
    case h_9 => exact .noExpression
    all_goals
      rename_i hkind
      exact proceedsAt_literal hs htyped (ParseState.atEnd_of_kind hkind (by decide))
  · rintro c read s' us line hread ⟨e, hout⟩ - hus
    have hcurrent : (s.inFrontOf (c :: read ++ us) line).current = s.current :=
      hread.current_inFrontOf
    have hbehind (hout : (do let r ← call budget nested; return Expr.call r.1 r.2).outcome s =
        (.ok e, s')) : 1 ≤ read.length := by
      obtain ⟨r, s₁, hcall, hpure⟩ := outcome_bind_ok.mp hout
      cases hpure
      exact one_le_of_call h hs hread hcall
    dsimp only at hout ⊢
    rw [hcurrent]
    split
    case h_6 hkind =>
      refine if_congr (peekAt_one_iff hread hus (by decide) fun hopen => hbehind ?_) rfl rfl
      simpa only [hkind, hopen, if_true] using hout
    case h_7 hkind =>
      refine if_congr (peekAt_one_iff hread hus (by decide) fun hopen => hbehind ?_) rfl rfl
      simpa only [hkind, hopen, if_true] using hout
    -- All others go by the next token alone.
    all_goals rfl

theorem tolerates_unary (budget signs : Nat) : Tolerates 0 (unary budget nested signs) := by
  induction signs with
  | zero => exact tolerates_primary h hreads budget
  | succ signs ih =>
      refine ⟨(moves_unary hreads budget (signs + 1)).keeps.onward, fun s hs htyped => ?_⟩
      refine (ProceedsAt.get_current ?_ fun t ht => by rw [ht]).tolerates
      dsimp only
      split
      · rename_i hsign
        refine .next hs htyped (ParseState.atEnd_of_sign hsign) fun _ => ?_
        exact tolerates_bind ih fun _ => tolerates_pure _
      · exact (tolerates_primary h hreads budget).proceedsAt (moves_primary hreads budget) hs htyped

theorem tolerates_operation (budget : Nat) : Tolerates 0 (operation budget nested) :=
  tolerates_levels _ (tolerates_unary h hreads budget budget) (moves_unary hreads budget budget)
    budget

/-- An assignment or an operation, whichever `=` behind a name decides. -/
theorem tolerates_expressionWith (budget : Nat) : Tolerates 0 (expressionWith budget nested) := by
  refine ⟨(moves_expressionWith hreads budget).keeps.onward, fun s hs htyped => ?_⟩
  refine (ProceedsAt.get ?_ ?_).tolerates
  · split
    · rename_i hname
      simp only [Bool.and_eq_true] at hname
      have hend := ParseState.atEnd_of_check hname.1 (by decide)
      exact (proceedsAt_assignment hs htyped hend h).bind hs htyped fun _ => tolerates_pure _
    · exact (tolerates_operation h hreads budget).proceedsAt
        (moves_levels budget _ (moves_unary hreads budget budget)) hs htyped
  -- The semicolon does not hide a `=`: it is behind the name and the sign in an assignment.
  · rintro c read s' us line hread ⟨e, hout⟩ - hus
    have hcheck : (s.inFrontOf (c :: read ++ us) line).check .identifier = s.check .identifier := by
      rw [ParseState.check, ParseState.check, hread.cons.1]
      rfl
    cases hname : s.check .identifier with
    | false => simp only [hcheck, hname, Bool.false_and]
    | true =>
        have hequal : ((s.inFrontOf (c :: read ++ us) line).peekAt 1).kind = .equal ↔
            (s.peekAt 1).kind = .equal := by
          refine peekAt_one_iff hread hus (by decide) fun hequal => ?_
          simp only [hname, hequal, decide_true, Bool.and_true, if_true] at hout
          obtain ⟨r, s₁, hassign, hpure⟩ := outcome_bind_ok.mp hout
          cases hpure
          exact one_le_of_assignment h hs hread hassign
        simp only [hcheck, hname, hequal]

end Nested

end Expressions

theorem tolerates_expression (budget : Nat) : Tolerates 0 (expression budget) := by
  induction budget with
  | zero => exact ⟨keeps_noExpression.onward, fun _ _ _ => ProceedsAt.noExpression.tolerates⟩
  | succ budget ih => exact tolerates_expressionWith ih (keeps_expression budget) (budget + 1)

end ParseM

end BlockLang
