/-
  BlockLang.Proofs.Parser.Layout

  Reading programs that differ in the places of their tokens only.

  Two runs of a reader, from states that differ in places only, end alike: both succeed with
  trees that are the same up to lines, in states that again differ in places only, or both go
  wrong.  Behind an error the runs may part, since reading goes on behind the line of the
  error; but noted errors stay, so both have gone wrong for good.  That is why the relation
  between two readers also says that neither of them forgets an error.
-/
import BlockLang.Proofs.Parser.Progress
import BlockLang.Proofs.Tree.Lines

namespace BlockLang

/-! ## States that differ in places only -/

/-- The two states differ in the places of tokens and in what they note for messages. -/
structure ParseState.Alike (s t : ParseState) : Prop where
  rest : s.rest.map Token.face = t.rest.map Token.face
  closing : s.closing.face = t.closing.face
  scopes : s.scopes = t.scopes
  cursor : s.cursor = t.cursor

namespace ParseState

namespace Alike

variable {s t : ParseState}

theorem refl (s : ParseState) : s.Alike s := ⟨rfl, rfl, rfl, rfl⟩

theorem peekAt (h : s.Alike t) (k : Nat) : (s.peekAt k).face = (t.peekAt k).face := by
  have hget : (s.rest[k]?).map Token.face = (t.rest[k]?).map Token.face := by
    rw [← List.getElem?_map, ← List.getElem?_map, h.rest]
  rw [ParseState.peekAt, ParseState.peekAt]
  cases hs : s.rest[k]? with
  | none =>
      rw [hs, Option.map_none] at hget
      rw [Option.map_eq_none_iff.mp hget.symm]
      exact h.closing
  | some a =>
      rw [hs, Option.map_some] at hget
      obtain ⟨b, hb, hface⟩ := Option.map_eq_some_iff.mp hget.symm
      rw [hb]
      exact hface.symm

theorem current (h : s.Alike t) : s.current.face = t.current.face := h.peekAt 0

theorem kindAt (h : s.Alike t) (k : Nat) : (s.peekAt k).kind = (t.peekAt k).kind :=
  Token.kind_eq (h.peekAt k)

theorem check (h : s.Alike t) (kind : TokenKind) : s.check kind = t.check kind := by
  rw [ParseState.check, ParseState.check, Token.kind_eq h.current]

theorem atEnd (h : s.Alike t) : s.atEnd = t.atEnd := h.check .endOfInput

theorem advance (h : s.Alike t) : s.advance.Alike t.advance := by
  have hrest := h.rest
  unfold ParseState.advance
  cases hs : s.rest with
  | nil =>
      rw [hs, List.map_nil] at hrest
      rw [List.map_eq_nil_iff.mp hrest.symm]
      exact h
  | cons a as =>
      rw [hs, List.map_cons] at hrest
      obtain ⟨b, bs, ht, hface, hfaces⟩ := List.map_eq_cons_iff.mp hrest.symm
      rw [ht]
      dsimp only
      rw [Token.kind_eq hface]
      split
      · exact h
      · exact ⟨hfaces.symm, h.closing, h.scopes, h.cursor⟩

theorem pass (h : s.Alike t) (kind : TokenKind) : (s.pass kind).Alike (t.pass kind) := by
  rw [ParseState.pass, ParseState.pass, h.check kind]
  split
  · exact h.advance
  · exact h

theorem withCursor (h : s.Alike t) (cursor : Cursor) :
    ParseState.Alike { s with cursor } { t with cursor } :=
  ⟨h.rest, h.closing, h.scopes, rfl⟩

theorem atMethodBody (h : s.Alike t) : s.atMethodBody = t.atMethodBody := by
  have hclose (as bs : List Token) (hfaces : as.map Token.face = bs.map Token.face) (depth : Nat) :
      closesBeforeDo depth as = closesBeforeDo depth bs := by
    induction as generalizing bs depth with
    | nil => rw [List.map_eq_nil_iff.mp hfaces.symm]
    | cons a as ih =>
        obtain ⟨b, bs, rfl, hface, hrest⟩ := List.map_eq_cons_iff.mp hfaces.symm
        have hdo : as.head?.map Token.isDo = bs.head?.map Token.isDo := by
          cases as with
          | nil => rw [List.map_eq_nil_iff.mp hrest]
          | cons a as =>
              obtain ⟨b, bs, rfl, hface, -⟩ := List.map_eq_cons_iff.mp hrest
              simp only [List.head?_cons, Option.map_some, Token.isDo_eq hface]
        simp only [closesBeforeDo, Token.kind_eq hface, ih bs hrest.symm, hdo]
  rw [ParseState.atMethodBody, ParseState.atMethodBody]
  exact hclose _ _ (by rw [List.map_drop, List.map_drop, h.rest]) 0

end Alike

/-- Tokens that differ in places only have states in front of them that do so. -/
theorem alike_ofTokens {tokens tokens' : List Token}
    (h : tokens.map Token.face = tokens'.map Token.face) :
    (ofTokens tokens).Alike (ofTokens tokens') := by
  have hlast : (tokens.getLast?).map Token.face = (tokens'.getLast?).map Token.face := by
    rw [← List.getLast?_map, ← List.getLast?_map, h]
  unfold ofTokens
  cases ht : tokens.getLast? with
  | none =>
      rw [ht, Option.map_none] at hlast
      rw [Option.map_eq_none_iff.mp hlast.symm]
      exact .refl _
  | some t =>
      rw [ht, Option.map_some] at hlast
      obtain ⟨t', ht', hface⟩ := Option.map_eq_some_iff.mp hlast.symm
      rw [ht']
      dsimp only
      rw [Token.kind_eq hface]
      split
      · exact ⟨by rw [List.map_dropLast, List.map_dropLast, h], hface.symm, rfl, rfl⟩
      · exact ⟨h, rfl, rfl, rfl⟩

end ParseState

/-! ## Two runs -/

namespace ParseM

variable {α β γ δ : Type} {U : α → γ} {W : β → δ} {s t : ParseState}

/-- Whether something has gone wrong: there is no result, or an error was noted. -/
def Fails (p : Except ParseError α × ParseState) : Prop :=
  (∃ e, p.1 = .error e) ∨ p.2.errors ≠ []

/-- Two outcomes that have both gone wrong, or have both succeeded alike, where `U` gives what
    counts of a result. -/
inductive Matched (U : α → γ) (p q : Except ParseError α × ParseState) : Prop where
  | failed : Fails p → Fails q → Matched U p q
  | succeeded {a b : α} {s t : ParseState} : p = (.ok a, s) → q = (.ok b, t) → U a = U b →
      s.Alike t → s.errors = [] → t.errors = [] → Matched U p q

/-- From two states, two readers end alike, and neither forgets an error. -/
structure FollowsAt (U : α → γ) (x y : ParseM α) (s t : ParseState) : Prop where
  matched : s.errors = [] → t.errors = [] → Matched U (x.outcome s) (y.outcome t)
  left : s.errors ≠ [] → Fails (x.outcome s)
  right : t.errors ≠ [] → Fails (y.outcome t)

/-- Two readers that end alike from all states that differ in places only. -/
def Follows (U : α → γ) (x y : ParseM α) : Prop := ∀ s t, s.Alike t → FollowsAt U x y s t

theorem followsAt_pure {a b : α} (hab : U a = U b) (h : s.Alike t) :
    FollowsAt U (pure a : ParseM α) (pure b) s t :=
  ⟨fun hs ht => .succeeded rfl rfl hab h hs ht, .inr, .inr⟩

theorem follows_pure {a b : α} (hab : U a = U b) : Follows U (pure a : ParseM α) (pure b) :=
  fun _ _ h => followsAt_pure hab h

theorem follows_throw {e e' : ParseError} : Follows U (throw e : ParseM α) (throw e') :=
  fun _ _ _ => ⟨fun _ _ => .failed (.inl ⟨e, rfl⟩) (.inl ⟨e', rfl⟩), .inr, .inr⟩

/-- What follows a failure fails. -/
theorem fails_bind {x : ParseM α} {f : α → ParseM β} (h : Fails (x.outcome s))
    (hf : ∀ a s₁, s₁.errors ≠ [] → Fails ((f a).outcome s₁)) : Fails ((x >>= f).outcome s) := by
  rw [outcome_bind]
  rcases hx : x.outcome s with ⟨e | a, s₁⟩
  · exact .inl ⟨e, rfl⟩
  · rw [hx] at h
    rcases h with ⟨e, he⟩ | herrors
    · cases he
    · exact hf a s₁ herrors

theorem followsAt_bind {x y : ParseM α} {f g : α → ParseM β} (hx : FollowsAt U x y s t)
    (hf : ∀ a b, U a = U b → Follows W (f a) (g b)) : FollowsAt W (x >>= f) (y >>= g) s t := by
  have hleft (a : α) (s₁ : ParseState) (herrors : s₁.errors ≠ []) : Fails ((f a).outcome s₁) :=
    (hf a a rfl s₁ s₁ (.refl s₁)).left herrors
  have hright (b : α) (t₁ : ParseState) (herrors : t₁.errors ≠ []) : Fails ((g b).outcome t₁) :=
    (hf b b rfl t₁ t₁ (.refl t₁)).right herrors
  refine ⟨fun hs ht => ?_, fun hs => fails_bind (hx.left hs) hleft,
    fun ht => fails_bind (hx.right ht) hright⟩
  cases hx.matched hs ht with
  | failed hp hq => exact .failed (fails_bind hp hleft) (fails_bind hq hright)
  | succeeded hp hq hab halike hs₁ ht₁ =>
      rw [outcome_bind, outcome_bind, hp, hq]
      exact (hf _ _ hab _ _ halike).matched hs₁ ht₁

theorem follows_bind {x y : ParseM α} {f g : α → ParseM β} (hx : Follows U x y)
    (hf : ∀ a b, U a = U b → Follows W (f a) (g b)) : Follows W (x >>= f) (y >>= g) :=
  fun s t h => followsAt_bind (hx s t h) hf

theorem follows_get {f g : ParseState → ParseM β}
    (hf : ∀ s t, s.Alike t → FollowsAt W (f s) (g t) s t) : Follows W (get >>= f) (get >>= g) :=
  fun s t h => ⟨(hf s t h).matched, (hf s t h).left, (hf s t h).right⟩

/-- A step to other states that keep the errors. -/
theorem followsAt_set {s₁ t₁ : ParseState} {f g : PUnit → ParseM β} (hs : s₁.errors = s.errors)
    (ht : t₁.errors = t.errors) (h : FollowsAt W (f ⟨⟩) (g ⟨⟩) s₁ t₁) :
    FollowsAt W (set s₁ >>= f) (set t₁ >>= g) s t := by
  refine ⟨fun hs₁ ht₁ => ?_, fun herrors => ?_, fun herrors => ?_⟩
  · exact h.matched (hs.trans hs₁) (ht.trans ht₁)
  · exact h.left (hs ▸ herrors)
  · exact h.right (ht ▸ herrors)

theorem followsAt_ite {c c' : Prop} [Decidable c] [Decidable c'] {x x' y y' : ParseM α}
    (hc : c ↔ c') (hx : FollowsAt U x x' s t) (hy : FollowsAt U y y' s t) :
    FollowsAt U (if c then x else y) (if c' then x' else y') s t := by
  by_cases h : c
  · rw [if_pos h, if_pos (hc.mp h)]
    exact hx
  · rw [if_neg h, if_neg (mt hc.mpr h)]
    exact hy

theorem follows_ite {c c' : Prop} [Decidable c] [Decidable c'] {x x' y y' : ParseM α}
    (hc : c ↔ c') (hx : Follows U x x') (hy : Follows U y y') :
    Follows U (if c then x else y) (if c' then x' else y') :=
  fun s t h => followsAt_ite hc (hx s t h) (hy s t h)

theorem follows_withCursor {x y : ParseM α} (c : Cursor) (h : Follows U x y) :
    Follows U (withCursor c x) (withCursor c y) := by
  intro s t halike
  have hinner := h _ _ (halike.withCursor c)
  refine ⟨fun hs ht => ?_, fun hs => hinner.left hs, fun ht => hinner.right ht⟩
  rw [outcome_withCursor, outcome_withCursor]
  cases hinner.matched hs ht with
  | failed hp hq => exact .failed hp hq
  | succeeded hp hq hab halike₁ hs₁ ht₁ =>
      rw [hp, hq, halike.cursor]
      exact .succeeded rfl rfl hab (halike₁.withCursor t.cursor) hs₁ ht₁

/-! ## Single steps -/

theorem follows_next : Follows Token.face next next := by
  intro s t h
  refine ⟨fun hs ht => .succeeded rfl rfl h.current h.advance ?_ ?_, fun hs => .inr ?_,
    fun ht => .inr ?_⟩
  · rw [s.advance_errors, hs]
  · rw [t.advance_errors, ht]
  · rw [outcome_next, s.advance_errors]
    exact hs
  · rw [outcome_next, t.advance_errors]
    exact ht

theorem follows_accept (kind : TokenKind) : Follows id (accept kind) (accept kind) := by
  refine follows_get fun s t h => ?_
  refine followsAt_ite (by rw [h.check kind]) ?_ (followsAt_pure rfl h)
  exact followsAt_set s.advance_errors t.advance_errors (followsAt_pure rfl h.advance)

theorem follows_unexpected (expected : Expected) :
    Follows U (unexpected expected : ParseM α) (unexpected expected) :=
  follows_get fun s t h => follows_throw s t h

theorem follows_expect (expected : Expected) :
    Follows Token.face (expect expected) (expect expected) := by
  refine follows_get fun s t h => ?_
  refine followsAt_ite (by rw [h.check]) (follows_next s t h) (follows_unexpected expected s t h)

theorem follows_expectDo : Follows id expectDo expectDo := by
  refine follows_get fun s t h => followsAt_ite (by rw [Token.isDo_eq h.current]) ?_ ?_
  · exact follows_bind follows_next (fun _ _ _ => follows_pure rfl) s t h
  · exact follows_unexpected .blockStart s t h

theorem follows_expectType : Follows id expectType expectType :=
  follows_bind (follows_expect .typeName) fun _ _ h => follows_pure (Token.lexeme_eq h)

theorem follows_separated {x y : ParseM α} (h : Follows U x y) (budget : Nat) :
    Follows (List.map U) (separated x budget) (separated y budget) := by
  induction budget with
  | zero =>
      refine follows_bind h fun a b hab => follows_pure ?_
      rw [List.map_singleton, List.map_singleton, hab]
  | succ budget ih =>
      refine follows_bind h fun a b hab => ?_
      refine follows_bind (follows_accept .comma) fun more more' hmore => ?_
      refine follows_ite (by rw [show more = more' from hmore]) ?_ (follows_pure ?_)
      · refine follows_bind ih fun as bs has => follows_pure ?_
        rw [List.map_cons, List.map_cons, hab, has]
      · rw [List.map_singleton, List.map_singleton, hab]

/-! ## Expressions -/

theorem follows_binaryRest (level : Level) {x y : ParseM Expr} (h : Follows Expr.unlined x y)
    (budget : Nat) {left left' : Expr} (hleft : left.unlined = left'.unlined) :
    Follows Expr.unlined (binaryRest level x budget left) (binaryRest level y budget left') := by
  induction budget generalizing left left' with
  | zero => exact follows_pure hleft
  | succ budget ih =>
      refine follows_get fun s t halike => ?_
      refine followsAt_ite (by rw [Token.kind_eq halike.current]) ?_ (followsAt_pure hleft halike)
      refine follows_bind follows_next (fun _ _ _ => ?_) s t halike
      refine follows_bind h fun right right' hright => ih ?_
      rw [Expr.unlined, Expr.unlined, hleft, hright, Token.unlined_operator_eq halike.current]

theorem follows_binary (budget : Nat) (level : Level) {x y : ParseM Expr}
    (h : Follows Expr.unlined x y) :
    Follows Expr.unlined (binary budget level x) (binary budget level y) :=
  follows_bind h fun _ _ hleft => follows_binaryRest level h budget hleft

theorem follows_callee {a b : Token} (h : a.face = b.face) :
    Follows Callee.unlined (callee a) (callee b) := by
  refine follows_ite (by rw [Token.kind_eq h]) (follows_pure ?_) (follows_get fun s t halike => ?_)
  · simp only [Callee.unlined, Token.unlined_ident_eq h]
  · rw [halike.scopes, halike.cursor, Token.lexeme_eq h]
    split
    · refine followsAt_pure ?_ halike
      simp only [Callee.unlined, Token.unlined_ident_eq h]
    · exact follows_throw s t halike

theorem follows_requireVariable {a b : Ident} (h : a.unlined = b.unlined) :
    Follows id (requireVariable a) (requireVariable b) := by
  have hname : a.name = b.name := (Ident.mk.inj h).1
  refine follows_get fun s t halike => ?_
  rw [halike.scopes, halike.cursor, hname]
  split
  · exact followsAt_pure rfl halike
  · exact follows_throw s t halike
  · exact follows_throw s t halike

theorem follows_noExpression : Follows U (noExpression : ParseM α) noExpression :=
  follows_get fun s t h => follows_throw s t h

section Nested

variable {x y : ParseM Expr} (h : Follows Expr.unlined x y)
include h

theorem follows_arguments (budget : Nat) :
    Follows (List.map Expr.unlined) (arguments budget x) (arguments budget y) := by
  have hclose (args args' : List Expr) (hargs : args.map Expr.unlined = args'.map Expr.unlined) :
      Follows (List.map Expr.unlined) (do let _ ← expect .rightParen; return args)
        (do let _ ← expect .rightParen; return args') :=
    follows_bind (follows_expect .rightParen) fun _ _ _ => follows_pure hargs
  refine follows_bind (follows_expect .leftParen) fun _ _ _ => follows_get fun s t halike => ?_
  refine followsAt_ite (by rw [halike.check]) ?_ ?_
  · exact followsAt_bind (U := List.map Expr.unlined) (followsAt_pure rfl halike) hclose
  · exact followsAt_bind (follows_separated h budget s t halike) hclose

theorem follows_call (budget : Nat) :
    Follows (fun p => (p.1.unlined, p.2.map Expr.unlined)) (call budget x) (call budget y) := by
  refine follows_bind follows_next fun a b hface => ?_
  refine follows_bind (follows_callee hface) fun target target' htarget => ?_
  refine follows_bind (follows_arguments h budget) fun args args' hargs => follows_pure ?_
  rw [htarget, hargs]

theorem follows_assignment :
    Follows (fun p => (p.1.unlined, p.2.unlined)) (assignment x) (assignment y) := by
  refine follows_bind follows_next fun a b hface => ?_
  have htarget := Token.unlined_ident_eq hface
  refine follows_bind (follows_requireVariable htarget) fun _ _ _ => ?_
  refine follows_bind (follows_expect .equal) fun _ _ _ => ?_
  refine follows_bind h fun value value' hvalue => follows_pure ?_
  rw [htarget, hvalue]

theorem follows_primary (budget : Nat) :
    Follows Expr.unlined (primary budget x) (primary budget y) := by
  have hliteral : Follows Expr.unlined literal literal := by
    refine follows_bind follows_next fun a b hface => ?_
    rw [Token.literal_eq hface]
    split
    · exact follows_pure rfl
    · exact follows_throw
  have hname : Follows Expr.unlined nameUse nameUse := by
    refine follows_bind follows_next fun a b hface => follows_get fun s t halike => ?_
    have hident := Token.unlined_ident_eq hface
    refine followsAt_ite ?_ (followsAt_pure ?_ halike) (follows_throw s t halike)
    · rw [halike.scopes, halike.cursor, show (Ident.ofToken a).name = (Ident.ofToken b).name from
        Token.lexeme_eq hface]
    · rw [Expr.unlined, Expr.unlined, hident]
  have hcall : Follows Expr.unlined (call budget x >>= fun p => pure (.call p.1 p.2))
      (call budget y >>= fun p => pure (.call p.1 p.2)) := by
    refine follows_bind (follows_call h budget) fun p q hpq => follows_pure ?_
    obtain ⟨htarget, hargs⟩ := Prod.mk.inj hpq
    rw [Expr.unlined, Expr.unlined, unlinedExprs_eq_map, unlinedExprs_eq_map, htarget, hargs]
  have hgrouping : Follows Expr.unlined (grouping x) (grouping y) := by
    refine follows_bind follows_next fun _ _ _ => follows_bind h fun inner inner' hinner => ?_
    refine follows_bind (follows_accept .rightParen) fun closed closed' hclosed => ?_
    refine follows_ite (by rw [show closed = closed' from hclosed]) (follows_pure ?_) follows_throw
    rw [Expr.unlined, Expr.unlined, hinner]
  refine follows_get fun s t halike => ?_
  dsimp only
  rw [Token.kind_eq halike.current, halike.kindAt 1]
  -- Cases 6 to 9 are names, built-in methods, parentheses and what starts no expression.
  split
  case h_6 => exact followsAt_ite .rfl (hcall s t halike) (hname s t halike)
  case h_7 => exact followsAt_ite .rfl (hcall s t halike) (follows_noExpression s t halike)
  case h_8 => exact hgrouping s t halike
  case h_9 => exact follows_noExpression s t halike
  all_goals exact hliteral s t halike

theorem follows_unary (budget signs : Nat) :
    Follows Expr.unlined (unary budget x signs) (unary budget y signs) := by
  induction signs with
  | zero => exact follows_primary h budget
  | succ signs ih =>
      refine follows_get fun s t halike => ?_
      refine followsAt_ite (by rw [Token.kind_eq halike.current]) ?_
        (follows_primary h budget s t halike)
      refine follows_bind follows_next (fun _ _ _ => ?_) s t halike
      refine follows_bind ih fun operand operand' hoperand => follows_pure ?_
      rw [Expr.unlined, Expr.unlined, hoperand, Token.unlined_operator_eq halike.current]

theorem follows_operation (budget : Nat) :
    Follows Expr.unlined (operation budget x) (operation budget y) :=
  follows_binary _ _ <| follows_binary _ _ <| follows_binary _ _ <| follows_binary _ _ <|
    follows_binary _ _ <| follows_unary h budget budget

end Nested

theorem follows_expression (budget : Nat) :
    Follows Expr.unlined (expression budget) (expression budget) := by
  induction budget with
  | zero => exact follows_noExpression
  | succ budget ih =>
      refine follows_get fun s t halike => ?_
      refine followsAt_ite (by rw [halike.check, halike.kindAt 1]) ?_
        (follows_operation ih (budget + 1) s t halike)
      refine follows_bind (follows_assignment ih) (fun p q hpq => follows_pure ?_) s t halike
      obtain ⟨htarget, hvalue⟩ := Prod.mk.inj hpq
      rw [Expr.unlined, Expr.unlined, htarget, hvalue]

/-! ## Items -/

/-- Readers that give up behind other states. -/
theorem followsAt_setThrow {s₁ t₁ : ParseState} {e e' : ParseError} :
    FollowsAt U (set s₁ >>= fun _ => (throw e : ParseM α)) (set t₁ >>= fun _ => throw e') s t :=
  ⟨fun _ _ => .failed (.inl ⟨e, rfl⟩) (.inl ⟨e', rfl⟩), fun _ => .inl ⟨e, rfl⟩,
    fun _ => .inl ⟨e', rfl⟩⟩

theorem follows_modify {f g : ParseState → ParseState}
    (hf : ∀ s t, s.Alike t → (f s).Alike (g t)) (hs : ∀ s, (f s).errors = s.errors)
    (ht : ∀ t, (g t).errors = t.errors) :
    Follows id (modify f : ParseM PUnit) (modify g) := by
  intro s t h
  refine ⟨fun herrors herrors' => ?_, fun herrors => .inr ?_, fun herrors => .inr ?_⟩
  · exact .succeeded rfl rfl rfl (hf s t h) ((hs s).trans herrors) ((ht t).trans herrors')
  · rw [outcome_modify, hs]
    exact herrors
  · rw [outcome_modify, ht]
    exact herrors

theorem follows_declare {line line' : Nat}
    (add : ScopeTable → Cursor → Except ScopeError (α × ScopeTable)) :
    Follows id (declare line add) (declare line' add) := by
  refine follows_get fun s t h => ?_
  rw [h.scopes, h.cursor]
  split
  · rename_i id scopes _
    exact followsAt_set rfl rfl (followsAt_pure rfl ⟨h.rest, h.closing, rfl, rfl⟩)
  · exact follows_throw s t h

theorem follows_methodDeclaration (budget : Nat) :
    Follows Item.unlined (methodDeclaration budget) (methodDeclaration budget) := by
  refine follows_bind follows_next fun a b hface => ?_
  have hname : (Ident.ofToken a).name = (Ident.ofToken b).name := Token.lexeme_eq hface
  refine follows_bind (follows_expect .typeSeparator) fun _ _ _ => ?_
  refine follows_bind follows_expectType fun type type' htype => ?_
  refine follows_bind (follows_expect .arrow) fun _ _ _ => ?_
  refine follows_bind (follows_separated follows_expectType budget) fun types types' htypes => ?_
  obtain rfl : type = type' := htype
  obtain rfl : types = types' := by simpa using htypes
  rw [hname]
  refine follows_bind (follows_declare _) fun _ _ _ => ?_
  refine follows_bind (follows_accept .semicolon) fun _ _ _ => follows_pure ?_
  rw [Item.unlined, Item.unlined, Token.unlined_ident_eq hface]

theorem follows_varDeclaration : Follows Item.unlined varDeclaration varDeclaration := by
  refine follows_bind follows_next fun a b hface => ?_
  have hname : (Ident.ofToken a).name = (Ident.ofToken b).name := Token.lexeme_eq hface
  refine follows_bind (follows_expect .typeSeparator) fun _ _ _ => ?_
  refine follows_bind follows_expectType fun type type' htype => ?_
  obtain rfl : type = type' := htype
  rw [hname]
  refine follows_bind (follows_declare _) fun _ _ _ => ?_
  refine follows_bind (follows_accept .semicolon) fun _ _ _ => follows_pure ?_
  rw [Item.unlined, Item.unlined, Token.unlined_ident_eq hface]

theorem follows_pattern (budget : Nat) (m : MethodId) :
    Follows Pattern.unlined (pattern budget m) (pattern budget m) := by
  refine follows_get fun s t h => ?_
  refine followsAt_ite (by rw [h.check, h.kindAt 1]) ?_ ?_
  · refine follows_bind follows_next (fun a b hface => ?_) s t h
    dsimp only
    rw [show (Ident.ofToken a).name = (Ident.ofToken b).name from Token.lexeme_eq hface]
    refine follows_bind (follows_modify ?_ (fun _ => rfl) fun _ => rfl) fun _ _ _ => ?_
    · intro s t h
      exact ⟨h.rest, h.closing, by rw [h.scopes], h.cursor⟩
    · refine follows_pure ?_
      rw [Pattern.unlined, Pattern.unlined, Token.unlined_ident_eq hface]
  · have hvalue := follows_unary (follows_expression budget) budget budget
    refine followsAt_bind (hvalue s t h) fun value value' hvalue => ?_
    refine follows_ite ?_ (follows_pure ?_) follows_throw
    · rw [← value.isConstant_unlined, ← value'.isConstant_unlined, hvalue]
    · rw [Pattern.unlined, Pattern.unlined, hvalue]

section Blocks

variable {content content' : StateM ParseState (List Item)}
  (hc : Follows unlinedItems (liftM content : ParseM (List Item)) (liftM content'))
include hc

theorem follows_block (construct : Construct) {line line' : Nat} :
    Follows unlinedItems (block construct line content) (block construct line' content') := by
  refine follows_bind hc fun body body' hbody => ?_
  refine follows_bind (follows_accept .kwEnd) fun closed closed' hclosed => ?_
  exact follows_ite (by rw [show closed = closed' from hclosed]) (follows_pure hbody) follows_throw

theorem follows_classDeclaration :
    Follows Item.unlined (classDeclaration content) (classDeclaration content') := by
  refine follows_bind follows_next fun _ _ _ => ?_
  refine follows_bind (follows_expect .className) fun a b hface => follows_get fun s t h => ?_
  rw [h.scopes, h.cursor, show (Ident.ofToken a).name = (Ident.ofToken b).name from
    Token.lexeme_eq hface]
  split
  · rename_i id scopes _
    refine followsAt_set rfl rfl ?_
    refine followsAt_bind (follows_withCursor (.inClass id) (follows_block hc .classDecl) _ _
      ⟨h.rest, h.closing, rfl, rfl⟩) fun body body' hbody => follows_pure ?_
    rw [Item.unlined, Item.unlined, hbody, Token.unlined_ident_eq hface]
  · exact followsAt_setThrow

theorem follows_conditional (budget : Nat) (construct : Construct)
    {make : Expr → List Item → Nat → Item}
    (hmake : ∀ e body line, (make e body line).unlined = make e.unlined (unlinedItems body) 0) :
    Follows Item.unlined (conditional budget construct make content)
      (conditional budget construct make content') := by
  refine follows_bind follows_next fun a b _ => ?_
  refine follows_bind (follows_expression budget) fun e e' he => ?_
  refine follows_bind follows_expectDo fun _ _ _ => ?_
  refine follows_bind (follows_block hc construct) fun body body' hbody => follows_pure ?_
  rw [hmake, hmake, he, hbody]

theorem follows_methodBodyRest (budget : Nat) {name name' : Ident}
    (hname : name.unlined = name'.unlined) (m : MethodId) :
    Follows Item.unlined (methodBodyRest budget name m content)
      (methodBodyRest budget name' m content') := by
  refine follows_bind (follows_expect .leftParen) fun _ _ _ => follows_get fun s t h => ?_
  refine followsAt_ite (by rw [h.check])
    (followsAt_bind (U := List.map Pattern.unlined) (followsAt_pure rfl h) ?_)
    (followsAt_bind (follows_separated (follows_pattern budget m) budget s t h) ?_)
  all_goals
    intro ps ps' hps
    refine follows_bind (follows_expect .rightParen) fun _ _ _ => ?_
    refine follows_bind follows_expectDo fun _ _ _ => ?_
    refine follows_bind (follows_block hc .methodBody) fun body body' hbody => ?_
    refine follows_get fun s t h => followsAt_set rfl rfl (followsAt_pure ?_ ?_)
    · rw [Item.unlined, Item.unlined, hbody, BodyHead.unlined, BodyHead.unlined, hname, hps,
        h.scopes]
    · exact ⟨h.rest, h.closing, by rw [h.scopes], h.cursor⟩

theorem follows_methodBody (budget : Nat) :
    Follows Item.unlined (methodBody budget content) (methodBody budget content') := by
  refine follows_bind follows_next fun a b hface => follows_get fun s t h => ?_
  rw [h.scopes, h.cursor, show (Ident.ofToken a).name = (Ident.ofToken b).name from
    Token.lexeme_eq hface]
  split
  · refine follows_withCursor _ ?_ s t h
    exact follows_methodBodyRest hc budget (Token.unlined_ident_eq hface) _
  · exact followsAt_setThrow

theorem follows_bareStatement (budget : Nat) :
    Follows Item.unlined (bareStatement budget content) (bareStatement budget content') := by
  have hexpr : Follows Item.unlined (expression budget >>= fun e => pure (.expr e))
      (expression budget >>= fun e => pure (.expr e)) := by
    refine follows_bind (follows_expression budget) fun e e' he => follows_pure ?_
    rw [Item.unlined, Item.unlined, he]
  have hcall : Follows Item.unlined (callStatement budget) (callStatement budget) := by
    refine follows_bind (follows_call (follows_expression budget) budget) fun p q hpq => ?_
    obtain ⟨htarget, hargs⟩ := Prod.mk.inj hpq
    refine follows_pure ?_
    rw [Item.unlined, Item.unlined, unlinedExprs_eq_map, unlinedExprs_eq_map, htarget, hargs]
  have hassign : Follows Item.unlined
      (assignment (expression budget) >>= fun p => pure (.assign p.1 p.2))
      (assignment (expression budget) >>= fun p => pure (.assign p.1 p.2)) := by
    refine follows_bind (follows_assignment (follows_expression budget)) fun p q hpq => ?_
    obtain ⟨htarget, hvalue⟩ := Prod.mk.inj hpq
    refine follows_pure ?_
    rw [Item.unlined, Item.unlined, htarget, hvalue]
  refine follows_get fun s t h => ?_
  dsimp only
  rw [Token.kind_eq h.current, h.kindAt 1, h.atMethodBody]
  split
  · exact follows_conditional hc budget .whileLoop (fun _ _ _ => by rw [Item.unlined]) s t h
  · exact follows_conditional hc budget .ifThen (fun _ _ _ => by rw [Item.unlined]) s t h
  · refine followsAt_ite .rfl (followsAt_ite .rfl ?_ (hcall s t h)) ?_
    · exact follows_methodBody hc budget s t h
    · exact followsAt_ite .rfl (hassign s t h) (hexpr s t h)
  · exact followsAt_ite .rfl (hcall s t h) (hexpr s t h)
  · exact hexpr s t h

theorem follows_item (budget : Nat) :
    Follows Item.unlined (item budget content) (item budget content') := by
  have hstatement : Follows Item.unlined (statement budget content) (statement budget content') :=
    follows_bind (follows_bareStatement hc budget) fun _ _ hi =>
      follows_bind (follows_accept .semicolon) fun _ _ _ => follows_pure hi
  refine follows_get fun s t h => ?_
  refine followsAt_ite (by rw [h.check]) (follows_classDeclaration hc s t h) ?_
  refine followsAt_ite (by rw [h.check, h.kindAt 3]) (follows_methodDeclaration budget s t h) ?_
  refine followsAt_ite (by rw [h.check, h.kindAt 1]) (follows_varDeclaration s t h) ?_
  exact hstatement s t h

end Blocks

end ParseM

/-! ## Programs -/

open ParseM

theorem errors_parseItems {budget : Nat} {inBlock : Bool} {s : ParseState} (hs : s.errors ≠ []) :
    ((parseItems budget inBlock).run s).2.errors ≠ [] := by
  have honward := onward_parseItems budget inBlock s (.trivial s)
  exact fun hnil => hs (List.prefix_nil.mp (hnil ▸ honward.errors))

/-- A round in which something goes wrong leaves an error behind. -/
theorem errors_parseItems_of_fails {budget : Nat} {inBlock : Bool} {s : ParseState}
    (hgo : ¬ (s.atEnd || (inBlock && s.check .kwEnd)))
    (h : Fails ((item (budget + 1) (parseItems budget true)).outcome s)) :
    ((parseItems (budget + 1) inBlock).run s).2.errors ≠ [] := by
  rw [parseItems_succ, if_neg hgo]
  rcases hitem : (item (budget + 1) (parseItems budget true)).outcome s with ⟨e | i, s₁⟩
  · refine errors_parseItems ?_
    rw [((s₁.report e).plain_synchronize s).errors]
    exact List.append_ne_nil_of_right_ne_nil _ (List.cons_ne_nil _ _)
  · rw [hitem] at h
    rcases h with ⟨e, he⟩ | herrors
    · cases he
    · exact errors_parseItems herrors

/-- A round in which nothing goes wrong reads an item and goes on. -/
theorem outcome_parseItems_of_ok {budget : Nat} {inBlock : Bool} {s s₁ : ParseState} {i : Item}
    (hgo : ¬ (s.atEnd || (inBlock && s.check .kwEnd)))
    (h : (item (budget + 1) (parseItems budget true)).outcome s = (.ok i, s₁)) :
    (liftM (parseItems (budget + 1) inBlock) : ParseM (List Item)).outcome s =
      ((liftM (parseItems budget inBlock) : ParseM (List Item)) >>=
        fun is => pure (i :: is)).outcome s₁ := by
  rw [outcome_lift, parseItems_succ, if_neg hgo, h]
  rfl

theorem follows_parseItems (budget : Nat) (inBlock : Bool) :
    Follows unlinedItems (liftM (parseItems budget inBlock) : ParseM (List Item))
      (liftM (parseItems budget inBlock)) := by
  induction budget generalizing inBlock with
  | zero => exact follows_pure rfl
  | succ budget ih =>
      intro s t h
      -- Errors are never taken back, so the two sides are compared only while neither has one.
      refine ⟨fun hs ht => ?_, fun hs => .inr ?_, fun ht => .inr ?_⟩
      rotate_left
      · show ((parseItems (budget + 1) inBlock).run s).2.errors ≠ []
        exact errors_parseItems hs
      · show ((parseItems (budget + 1) inBlock).run t).2.errors ≠ []
        exact errors_parseItems ht
      have hstop : (t.atEnd || (inBlock && t.check .kwEnd)) =
          (s.atEnd || (inBlock && s.check .kwEnd)) := by rw [h.atEnd, h.check]
      by_cases hgo : s.atEnd || (inBlock && s.check .kwEnd)
      · rw [outcome_lift, outcome_lift, parseItems_succ, parseItems_succ, hstop, if_pos hgo,
          if_pos hgo]
        exact .succeeded rfl rfl rfl h hs ht
      · have hgo' : ¬ (t.atEnd || (inBlock && t.check .kwEnd)) := hstop ▸ hgo
        cases (follows_item (ih true) (budget + 1) s t h).matched hs ht with
        | failed hp hq =>
            exact .failed (.inr (errors_parseItems_of_fails hgo hp))
              (.inr (errors_parseItems_of_fails hgo' hq))
        | @succeeded i i' s₁ t₁ hp hq hi halike hs₁ ht₁ =>
            rw [outcome_parseItems_of_ok hgo hp, outcome_parseItems_of_ok hgo' hq]
            refine (followsAt_bind (ih inBlock s₁ t₁ halike) fun is is' his => ?_).matched hs₁ ht₁
            refine follows_pure ?_
            rw [unlinedItems, unlinedItems, hi, his]

end BlockLang
