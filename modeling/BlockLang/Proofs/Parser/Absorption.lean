/-
  BlockLang.Proofs.Parser.Absorption

  One more semicolon inside what is read.

  A semicolon may follow each item but a class.  So a reader of items does not mind one at the
  end of an item that has none yet, in whatever block the item stands: what comes in front of
  it is decided as before, the item passes it, and from there on reading goes on as if it were
  not there.  The place is told by the number of words behind it, which does not depend on the
  other semicolons.
-/
import BlockLang.Proofs.Parser.ItemTolerance
import BlockLang.Proofs.Parser.Stratification

namespace BlockLang

/-! ## Where declarations and statements end -/

/-- The items of the block of an item; there are none without a block. -/
def Item.block : Item → List Item
  | .classDecl _ body => body
  | .ifThen _ body _ => body
  | .whileLoop _ body _ => body
  | .methodBody _ body => body
  | _ => []

/-- Whether an item is a class. -/
def Item.isClass : Item → Bool
  | .classDecl _ _ => true
  | _ => false

/-- Where a declaration or a statement in some items ends, at any depth, as the number of
    words that follow it.  A class is neither, but has them inside it. -/
inductive Ending : List Item → Nat → Prop where
  | here {i is} : i.isClass = false → Ending (i :: is) (wordsOfItems is).length
  /-- Behind the end of an item of a block there is the `end` of the block. -/
  | inBlock {i is k} : Ending i.block k → Ending (i :: is) (k + 1 + (wordsOfItems is).length)
  | later {i is k} : Ending is k → Ending (i :: is) k

/-- Where a declaration or a statement ends that is in a block of these items, `end` being one
    more word behind it. -/
def BlockEnding (body : List Item) (k : Nat) : Prop := ∃ j, Ending body j ∧ k = j + 1

theorem not_ending_nil {k : Nat} : ¬Ending [] k := nofun

theorem not_blockEnding_nil {k : Nat} : ¬BlockEnding [] k :=
  fun ⟨_, h, _⟩ => not_ending_nil h

/-- An item alone ends behind its last word, unless it is a class. -/
theorem ending_singleton_iff {i : Item} {k : Nat} :
    Ending [i] k ↔ (i.isClass = false ∧ k = 0) ∨ BlockEnding i.block k := by
  constructor
  · intro h
    cases h with
    | here hclass => exact .inl ⟨hclass, rfl⟩
    | inBlock h => exact .inr ⟨_, h, rfl⟩
    | later h => exact absurd h not_ending_nil
  · rintro (⟨hclass, rfl⟩ | ⟨j, h, rfl⟩)
    · exact .here hclass
    · exact .inBlock h

/-- Behind an item in a list there are the words of the others. -/
theorem ending_cons_iff {i : Item} {is : List Item} {k : Nat} :
    Ending (i :: is) k ↔
      (∃ j, Ending [i] j ∧ k = j + (wordsOfItems is).length) ∨ Ending is k := by
  constructor
  · intro h
    cases h with
    | here hclass => exact .inl ⟨0, .here hclass, (Nat.zero_add _).symm⟩
    | inBlock h => exact .inl ⟨_, .inBlock h, rfl⟩
    | later h => exact .inr h
  · rintro (⟨j, h, rfl⟩ | h)
    · rcases ending_singleton_iff.mp h with ⟨hclass, rfl⟩ | ⟨j, hblock, rfl⟩
      · rw [Nat.zero_add]
        exact .here hclass
      · exact .inBlock hblock
    · exact .later h

/-- A block is written in an item, with at least its `end` around it. -/
theorem Item.length_block_lt (i : Item) : (wordsOfItems i.block).length < i.words.length := by
  cases i with
  | expr e => exact List.length_pos_iff.mpr e.words_ne_nil
  | classDecl name body =>
      simp only [block, words, inBlock, List.length_cons, List.length_append]
      omega
  | ifThen e body line =>
      simp only [block, words, inBlock, List.length_cons, List.length_append]
      omega
  | whileLoop e body line =>
      simp only [block, words, inBlock, List.length_cons, List.length_append]
      omega
  | methodBody head body =>
      simp only [block, words, inBlock, List.length_cons, List.length_append]
      omega
  | _ => exact Nat.zero_lt_succ _

/-- An ending is inside the items. -/
theorem Ending.lt {is : List Item} {k : Nat} (h : Ending is k) : k < (wordsOfItems is).length := by
  induction h with
  | @here i is _ =>
      have hlt := i.length_block_lt
      rw [wordsOfItems, List.length_append]
      omega
  | @inBlock i is k _ ih =>
      have hlt := i.length_block_lt
      rw [wordsOfItems, List.length_append]
      omega
  | later _ ih =>
      rw [wordsOfItems, List.length_append]
      omega

/-! ## Places between tokens -/

theorem length_wordsRead_append (ts us : List Token) :
    (wordsRead (ts ++ us)).length = (wordsRead ts).length + (wordsRead us).length := by
  simp [wordsRead]

/-- A place between two tokens none of which is a semicolon. -/
structure Unseparated (front back : List Token) : Prop where
  before : ∀ t ∈ front.getLast?, t.kind ≠ .semicolon
  behind : ∀ t ∈ back.head?, t.kind ≠ .semicolon

namespace Unseparated

variable {front back rest : List Token}

theorem of_append {read : List Token} (h : Unseparated (read ++ front) back) (hne : front ≠ []) :
    Unseparated front back := by
  refine ⟨fun t ht => h.before t ?_, h.behind⟩
  rwa [List.getLast?_append_of_ne_nil _ hne]

/-- There is a word right in front of the place. -/
theorem eq_nil_of_wordsRead (h : Unseparated (rest ++ front) back)
    (hfront : (wordsRead front).length = 0) : front = [] := by
  by_contra hne
  have hlast := (h.of_append hne).before _ (List.getLast?_eq_some_getLast hne)
  have hnone : wordsRead front = [] := List.length_eq_zero_iff.mp hfront
  simp only [wordsRead, List.map_eq_nil_iff, List.filter_eq_nil_iff] at hnone
  exact hnone _ (List.getLast_mem hne) (by simpa using hlast)

/-- There is a word right behind the place, or nothing. -/
theorem eq_nil_of_wordsRead_behind (h : Unseparated front (back ++ rest))
    (hback : (wordsRead back).length = 0) : back = [] := by
  cases back with
  | nil => rfl
  | cons t back =>
      have hfirst := h.behind t rfl
      simp [wordsRead, hfirst] at hback

end Unseparated

/-! ## Readers that absorb a semicolon -/

namespace ParseM

variable {α β : Type} {n : Nat}

/-- From this state, if a reader succeeds without noting an error, it yields the same with a
    semicolon at each place among the tokens it passes that `P` allows, as the number of words
    that it passes behind the place. -/
structure AbsorbsAt (P : α → Nat → Prop) (x : ParseM α) (s : ParseState) : Prop where
  inside : ∀ ⦃a s' read k⦄, x.outcome s = (.ok a, s') → s.Passes read s' → s'.errors = [] →
    P a k → k < (wordsRead read).length
  absorbs : ∀ ⦃a s' front back semi⦄, x.outcome s = (.ok a, s') → s.Passes (front ++ back) s' →
    s'.errors = [] → P a (wordsRead back).length → Unseparated front (back ++ s'.rest) →
    semi.kind = .semicolon → ∀ line, ∃ line',
      x.outcome (s.inFrontOf (front ++ semi :: (back ++ s'.rest)) line) =
        (.ok a, s'.inFrontOf s'.rest line')

/-- A reader that does so from every state, and goes onward. -/
structure Absorbs (P : α → Nat → Prop) (x : ParseM α) : Prop where
  goesOn : GoesOn (fun _ => True) x
  absorbs : ∀ s : ParseState, s.Closed → ArrowsTyped s.rest → AbsorbsAt P x s

namespace AbsorbsAt

variable {P : α → Nat → Prop} {Q : β → Nat → Prop} {x : ParseM α} {f : α → ParseM β}
  {s : ParseState}

/-- Where there is no place, there is nothing to absorb. -/
theorem of_none (h : ∀ a s', x.outcome s = (.ok a, s') → ∀ k, ¬P a k) : AbsorbsAt P x s :=
  ⟨fun a s' _ k hout _ _ hk => absurd hk (h a s' hout k),
    fun a s' _ _ _ hout _ _ hk => absurd hk (h a s' hout _)⟩

theorem or {P' : α → Nat → Prop} (h : AbsorbsAt P x s) (h' : AbsorbsAt P' x s) :
    AbsorbsAt (fun a k => P a k ∨ P' a k) x s where
  inside _ _ _ _ hout hread herrors hk :=
    hk.elim (h.inside hout hread herrors) (h'.inside hout hread herrors)
  absorbs _ _ _ _ _ hout hread herrors hk hplace hsemi :=
    hk.elim (fun hk => h.absorbs hout hread herrors hk hplace hsemi)
      fun hk => h'.absorbs hout hread herrors hk hplace hsemi

theorem mono {P' : α → Nat → Prop} (h : AbsorbsAt P x s)
    (hP : ∀ a s', x.outcome s = (.ok a, s') → ∀ k, P' a k → P a k) : AbsorbsAt P' x s where
  inside a s' _ k hout hread herrors hk := h.inside hout hread herrors (hP a s' hout k hk)
  absorbs a s' _ _ _ hout hread herrors hk := h.absorbs hout hread herrors (hP a s' hout _ hk)

/-- The place is among the tokens of the second step, which passes more words than follow the
    place. -/
theorem bind_right (hs : s.Closed) (htyped : ArrowsTyped s.rest)
    (hgo : Onward (fun _ => True) s (x.outcome s).2) (hx : ToleratesAt 1 x s)
    (hf : ∀ a, Absorbs Q (f a)) : AbsorbsAt Q (x >>= f) s := by
  constructor
  · intro b s' read k hout hread herrors hk
    obtain ⟨a, s₁, read₁, read₂, -, hb, hread₁, hread₂, -, rfl⟩ :=
      exists_steps hgo (fun a => (hf a).goesOn) hout hread herrors
    have hsecond := (hf a).absorbs s₁ (hread₁.closed hs) (htyped.passes hread₁)
    have hlt := hsecond.inside hb hread₂ herrors hk
    rw [length_wordsRead_append]
    omega
  · intro b s' front back semi hout hread herrors hk hplace hsemi line
    obtain ⟨a, s₁, read₁, read₂, ha, hb, hread₁, hread₂, herrors₁, hsplit⟩ :=
      exists_steps hgo (fun a => (hf a).goesOn) hout hread herrors
    have hsecond := (hf a).absorbs s₁ (hread₁.closed hs) (htyped.passes hread₁)
    have hlt := hsecond.inside hb hread₂ herrors hk
    obtain ⟨front₂, rfl, rfl, hne⟩ : ∃ front₂, front = read₁ ++ front₂ ∧ read₂ = front₂ ++ back ∧
        front₂ ≠ [] := by
      rcases List.append_eq_append_iff.mp hsplit with ⟨c, hread₁', hback⟩ | ⟨c, hfront, hread₂'⟩
      · rw [hback, length_wordsRead_append] at hlt
        omega
      · refine ⟨c, hfront, hread₂', ?_⟩
        rintro rfl
        rw [hread₂', List.nil_append] at hlt
        exact absurd hlt (lt_irrefl _)
    have hus : AddsSemicolon 1 s₁.rest (front₂ ++ semi :: (back ++ s'.rest)) := by
      rw [hread₂.rest, List.append_assoc]
      exact .one (List.length_pos_iff.mpr hne) hsemi
    obtain ⟨line₁, hx'⟩ := hx ha hread₁ herrors₁ hus line
    obtain ⟨line₂, hf'⟩ := hsecond.absorbs hb hread₂ herrors hk (hplace.of_append hne) hsemi line₁
    refine ⟨line₂, outcome_bind_ok.mpr ⟨a, _, ?_, hf'⟩⟩
    rw [List.append_assoc]
    exact hx'

/-- The place is among the tokens of the first step, and behind it are also the words that the
    second one passes. -/
theorem bind_left (h : AbsorbsAt P x s) (hs : s.Closed) (htyped : ArrowsTyped s.rest)
    (hgo : Onward (fun _ => True) s (x.outcome s).2) (hf : ∀ a, Tolerates n (f a))
    (hQ : ∀ a s₁ b s' read, (f a).outcome s₁ = (.ok b, s') → s₁.Closed → s₁.Passes read s' →
      s'.errors = [] → ∀ k, Q b k → ∃ j, P a j ∧ k = j + (wordsRead read).length) :
    AbsorbsAt Q (x >>= f) s := by
  constructor
  · intro b s' read k hout hread herrors hk
    obtain ⟨a, s₁, read₁, read₂, ha, hb, hread₁, hread₂, herrors₁, rfl⟩ :=
      exists_steps hgo (fun a => (hf a).goesOn) hout hread herrors
    obtain ⟨j, hj, rfl⟩ := hQ a s₁ b s' read₂ hb (hread₁.closed hs) hread₂ herrors k hk
    have hlt := h.inside ha hread₁ herrors₁ hj
    rw [length_wordsRead_append]
    omega
  · intro b s' front back semi hout hread herrors hk hplace hsemi line
    obtain ⟨a, s₁, read₁, read₂, ha, hb, hread₁, hread₂, herrors₁, hsplit⟩ :=
      exists_steps hgo (fun a => (hf a).goesOn) hout hread herrors
    obtain ⟨j, hj, hk⟩ := hQ a s₁ b s' read₂ hb (hread₁.closed hs) hread₂ herrors _ hk
    obtain ⟨back₁, rfl, rfl⟩ : ∃ back₁, read₁ = front ++ back₁ ∧ back = back₁ ++ read₂ := by
      rcases List.append_eq_append_iff.mp hsplit with ⟨c, hread₁', hback⟩ | ⟨c, hfront, hread₂'⟩
      · exact ⟨c, hread₁', hback⟩
      · -- Only semicolons would be in between, and the place is not behind one.
        have hnone : (wordsRead c).length = 0 := by
          rw [hread₂', length_wordsRead_append] at hk
          omega
        rw [hfront] at hplace
        obtain rfl := hplace.eq_nil_of_wordsRead hnone
        exact ⟨[], by simpa using hfront.symm, by simpa using hread₂'.symm⟩
    have hwords : (wordsRead back₁).length = j := by
      rw [length_wordsRead_append] at hk
      omega
    have hbehind : back₁ ++ read₂ ++ s'.rest = back₁ ++ s₁.rest := by
      rw [List.append_assoc, hread₂.rest]
    rw [hbehind] at hplace ⊢
    obtain ⟨line₁, hx'⟩ := h.absorbs ha hread₁ herrors₁ (hwords ▸ hj) hplace hsemi line
    obtain ⟨line₂, hf'⟩ := (hf a).tolerates s₁ (hread₁.closed hs) (htyped.passes hread₁) hb hread₂
      herrors .none line₁
    rw [← hread₂.rest] at hf'
    exact ⟨line₂, outcome_bind_ok.mpr ⟨a, _, hx', hf'⟩⟩

/-- A reader that looks at the state first, if it decides the same with the semicolon. -/
theorem get {f : ParseState → ParseM β} (h : AbsorbsAt Q (f s) s)
    (hf : ∀ b s' c front back us line, (f s).outcome s = (.ok b, s') →
      s.Passes (c :: front ++ back) s' → s'.errors = [] → Q b (wordsRead back).length →
      f (s.inFrontOf (c :: front ++ us) line) = f s) : AbsorbsAt Q (MonadState.get >>= f) s := by
  refine ⟨h.inside, ?_⟩
  intro b s' front back semi hout hread herrors hk hplace hsemi line
  rw [outcome_bind, outcome_get] at hout ⊢
  cases front with
  | nil => exact absurd (h.inside hout hread herrors hk) (lt_irrefl _)
  | cons c front =>
      dsimp only
      rw [hf b s' c front back _ line hout hread herrors hk]
      exact h.absorbs hout hread herrors hk hplace hsemi line

/-- A reader that decides by the next token. -/
theorem get_current {f : ParseState → ParseM β} (h : AbsorbsAt Q (f s) s)
    (hf : ∀ t : ParseState, t.current = s.current → f t = f s) :
    AbsorbsAt Q (MonadState.get >>= f) s :=
  h.get fun _ _ _ _ _ _ _ _ hread _ _ =>
    hf _ (hread.current_inFrontOf)

end AbsorbsAt

section Steps

variable {P : α → Nat → Prop} {Q : β → Nat → Prop} {x : ParseM α}

theorem AbsorbsAt.next {f : Token → ParseM β} {s : ParseState} (hs : s.Closed)
    (htyped : ArrowsTyped s.rest) (hend : s.atEnd = false) (hf : ∀ t, Absorbs Q (f t)) :
    AbsorbsAt Q (ParseM.next >>= f) s :=
  .bind_right hs htyped (Plain.advance s).onward (toleratesAt_next hs hend) hf

theorem absorbs_bind {f : α → ParseM β} (hx : Tolerates 1 x) (hf : ∀ a, Absorbs Q (f a)) :
    Absorbs Q (x >>= f) where
  goesOn := keeps_bind hx.goesOn fun a _ => (hf a).goesOn
  absorbs s hs htyped :=
    .bind_right hs htyped (hx.goesOn s (.trivial s)).1 (hx.tolerates s hs htyped) hf

/-- A step behind the place that passes no token. -/
theorem absorbs_bind_blind {f : α → ParseM β} (hx : Absorbs P x) (hf : ∀ a, Tolerates n (f a))
    (hrest : ∀ a s, ((f a).outcome s).2.rest = s.rest)
    (hQ : ∀ a s b s', (f a).outcome s = (.ok b, s') → ∀ k, Q b k → P a k) :
    Absorbs Q (x >>= f) where
  goesOn := keeps_bind hx.goesOn fun a _ => (hf a).goesOn
  absorbs s hs htyped := by
    refine (hx.absorbs s hs htyped).bind_left hs htyped (hx.goesOn s (.trivial s)).1 hf ?_
    intro a s₁ b s' read hout _ hread _ k hk
    have hsame := hrest a s₁
    rw [hout] at hsame
    obtain rfl := hread.eq_nil hsame
    exact ⟨k, hQ a s₁ b s' hout k hk, rfl⟩

theorem absorbs_map {g : α → β} (hx : Absorbs P x) (hQ : ∀ a k, Q (g a) k → P a k) :
    Absorbs Q (do let a ← x; return g a) := by
  refine absorbs_bind_blind (n := 0) hx (fun a => tolerates_pure _) (fun _ _ => rfl) ?_
  intro a s b s' hout k hk
  cases hout
  exact hQ a k hk

theorem absorbs_withCursor (c : Cursor) (h : Absorbs P x) : Absorbs P (withCursor c x) := by
  refine ⟨keeps_withCursor c h.goesOn, fun s hs htyped => ?_⟩
  have hinner := h.absorbs { s with cursor := c } hs htyped
  constructor
  · intro a s' read k hout hread herrors hk
    obtain ⟨s₁, hx, rfl⟩ := withCursor_ok hout
    exact hinner.inside hx ⟨hread.rest, hread.noEnd, hread.closing⟩ herrors hk
  · intro a s' front back semi hout hread herrors hk hplace hsemi line
    obtain ⟨s₁, hx, rfl⟩ := withCursor_ok hout
    have hread₁ : ParseState.Passes { s with cursor := c } (front ++ back) s₁ :=
      ⟨hread.rest, hread.noEnd, hread.closing⟩
    obtain ⟨line', hx'⟩ := hinner.absorbs hx hread₁ herrors hk hplace hsemi line
    exact ⟨line', withCursor_inFrontOf hx'⟩

/-- A list up to the parenthesis that closes it, in front of the place. -/
theorem absorbs_list {element : ParseM α} {k : List α → ParseM β} (h : Tolerates 1 element)
    (hk : ∀ as, Absorbs Q (k as)) (budget : Nat) : Absorbs Q (do
      let as ← if (← get).check .rightParen then pure [] else separated element budget
      k as) := by
  have helements := tolerates_separated h budget
  refine ⟨keeps_list helements.goesOn fun as => (hk as).goesOn, fun s hs htyped => ?_⟩
  refine .get_current ?_ fun t ht => ?_
  · split
    · exact (hk []).absorbs s hs htyped
    · exact .bind_right hs htyped (helements.goesOn s (.trivial s)).1
        (helements.tolerates s hs htyped) hk
  · have hcheck : t.check .rightParen = s.check .rightParen := by
      rw [ParseState.check, ht, ParseState.check]
    rw [hcheck]

end Steps

/-! ## Blocks -/

section Blocks

variable {content : StateM ParseState (List Item)}
  (h : Absorbs Ending (liftM content : ParseM (List Item)))
include h

theorem absorbs_block (construct : Construct) (line : Nat) :
    Absorbs BlockEnding (block construct line content) := by
  refine ⟨keeps_block (fun s hs => (h.goesOn s hs).1) construct line trivial, fun s hs htyped => ?_⟩
  rw [block_eq]
  refine (h.absorbs s hs htyped).bind_left (n := 0) hs htyped (h.goesOn s (.trivial s)).1
    (tolerates_blockEnd construct line) fun body s₁ body' s' read hout hs₁ hread _ k hk => ?_
  obtain ⟨rfl, last, hlast, hpass⟩ := blockEnd_ok hs₁ hout
  obtain rfl := hread.eq hpass
  obtain ⟨j, hj, rfl⟩ := hk
  exact ⟨j, hj, by simp [wordsRead, hlast]⟩

theorem absorbsAt_conditional {s : ParseState} (hs : s.Closed) (htyped : ArrowsTyped s.rest)
    (hend : s.atEnd = false) (budget : Nat) (construct : Construct)
    {make : Expr → List Item → Nat → Item}
    (hmake : ∀ e body line, (make e body line).block = body) :
    AbsorbsAt (fun i => BlockEnding i.block) (conditional budget construct make content) s := by
  refine .next hs htyped hend fun keyword => ?_
  refine absorbs_bind ((tolerates_expression budget).mono (Nat.zero_le 1)) fun e => ?_
  refine absorbs_bind tolerates_expectDo fun _ => ?_
  refine absorbs_map (absorbs_block h construct _) fun body k hk => ?_
  rwa [hmake] at hk

theorem absorbs_methodBodyRest (budget : Nat) (name : Ident) (m : MethodId) :
    Absorbs (fun i => BlockEnding i.block) (methodBodyRest budget name m content) := by
  refine absorbs_bind (tolerates_expect _) fun _ => ?_
  refine absorbs_list (tolerates_pattern budget m) (fun ps => ?_) budget
  refine absorbs_bind (tolerates_expect _) fun _ => ?_
  refine absorbs_bind tolerates_expectDo fun _ => ?_
  refine absorbs_bind_blind (n := 0) (absorbs_block h .methodBody _) (fun body => ?_)
    (fun _ _ => rfl) fun body s i s' hout k hk => ?_
  · exact tolerates_of_blind (fun s _ => ⟨(Onward.refl s).withScopes _, trivial⟩) (fun _ => rfl)
      fun _ _ _ => rfl
  · cases hout
    exact hk

variable (htol : Tolerates 1 (liftM content : ParseM (List Item)))
include htol

theorem absorbs_classBody (keyword : Token) (name : Ident) :
    Absorbs (fun i => BlockEnding i.block) (classBody keyword name content) := by
  have hbody (id : ClassId) : Absorbs (fun i => BlockEnding i.block) (do
      let body ← withCursor (.inClass id) (block .classDecl keyword.line content)
      return Item.classDecl name body) :=
    absorbs_map (absorbs_withCursor _ (absorbs_block h .classDecl _)) fun _ _ hk => hk
  refine ⟨(tolerates_classBody htol keyword name).goesOn, fun s hs htyped => ?_⟩
  constructor
  · intro i s' read k hout hread herrors hk
    obtain ⟨id, scopes, hadd⟩ := classBody_ok hout
    rw [outcome_classBody hadd] at hout
    exact ((hbody id).absorbs { s with scopes } hs htyped).inside hout
      ⟨hread.rest, hread.noEnd, hread.closing⟩ herrors hk
  · intro i s' front back semi hout hread herrors hk hplace hsemi line
    obtain ⟨id, scopes, hadd⟩ := classBody_ok hout
    rw [outcome_classBody hadd] at hout
    have hread' : ParseState.Passes { s with scopes } (front ++ back) s' :=
      ⟨hread.rest, hread.noEnd, hread.closing⟩
    obtain ⟨line', hout'⟩ := ((hbody id).absorbs { s with scopes } hs htyped).absorbs hout hread'
      herrors hk hplace hsemi line
    exact ⟨line', (outcome_classBody (s := s.inFrontOf _ line) hadd).trans hout'⟩

theorem absorbsAt_classDeclaration {s : ParseState} (hs : s.Closed) (htyped : ArrowsTyped s.rest)
    (hend : s.atEnd = false) :
    AbsorbsAt (fun i => BlockEnding i.block) (classDeclaration content) s := by
  rw [classDeclaration_eq]
  refine .next hs htyped hend fun keyword => ?_
  exact absorbs_bind (tolerates_expect _) fun name => absorbs_classBody h htol keyword _

theorem absorbs_namedBody (budget : Nat) (name : Ident) :
    Absorbs (fun i => BlockEnding i.block) (namedBody budget name content) := by
  have hbody (c : Cursor) (m : MethodId) : Absorbs (fun i => BlockEnding i.block)
      (withCursor c (methodBodyRest budget name m content)) :=
    absorbs_withCursor c (absorbs_methodBodyRest h budget name m)
  refine ⟨(tolerates_namedBody htol budget name).goesOn, fun s hs htyped => ?_⟩
  constructor
  · intro i s' read k hout hread herrors hk
    obtain ⟨m, hm⟩ := namedBody_ok hout
    rw [outcome_namedBody hm] at hout
    exact ((hbody _ m).absorbs s hs htyped).inside hout hread herrors hk
  · intro i s' front back semi hout hread herrors hk hplace hsemi line
    obtain ⟨m, hm⟩ := namedBody_ok hout
    rw [outcome_namedBody hm] at hout
    obtain ⟨line', hout'⟩ := ((hbody _ m).absorbs s hs htyped).absorbs hout hread herrors hk hplace
      hsemi line
    exact ⟨line', (outcome_namedBody (s := s.inFrontOf _ line) hm).trans hout'⟩

theorem absorbsAt_methodBody {s : ParseState} (hs : s.Closed) (htyped : ArrowsTyped s.rest)
    (hend : s.atEnd = false) (budget : Nat) :
    AbsorbsAt (fun i => BlockEnding i.block) (methodBody budget content) s := by
  rw [methodBody_eq]
  exact .next hs htyped hend fun name => absorbs_namedBody h htol budget _

end Blocks

/-! ## Items -/

/-- An item without a block absorbs nothing before its end. -/
theorem absorbsAt_of_yields {x : ParseM Item} {s : ParseState}
    (h : Yields (fun i => i.block = []) x) : AbsorbsAt (fun i => BlockEnding i.block) x s := by
  refine .of_none fun i s' hout k hk => ?_
  rw [h s i s' hout] at hk
  exact not_blockEnding_nil hk

section Blockless

variable (budget : Nat)

theorem yields_bareMethodDeclaration :
    Yields (fun i => i.block = []) (bareMethodDeclaration budget) :=
  yields_step fun _ => yields_step fun _ => yields_step fun _ => yields_step fun _ =>
    yields_step fun _ => yields_step fun _ => yields_pure rfl

theorem yields_bareVarDeclaration : Yields (fun i => i.block = []) bareVarDeclaration :=
  yields_step fun _ => yields_step fun _ => yields_step fun _ => yields_step fun _ =>
    yields_pure rfl

theorem yields_callStatement : Yields (fun i => i.block = []) (callStatement budget) :=
  yields_step fun _ => yields_pure rfl

end Blockless

section Statements

variable {content : StateM ParseState (List Item)} {s s' : ParseState} {budget : Nat} {i : Item}

/-- Of the statements that start with a name, only method bodies have blocks. -/
theorem methodBody_of_bareStatement (hname : s.check .identifier)
    (hout : (bareStatement budget content).outcome s = (.ok i, s')) (hblock : i.block ≠ []) :
    (s.peekAt 1).kind = .leftParen ∧ s.atMethodBody ∧
      (methodBody budget content).outcome s = (.ok i, s') := by
  have hkind : s.current.kind = .identifier := by simpa [ParseState.check] using hname
  have hnone {x : ParseM Item} (hx : Yields (fun i => i.block = []) x)
      (hout : x.outcome s = (.ok i, s')) : False :=
    hblock (hx s i s' hout)
  rw [bareStatement, outcome_bind, outcome_get] at hout
  simp only [hkind] at hout
  split at hout
  · rename_i hparen
    split at hout
    · exact ⟨hparen, ‹_›, hout⟩
    · exact (hnone (yields_callStatement budget) hout).elim
  · split at hout
    · exact (hnone (yields_step fun _ => yields_pure rfl) hout).elim
    · exact (hnone (yields_step fun _ => yields_pure rfl) hout).elim

variable (hc : ReadsItems content) (hs : s.Closed)
include hc hs

/-- An ending in the block of a method body has the head of the body in front of it, and the
    head decides what is read. -/
theorem decided_of_bareStatement {front back : List Token} (hname : s.check .identifier)
    (hout : (bareStatement budget content).outcome s = (.ok i, s'))
    (hread : s.Passes (front ++ back) s') (herrors : s'.errors = [])
    (hk : BlockEnding i.block (wordsRead back).length) (us : List Token) (line : Nat) :
    (∀ k < 4, (s.inFrontOf (front ++ us) line).peekAt k = s.peekAt k) ∧
      (s.inFrontOf (front ++ us) line).atMethodBody := by
  have hblock : i.block ≠ [] := fun hnil => not_blockEnding_nil (hnil ▸ hk)
  obtain ⟨-, -, hbody⟩ := methodBody_of_bareStatement hname hout hblock
  obtain ⟨opening, block, head, body, hopening, hpass, rfl, hwords⟩ :=
    methodBody_ok hc hs hname hbody herrors
  obtain ⟨j, hj, hk⟩ := hk
  have hlt : j < (wordsOfItems body).length := hj.lt
  rcases List.append_eq_append_iff.mp (hread.eq hpass) with ⟨c, -, hback⟩ | ⟨c, rfl, -⟩
  · rw [hback, length_wordsRead_append] at hk
    omega
  · have hrest : s.rest = opening ++ (block ++ s'.rest) := by rw [hpass.rest, List.append_assoc]
    have hrest' : (s.inFrontOf (opening ++ c ++ us) line).rest = opening ++ (c ++ us) :=
      List.append_assoc _ _ _
    exact ⟨fun k hk => hopening.peekAt_eq hrest hrest' hk,
      hopening.atMethodBody (s := s.inFrontOf (opening ++ c ++ us) line) hs hrest'⟩

variable (h : Absorbs Ending (liftM content : ParseM (List Item)))
  (htol : Tolerates 1 (liftM content : ParseM (List Item))) (htyped : ArrowsTyped s.rest)
include h htol htyped

theorem absorbsAt_bareStatement (budget : Nat) :
    AbsorbsAt (fun i => BlockEnding i.block) (bareStatement budget content) s := by
  have hexpr : AbsorbsAt (fun i => BlockEnding i.block)
      (do return Item.expr (← expression budget)) s :=
    absorbsAt_of_yields (yields_step fun _ => yields_pure rfl)
  refine .get ?_ ?_
  · dsimp only
    split
    · rename_i hkind
      exact absorbsAt_conditional h hs htyped (ParseState.atEnd_of_kind hkind (by decide)) budget _
        fun _ _ _ => rfl
    · rename_i hkind
      exact absorbsAt_conditional h hs htyped (ParseState.atEnd_of_kind hkind (by decide)) budget _
        fun _ _ _ => rfl
    · rename_i hkind
      split
      · split
        · exact absorbsAt_methodBody h htol hs htyped (ParseState.atEnd_of_kind hkind (by decide))
            budget
        · exact absorbsAt_of_yields (yields_callStatement budget)
      · split
        · exact absorbsAt_of_yields (yields_step fun _ => yields_pure rfl)
        · exact hexpr
    · split
      · exact absorbsAt_of_yields (yields_callStatement budget)
      · exact hexpr
    · exact hexpr
  · intro i s' c front back us line hout hread herrors hk
    have hcurrent : (s.inFrontOf (c :: front ++ us) line).current = s.current :=
      hread.current_inFrontOf
    have hblock : i.block ≠ [] := fun hnil => not_blockEnding_nil (hnil ▸ hk)
    by_cases hkind : s.current.kind = .identifier
    · -- It is a method body, and the head that tells so is in front of the place.
      have hname : s.check .identifier := by simp [ParseState.check, hkind]
      obtain ⟨hparen, hbody, -⟩ := methodBody_of_bareStatement hname hout hblock
      obtain ⟨hpeek, hbody'⟩ := decided_of_bareStatement hc hs hname hout hread herrors hk us line
      dsimp only
      rw [hcurrent, hkind, hpeek 1 (by decide)]
      simp only [if_pos hparen, if_pos hbody, if_pos hbody']
    · dsimp only at hout ⊢
      rw [hcurrent]
      split
      · rfl
      · rfl
      · exact absurd ‹_› hkind
      · rename_i hprint
        simp only [hprint] at hout
        have hnone := yields_ite (c := (s.peekAt 1).kind = .leftParen)
          (V := fun i => i.block = []) (yields_callStatement budget)
          (y := do return Item.expr (← expression budget)) (yields_step fun _ => yields_pure rfl)
        exact absurd (hnone s i s' hout) hblock
      · rfl

theorem absorbsAt_bareItem (budget : Nat) :
    AbsorbsAt (fun i => BlockEnding i.block) (bareItem budget content) s := by
  refine .get ?_ ?_
  · split
    · exact absorbsAt_of_yields (yields_bareMethodDeclaration budget)
    · split
      · exact absorbsAt_of_yields yields_bareVarDeclaration
      · exact absorbsAt_bareStatement hc hs h htol htyped budget
  -- There is no place in a declaration, so the item is a statement with a block.
  · intro i s' c front back us line hout hread herrors hk
    have hcurrent : (s.inFrontOf (c :: front ++ us) line).current = s.current :=
      hread.current_inFrontOf
    have hcheck : (s.inFrontOf (c :: front ++ us) line).check .identifier =
        s.check .identifier := by
      rw [ParseState.check, hcurrent, ParseState.check]
    have hblock : i.block ≠ [] := fun hnil => not_blockEnding_nil (hnil ▸ hk)
    cases hname : s.check .identifier with
    | false => simp only [hcheck, hname, Bool.false_and]
    | true =>
        simp only [hname, Bool.true_and, decide_eq_true_eq] at hout
        split at hout
        · exact absurd (yields_bareMethodDeclaration budget s i s' hout) hblock
        · split at hout
          · exact absurd (yields_bareVarDeclaration s i s' hout) hblock
          · obtain ⟨hpeek, -⟩ :=
              decided_of_bareStatement hc hs hname hout hread herrors hk us line
            simp only [hcheck, hname, hpeek 1 (by decide), hpeek 3 (by decide)]

end Statements

/-- A semicolon behind an item is passed with it. -/
theorem outcome_terminated {x : ParseM Item} {s t : ParseState} {i : Item} {semi : Token}
    {rest : List Token} {line : Nat} (hsemi : semi.kind = .semicolon)
    (h : x.outcome s = (.ok i, t.inFrontOf (semi :: rest) line)) :
    (terminated x).outcome s = (.ok i, t.inFrontOf rest semi.line) := by
  have hcheck : (t.inFrontOf (semi :: rest) line).check .semicolon := by
    rw [ParseState.check, ParseState.current_inFrontOf_cons]
    simpa using hsemi
  refine outcome_bind_ok.mpr ⟨i, _, h, ?_⟩
  rw [outcome_bind, outcome_accept, ParseState.pass, if_pos hcheck,
    ParseState.advance_inFrontOf_cons (by simp [hsemi])]
  rfl

/-- The semicolon that may follow an item can stand behind it, where there is none. -/
theorem absorbsAt_terminated {P : Item → Nat → Prop} {x : ParseM Item} {s : ParseState}
    (hs : s.Closed) (htyped : ArrowsTyped s.rest) (hx : ProceedsAt 0 x s) (hP : AbsorbsAt P x s)
    (hwords : ∀ i s' read, (terminated x).outcome s = (.ok i, s') → s.Passes read s' →
      s'.errors = [] → 0 < (wordsRead read).length) :
    AbsorbsAt (fun i k => k = 0 ∨ P i k) (terminated x) s := by
  have hsemicolon (i : Item) : Tolerates 1 (do let _ ← accept .semicolon; return i : ParseM Item) :=
    tolerates_bind (tolerates_accept (by decide) fun _ => Nat.one_pos) fun _ => tolerates_pure i
  refine .or ⟨?_, ?_⟩ ?_
  · rintro i s' read k hout hread herrors rfl
    exact hwords i s' read hout hread herrors
  · intro i s' front back semi hout hread herrors hk hplace hsemi line
    obtain rfl := hplace.eq_nil_of_wordsRead_behind hk
    rw [List.append_nil] at hread
    obtain ⟨i', s₁, read₁, read₂, hi, hrest, hread₁, hread₂, herrors₁, rfl⟩ :=
      exists_steps hx.onward (fun i => (hsemicolon i).goesOn) hout hread herrors
    rw [outcome_bind, outcome_accept] at hrest
    cases hrest
    cases hcheck : s₁.check .semicolon with
    | true =>
        -- The place would be behind the semicolon that is there already.
        rw [ParseState.pass, if_pos hcheck] at hread₂
        obtain ⟨hkind, hpass, -⟩ := ParseState.passes_checked (hread₁.closed hs) hcheck (by decide)
        obtain rfl := hread₂.eq hpass
        exact absurd hkind ((hplace.of_append (List.cons_ne_nil _ _)).before _ rfl)
    | false =>
        have hpass : s₁.pass .semicolon = s₁ := by
          rw [ParseState.pass, if_neg (by simp [hcheck])]
        rw [hpass] at hread₂ herrors ⊢
        obtain rfl := hread₂.eq (.refl s₁)
        have hus : AddsSemicolon 0 ([] ++ s₁.rest) ([] ++ semi :: s₁.rest) :=
          .one (Nat.zero_le _) hsemi
        obtain ⟨line₁, hx'⟩ := hx.tolerates hi hread₁ herrors₁ hus line
        rw [List.append_nil, List.nil_append]
        exact ⟨semi.line, outcome_terminated hsemi hx'⟩
  · refine hP.bind_left hs htyped hx.onward hsemicolon
      fun i s₁ i' s' read hout hs₁ hread _ k hk => ?_
    rw [outcome_bind, outcome_accept] at hout
    cases hout
    obtain ⟨semis, hsemis, hpass⟩ := ParseState.passes_semicolon hs₁
    obtain rfl := hread.eq hpass
    refine ⟨k, hk, ?_⟩
    cases hsemis with
    | absent => rfl
    | present hsemi => simp [wordsRead, hsemi]

theorem yields_classDeclaration (content : StateM ParseState (List Item)) :
    Yields (fun i => i.isClass) (classDeclaration content) := by
  rw [classDeclaration_eq]
  refine yields_step fun keyword => yields_step fun name => fun s i s' hout => ?_
  obtain ⟨id, scopes, hadd⟩ := classBody_ok hout
  rw [outcome_classBody hadd] at hout
  have hclass : Yields (fun i : Item => i.isClass) (do
      let body ← withCursor (.inClass id) (block .classDecl keyword.line content)
      return Item.classDecl (.ofToken name) body) :=
    yields_step fun _ => yields_pure rfl
  exact hclass _ i s' hout

theorem absorbsAt_item {content : StateM ParseState (List Item)} {s : ParseState}
    (hc : ReadsItems content) (h : Absorbs Ending (liftM content : ParseM (List Item)))
    (htol : Tolerates 1 (liftM content : ParseM (List Item))) (hs : s.Closed)
    (htyped : ArrowsTyped s.rest) (budget : Nat) :
    AbsorbsAt (fun i => Ending [i]) (item budget content) s := by
  have hwords (i : Item) (s' : ParseState) (read : List Token)
      (hout : (item budget content).outcome s = (.ok i, s')) (hread : s.Passes read s')
      (herrors : s'.errors = []) : 0 < (wordsRead read).length := by
    obtain ⟨read', hread', hwords⟩ := (read_item hc hout herrors).writes hs
    obtain rfl := hread.eq hread'
    rw [hwords]
    exact i.length_block_lt.trans_le' (Nat.zero_le _)
  rw [item_eq] at hwords ⊢
  refine .get_current ?_ fun t ht => by rw [ParseState.check, ht, ParseState.check]
  split
  · rename_i hclass
    refine (absorbsAt_classDeclaration h htol hs htyped
      (ParseState.atEnd_of_check hclass (by decide))).mono fun i s' hout k hk => ?_
    -- No semicolon belongs to a class itself, so the place is inside it.
    rcases ending_singleton_iff.mp hk with ⟨hno, -⟩ | hk
    · rw [yields_classDeclaration content s i s' hout] at hno
      cases hno
    · exact hk
  · rename_i hclass
    rw [outcome_bind, outcome_get] at hwords
    simp only [if_neg hclass] at hwords
    refine (absorbsAt_terminated hs htyped (proceedsAt_bareItem htol hc hs htyped budget)
      (absorbsAt_bareItem hc hs h htol htyped budget) hwords).mono fun i s' _ k hk => ?_
    exact (ending_singleton_iff.mp hk).imp And.right id

/-! ## Programs -/

/-- An item and others behind it: a place is in the first one, or among the others. -/
theorem absorbsAt_cons {first : ParseM Item} {others : ParseM (List Item)} {s : ParseState}
    (hs : s.Closed) (htyped : ArrowsTyped s.rest) (hfirst : AbsorbsAt (fun i => Ending [i]) first s)
    (hproceeds : ProceedsAt 1 first s) (hothers : Absorbs Ending others)
    (htol : Tolerates 1 others)
    (hwords : ∀ {s is s' read}, others.outcome s = (.ok is, s') → s.Closed → s.Passes read s' →
      s'.errors = [] → wordsRead read = wordsOfItems is) :
    AbsorbsAt Ending (do let i ← first; let is ← others; return i :: is) s := by
  have hin : AbsorbsAt (fun is k => ∃ i others j, is = i :: others ∧ Ending [i] j ∧
      k = j + (wordsOfItems others).length)
      (do let i ← first; let is ← others; return i :: is) s := by
    refine hfirst.bind_left hs htyped hproceeds.onward
      (fun i => tolerates_bind htol fun is => tolerates_pure (i :: is))
      fun i s₁ is s' read hout hs₁ hread herrors k hk => ?_
    obtain ⟨is', s₂, hrun, hpure⟩ := outcome_bind_ok.mp hout
    cases hpure
    obtain ⟨_, _, j, heq, hj, rfl⟩ := hk
    cases heq
    exact ⟨j, hj, by rw [hwords hrun hs₁ hread herrors]⟩
  have hbehind : AbsorbsAt (fun is k => ∃ i others, is = i :: others ∧ Ending others k)
      (do let i ← first; let is ← others; return i :: is) s := by
    refine .bind_right hs htyped hproceeds.onward hproceeds.tolerates fun i => ?_
    refine absorbs_map hothers fun is k hk => ?_
    obtain ⟨_, _, heq, hk⟩ := hk
    cases heq
    exact hk
  refine (hin.or hbehind).mono fun is s' _ k hk => ?_
  cases is with
  | nil => exact absurd hk not_ending_nil
  | cons i others =>
      rcases ending_cons_iff.mp hk with ⟨j, hj, hk⟩ | hk
      · exact .inl ⟨i, others, j, rfl, hj, hk⟩
      · exact .inr ⟨i, others, rfl, hk⟩

/-- Items that are read without an error are written in the tokens passed. -/
theorem wordsRead_parseItems {budget : Nat} {inBlock : Bool} {s s' : ParseState} {is : List Item}
    {read : List Token}
    (hout : (liftM (parseItems budget inBlock) : ParseM (List Item)).outcome s = (.ok is, s'))
    (hs : s.Closed) (hread : s.Passes read s') (herrors : s'.errors = []) :
    wordsRead read = wordsOfItems is := by
  have hrun := outcome_lift_ok.mp hout
  have hitems := read_parseItems budget inBlock s (by rw [hrun]; exact herrors)
  rw [hrun] at hitems
  obtain ⟨read', hread', hwords⟩ := hitems.writes hs
  rw [hread.eq hread', hwords]
  rfl

theorem absorbsAt_itemsOnward {budget : Nat}
    (h : ∀ inBlock, Absorbs Ending (liftM (parseItems budget inBlock) : ParseM (List Item)))
    (inBlock : Bool) {s : ParseState} (hs : s.Closed) (htyped : ArrowsTyped s.rest) :
    AbsorbsAt Ending (itemsOnward budget inBlock) s := by
  have hc : ReadsItems (parseItems budget true) := read_parseItems budget true
  have htol := tolerates_parseItems budget true
  refine .get_current ?_ fun t ht => ?_
  · split
    · refine .of_none fun is s' hout k hk => ?_
      cases hout
      exact not_ending_nil hk
    · exact absorbsAt_cons hs htyped (absorbsAt_item hc (h true) htol hs htyped (budget + 1))
        (proceedsAt_item htol hc hs htyped (budget + 1)) (h inBlock)
        (tolerates_parseItems budget inBlock) wordsRead_parseItems
  · rw [ParseState.atEnd, ParseState.check, ParseState.check, ht]
    rfl

theorem absorbs_parseItems (budget : Nat) (inBlock : Bool) :
    Absorbs Ending (liftM (parseItems budget inBlock) : ParseM (List Item)) := by
  induction budget generalizing inBlock with
  | zero =>
      refine ⟨(tolerates_parseItems 0 inBlock).goesOn, fun s _ _ => .of_none ?_⟩
      intro is s' hout k hk
      cases hout
      exact not_ending_nil hk
  | succ budget ih =>
      refine ⟨(tolerates_parseItems (budget + 1) inBlock).goesOn, fun s hs htyped => ?_⟩
      have honward := absorbsAt_itemsOnward ih inBlock hs htyped
      constructor
      · intro is s' read k hout hread herrors hk
        exact honward.inside (outcome_itemsOnward hout herrors) hread herrors hk
      · intro is s' front back semi hout hread herrors hk hplace hsemi line
        obtain ⟨line', hout'⟩ := honward.absorbs (outcome_itemsOnward hout herrors) hread herrors hk
          hplace hsemi line
        exact ⟨line', outcome_parseItems hout'⟩

end ParseM

end BlockLang
