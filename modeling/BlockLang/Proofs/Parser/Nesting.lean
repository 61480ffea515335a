/-
  BlockLang.Proofs.Parser.Nesting

  How the tokens of a program nest.

  In what spells a phrase, parentheses and blocks open and close inside one another.  A `do`
  that does not open a block is a name, so it is stray: who counts each `do` as a block comes
  out with one block too many for it.
-/
import BlockLang.Proofs.Parser.Spelling
import BlockLang.Proofs.Totality

namespace BlockLang

/-! ## Names -/

namespace Phrase

variable {φ : Phrase} {name : String}

/-- The names that a phrase itself writes.  Those in its parts are left out. -/
def ownNames : Phrase → List String
  | expr (.assign target _) => [target.name]
  | expr (.name id) => [id.name]
  | expr (.call ⟨callee, .method _⟩ _) => [callee.name]
  | types (name :: _) => [name]
  | pattern _ (.binding name) => [name.name]
  | item (.classDecl name _) => [name.name]
  | item (.methodDecl name type _) => [name.name, type]
  | item (.varDecl name type) => [name.name, type]
  | item (.assign target _) => [target.name]
  | item (.methodBody head _) => [head.name.name]
  | item (.call ⟨callee, .method _⟩ _) => [callee.name]
  | _ => []

/-- Whether a name is written somewhere in a phrase. -/
def Mentions (φ : Phrase) (name : String) : Prop :=
  ∃ path ψ, φ.at? path = some ψ ∧ name ∈ ψ.ownNames

theorem mentions_iff :
    φ.Mentions name ↔ name ∈ φ.ownNames ∨ ∃ part ∈ φ.parts, part.Mentions name := by
  constructor
  · rintro ⟨path, ψ, hψ, hname⟩
    cases path with
    | nil => exact .inl (Option.some.inj hψ ▸ hname)
    | cons k path =>
        obtain ⟨part, hk, hpart⟩ := Option.bind_eq_some_iff.mp hψ
        exact .inr ⟨part, List.mem_of_getElem? hk, path, ψ, hpart, hname⟩
  · rintro (hname | ⟨part, hpart, path, ψ, hψ, hname⟩)
    · exact ⟨[], φ, rfl, hname⟩
    · obtain ⟨k, hk⟩ := List.getElem?_of_mem hpart
      exact ⟨k :: path, ψ, by rw [at?, hk]; exact hψ, hname⟩

/-- A phrase without names and parts. -/
theorem not_mentions (hown : φ.ownNames = []) (hparts : φ.parts = []) : ¬φ.Mentions name := by
  rw [mentions_iff, hown, hparts]
  simp

end Phrase

/-! ## Well nested tokens -/

/-- The kinds of tokens that can open or close something, or end the program. -/
def nestingKinds : List TokenKind :=
  [.identifier, .leftParen, .rightParen, .kwClass, .kwEnd, .endOfInput]

/-- Tokens in which parentheses and blocks open and close inside one another, and in which
    `stray` times a `do` does not open a block. -/
inductive WellNested : (stray : Nat) → List Token → Prop where
  | nil : WellNested 0 []
  | mark {t k ts} : t.kind ∉ nestingKinds → WellNested k ts → WellNested k (t :: ts)
  | name {t k ts} : t.kind = .identifier → WellNested k ts →
      WellNested ([t.lexeme].count "do" + k) (t :: ts)
  | parens {opening closing k l ts us} : opening.kind = .leftParen → WellNested k ts →
      closing.kind = .rightParen → WellNested l us →
      WellNested (k + l) (opening :: (ts ++ closing :: us))
  | block {first last k l ts us} : first.kind = .kwClass ∨ first.isDo → WellNested k ts →
      last.kind = .kwEnd → WellNested l us → WellNested (k + l) (first :: (ts ++ last :: us))

namespace WellNested

variable {k l : Nat} {ts us : List Token} {t : Token}

theorem append (h : WellNested k ts) (h' : WellNested l us) : WellNested (k + l) (ts ++ us) := by
  induction h with
  | nil => rwa [Nat.zero_add]
  | mark hkind _ ih => exact ih.mark hkind
  | name hkind _ ih =>
      rw [Nat.add_assoc]
      exact ih.name hkind
  | parens hopen hinner hclose _ _ ih =>
      rw [Nat.add_assoc, List.cons_append, List.append_assoc]
      exact .parens hopen hinner hclose ih
  | block hfirst hinner hlast _ _ ih =>
      rw [Nat.add_assoc, List.cons_append, List.append_assoc]
      exact .block hfirst hinner hlast ih

theorem one (h : t.kind ∉ nestingKinds) : WellNested 0 [t] := .mark h .nil

theorem oneName (h : t.kind = .identifier) : WellNested ([t.lexeme].count "do") [t] := .name h .nil

/-- Two parts with a mark between them. -/
theorem joined (h : WellNested k ts) (ht : t.kind ∉ nestingKinds) (h' : WellNested l us) :
    WellNested (k + l) (ts ++ t :: us) :=
  h.append (h'.mark ht)

theorem semicolon (h : OptionalSemicolon ts) : WellNested 0 ts := by
  cases h with
  | absent => exact .nil
  | present hkind => exact one (by simp [nestingKinds, hkind])

theorem trailing (h : WellNested k ts) (hsemis : OptionalSemicolon us) : WellNested k (ts ++ us) :=
  h.append (semicolon hsemis)

end WellNested

open WellNested in
/-- What spells a phrase is well nested, and each name `do` in the phrase is a stray one. -/
theorem Phrase.SpelledBy.wellNested {φ : Phrase} {tokens : List Token} (h : φ.SpelledBy tokens) :
    ∃ k, WellNested k tokens ∧ (0 < k ↔ φ.Mentions "do") := by
  -- The count is that of the names of the phrase itself and of its parts.
  induction h with
  | name hname =>
      refine ⟨_, oneName hname, ?_⟩
      rw [mentions_iff]
      simp [ownNames, parts, Ident.ofToken]
  | literal hkind =>
      have hkinds : ∀ kind ∈ literalKinds, kind ∉ nestingKinds := by decide
      refine ⟨0, one (hkinds _ hkind), ?_⟩
      rw [mentions_iff]
      simp [ownNames, parts]
  | grouping hopen _ hclose ih =>
      obtain ⟨k, hk, hmentions⟩ := ih
      refine ⟨k, parens hopen hk hclose .nil, ?_⟩
      rw [mentions_iff]
      simp [ownNames, parts, hmentions]
  | unary hsign _ ih =>
      obtain ⟨k, hk, hmentions⟩ := ih
      refine ⟨k, hk.mark (by rcases hsign with hsign | hsign <;> simp [nestingKinds, hsign]), ?_⟩
      rw [mentions_iff]
      simp [ownNames, parts, hmentions]
  | @binary t ls rs level left right _ hop _ ihLeft ihRight =>
      have hkinds : ∀ level : Level, ∀ kind ∈ level.operators, kind ∉ nestingKinds := by
        intro level
        cases level <;> decide
      obtain ⟨k, hk, hmentions⟩ := ihLeft
      obtain ⟨l, hl, hmentions'⟩ := ihRight
      refine ⟨k + l, hk.joined (hkinds level _ hop) hl, ?_⟩
      rw [mentions_iff, Nat.add_pos_iff_pos_or_pos]
      simp [ownNames, parts, hmentions, hmentions']
  | assign hname hequal _ ih =>
      obtain ⟨k, hk, hmentions⟩ := ih
      refine ⟨_, (hk.mark (by simp [nestingKinds, hequal])).name hname, ?_⟩
      rw [mentions_iff, Nat.add_pos_iff_pos_or_pos]
      simp [ownNames, parts, Ident.ofToken, hmentions]
  | @call t opening closing ts callee args hcallee hopen _ hclose ih =>
      obtain ⟨k, hk, hmentions⟩ := ih
      cases hcallee with
      | builtin hprint =>
          refine ⟨k, (parens hopen hk hclose .nil).mark (by simp [nestingKinds, hprint]), ?_⟩
          rw [mentions_iff]
          simp [ownNames, parts, hmentions]
      | method hname =>
          refine ⟨_, (parens hopen hk hclose .nil).name hname, ?_⟩
          rw [mentions_iff, Nat.add_pos_iff_pos_or_pos]
          simp [ownNames, parts, Ident.ofToken, hmentions]
  | noArguments => exact ⟨0, .nil, by simp [not_mentions (φ := arguments []) rfl rfl]⟩
  | lastArgument _ ih =>
      obtain ⟨k, hk, hmentions⟩ := ih
      refine ⟨k, hk, ?_⟩
      rw [mentions_iff]
      simp [ownNames, parts, hmentions, not_mentions (φ := arguments []) rfl rfl]
  | argument _ hcomma _ ih ihMore =>
      obtain ⟨k, hk, hmentions⟩ := ih
      obtain ⟨l, hl, hmentions'⟩ := ihMore
      refine ⟨k + l, hk.joined (by simp [nestingKinds, hcomma]) hl, ?_⟩
      rw [mentions_iff, Nat.add_pos_iff_pos_or_pos]
      simp [ownNames, parts, hmentions, hmentions']
  | lastType hname =>
      refine ⟨_, oneName hname, ?_⟩
      rw [mentions_iff]
      simp [ownNames, parts]
  | type hname hcomma _ ih =>
      obtain ⟨k, hk, hmentions⟩ := ih
      refine ⟨_, (hk.mark (by simp [nestingKinds, hcomma])).name hname, ?_⟩
      rw [mentions_iff, Nat.add_pos_iff_pos_or_pos]
      simp [ownNames, parts, hmentions]
  | binding hname =>
      refine ⟨_, oneName hname, ?_⟩
      rw [mentions_iff]
      simp [ownNames, parts, Ident.ofToken]
  | value _ ih =>
      obtain ⟨k, hk, hmentions⟩ := ih
      refine ⟨k, hk, ?_⟩
      rw [mentions_iff]
      simp [ownNames, parts, hmentions]
  | @noPatterns m => exact ⟨0, .nil, by simp [not_mentions (φ := patterns m []) rfl rfl]⟩
  | @lastPattern ts m p _ ih =>
      obtain ⟨k, hk, hmentions⟩ := ih
      refine ⟨k, hk, ?_⟩
      rw [mentions_iff]
      simp [ownNames, parts, hmentions, not_mentions (φ := patterns m []) rfl rfl]
  | pattern _ hcomma _ ih ihMore =>
      obtain ⟨k, hk, hmentions⟩ := ih
      obtain ⟨l, hl, hmentions'⟩ := ihMore
      refine ⟨k + l, hk.joined (by simp [nestingKinds, hcomma]) hl, ?_⟩
      rw [mentions_iff, Nat.add_pos_iff_pos_or_pos]
      simp [ownNames, parts, hmentions, hmentions']
  | classDecl hclass hname _ hlast ih =>
      obtain ⟨k, hk, hmentions⟩ := ih
      refine ⟨_, block (.inl hclass) (hk.name hname) hlast .nil, ?_⟩
      rw [mentions_iff, Nat.add_pos_iff_pos_or_pos]
      simp [ownNames, parts, Ident.ofToken, hmentions]
  | methodDecl hname hsep htype harrow _ hsemis ih =>
      obtain ⟨k, hk, hmentions⟩ := ih
      refine ⟨_, ((((hk.trailing hsemis).mark (by simp [nestingKinds, harrow])).name htype).mark
        (by simp [nestingKinds, hsep])).name hname, ?_⟩
      rw [mentions_iff, Nat.add_pos_iff_pos_or_pos, Nat.add_pos_iff_pos_or_pos]
      simp [ownNames, parts, Ident.ofToken, hmentions, or_assoc]
  | varDecl hname hsep htype hsemis =>
      refine ⟨_, (((semicolon hsemis).name htype).mark
        (by simp [nestingKinds, hsep])).name hname, ?_⟩
      rw [mentions_iff, Nat.add_pos_iff_pos_or_pos]
      simp [ownNames, parts, Ident.ofToken]
  | assignItem hexpr hsemis ih =>
      obtain ⟨k, hk, hmentions⟩ := ih
      refine ⟨k, hk.trailing hsemis, ?_⟩
      rw [hmentions, mentions_iff, mentions_iff]
      rfl
  | @callItem ts semis callee args hexpr hsemis ih =>
      obtain ⟨k, hk, hmentions⟩ := ih
      refine ⟨k, hk.trailing hsemis, ?_⟩
      rw [hmentions, mentions_iff, mentions_iff]
      obtain ⟨_, _ | _⟩ := callee
      · rfl
      · rfl
  | exprItem _ hsemis ih =>
      obtain ⟨k, hk, hmentions⟩ := ih
      refine ⟨k, hk.trailing hsemis, ?_⟩
      rw [mentions_iff]
      simp [ownNames, parts, hmentions]
  | ifThen hkeyword _ hstart _ hlast hsemis ih ihBody =>
      obtain ⟨k, hk, hmentions⟩ := ih
      obtain ⟨l, hl, hmentions'⟩ := ihBody
      refine ⟨k + l, (hk.append (block (.inr hstart) hl hlast (semicolon hsemis))).mark
        (by simp [nestingKinds, hkeyword]), ?_⟩
      rw [mentions_iff, Nat.add_pos_iff_pos_or_pos]
      simp [ownNames, parts, hmentions, hmentions']
  | whileLoop hkeyword _ hstart _ hlast hsemis ih ihBody =>
      obtain ⟨k, hk, hmentions⟩ := ih
      obtain ⟨l, hl, hmentions'⟩ := ihBody
      refine ⟨k + l, (hk.append (block (.inr hstart) hl hlast (semicolon hsemis))).mark
        (by simp [nestingKinds, hkeyword]), ?_⟩
      rw [mentions_iff, Nat.add_pos_iff_pos_or_pos]
      simp [ownNames, parts, hmentions, hmentions']
  | methodBody hname hopen _ hclose hstart _ hlast hsemis ih ihBody =>
      obtain ⟨k, hk, hmentions⟩ := ih
      obtain ⟨l, hl, hmentions'⟩ := ihBody
      refine ⟨_, (parens hopen hk hclose
        (block (.inr hstart) hl hlast (semicolon hsemis))).name hname, ?_⟩
      rw [mentions_iff, Nat.add_pos_iff_pos_or_pos, Nat.add_pos_iff_pos_or_pos]
      simp [ownNames, parts, Ident.ofToken, hmentions, hmentions']
  | noItems => exact ⟨0, .nil, by simp [not_mentions (φ := Phrase.items []) rfl rfl]⟩
  | items _ _ ih ihMore =>
      obtain ⟨k, hk, hmentions⟩ := ih
      obtain ⟨l, hl, hmentions'⟩ := ihMore
      refine ⟨k + l, hk.append hl, ?_⟩
      rw [mentions_iff, Nat.add_pos_iff_pos_or_pos]
      simp [ownNames, parts, hmentions, hmentions']

/-! ## Counting brackets -/

namespace Brackets

/-- A token that is neither bracket nor end. -/
def Ignores (b : Brackets) (t : Token) : Prop := t.kind ≠ .endOfInput ∧ ¬b.opens t ∧ ¬b.closes t

/-- Tokens in which each bracket has its partner and that do not end the program. -/
inductive Matched (b : Brackets) : List Token → Prop where
  | nil : Matched b []
  | other {t ts} : b.Ignores t → Matched b ts → Matched b (t :: ts)
  | pair {first last ts us} : first.kind ≠ .endOfInput ∧ b.opens first → Matched b ts →
      last.kind ≠ .endOfInput ∧ ¬b.opens last ∧ b.closes last → Matched b us →
      Matched b (first :: (ts ++ last :: us))

variable {b : Brackets} {k l : Nat} {ts us : List Token} {t : Token}

/-- Counted while a bracket is open, these tokens leave `k` brackets more open. -/
def Lifts (b : Brackets) (k : Nat) (ts : List Token) : Prop :=
  ∀ depth rest, b.behind? (depth + 1) (ts ++ rest) = b.behind? (depth + 1 + k) rest

theorem lifts_nil : b.Lifts 0 [] := fun _ _ => rfl

theorem Lifts.append (h : b.Lifts k ts) (h' : b.Lifts l us) : b.Lifts (k + l) (ts ++ us) := by
  intro depth rest
  have hdepth : depth + 1 + k = depth + k + 1 := by omega
  rw [List.append_assoc, h, hdepth, h', ← hdepth, Nat.add_assoc]

theorem Lifts.cons_opening (hend : t.kind ≠ .endOfInput) (hopen : b.opens t) (h : b.Lifts k ts) :
    b.Lifts (1 + k) (t :: ts) := by
  intro depth rest
  rw [List.cons_append, behind?_cons_of_opens hend hopen, h, Nat.add_assoc (depth + 1)]

theorem Lifts.cons_ignored (ht : b.Ignores t) (h : b.Lifts k ts) : b.Lifts k (t :: ts) := by
  intro depth rest
  rw [List.cons_append, behind?, if_neg ht.1, if_neg ht.2.1, if_neg ht.2.2, h]

/-- Brackets around tokens count as nothing. -/
theorem Lifts.enclosed {first last : Token} (hfirst : first.kind ≠ .endOfInput ∧ b.opens first)
    (h : b.Lifts k ts) (hlast : last.kind ≠ .endOfInput ∧ ¬b.opens last ∧ b.closes last)
    (h' : b.Lifts l us) : b.Lifts (k + l) (first :: (ts ++ last :: us)) := by
  intro depth rest
  have hdepth : depth + 1 + 1 + k - 1 = depth + k + 1 := by omega
  rw [List.cons_append, List.append_assoc, behind?_cons_of_opens hfirst.1 hfirst.2, h,
    List.cons_append, behind?, if_neg hlast.1, if_neg hlast.2.1, if_pos hlast.2.2,
    if_neg (by omega), if_neg (by omega), hdepth, h']
  congr 1
  omega

theorem Matched.lifts (h : b.Matched ts) : b.Lifts 0 ts := by
  induction h with
  | nil => exact lifts_nil
  | other ht _ ih => exact ih.cons_ignored ht
  | pair hfirst _ hlast _ ih ih' => exact ih.enclosed hfirst hlast ih'

theorem Matched.append (h : b.Matched ts) (h' : b.Matched us) : b.Matched (ts ++ us) := by
  induction h with
  | nil => exact h'
  | other ht _ ih => exact .other ht ih
  | pair hfirst hinner hlast _ _ ih =>
      rw [List.cons_append, List.append_assoc]
      exact .pair hfirst hinner hlast ih

end Brackets

open Brackets in
/-- Counting blocks comes out right but for each stray `do`. -/
theorem WellNested.lifts_blocks {k : Nat} {ts : List Token} (h : WellNested k ts) :
    blocks.Lifts k ts := by
  induction h with
  | nil => exact lifts_nil
  | @mark t k ts hkind _ ih =>
      simp only [nestingKinds, List.mem_cons, List.not_mem_nil, or_false, not_or] at hkind
      have hignored : blocks.Ignores t := by simp [Ignores, blocks, Token.isDo, hkind]
      exact ih.cons_ignored hignored
  | @name t k ts hkind _ ih =>
      -- A name `do` opens a block for the count, and nothing closes it.
      by_cases hdo : t.lexeme = "do"
      · have hopens : blocks.opens t := by simp [blocks, Token.isDo, hkind, hdo]
        rw [hdo]
        exact ih.cons_opening (by simp [hkind]) hopens
      · have hignored : blocks.Ignores t := by simp [Ignores, blocks, Token.isDo, hkind, hdo]
        rw [List.count_singleton, if_neg (by simpa using hdo), Nat.zero_add]
        exact ih.cons_ignored hignored
  | @parens opening closing k l ts us hopen _ hclose _ ih ih' =>
      have hfirst : blocks.Ignores opening := by simp [Ignores, blocks, Token.isDo, hopen]
      have hlast : blocks.Ignores closing := by simp [Ignores, blocks, Token.isDo, hclose]
      exact (ih.append (ih'.cons_ignored hlast)).cons_ignored hfirst
  | @block first last k l ts us hfirst _ hlast _ ih ih' =>
      have hopens : first.kind ≠ .endOfInput ∧ blocks.opens first := by
        rcases hfirst with hclass | hdo
        · simp [blocks, hclass]
        · simp only [Token.isDo, Bool.and_eq_true, decide_eq_true_eq] at hdo
          simp [blocks, Token.isDo, hdo]
      exact ih.enclosed hopens (by simp [blocks, Token.isDo, hlast]) ih'

open Brackets in
/-- In well nested tokens every parenthesis has its partner. -/
theorem WellNested.matched_parens {k : Nat} {ts : List Token} (h : WellNested k ts) :
    Brackets.parens.Matched ts := by
  induction h with
  | nil => exact .nil
  | mark hkind _ ih =>
      simp only [nestingKinds, List.mem_cons, List.not_mem_nil, or_false, not_or] at hkind
      exact .other (by simp [Ignores, Brackets.parens, hkind]) ih
  | name hkind _ ih => exact .other (by simp [Ignores, Brackets.parens, hkind]) ih
  | parens hopen _ hclose _ ih ih' =>
      exact .pair (by simp [Brackets.parens, hopen]) ih (by simp [Brackets.parens, hclose]) ih'
  | @block first last k l ts us hfirst _ hlast _ ih ih' =>
      have hignored : Brackets.parens.Ignores first := by
        rcases hfirst with hclass | hdo
        · simp [Ignores, Brackets.parens, hclass]
        · simp only [Token.isDo, Bool.and_eq_true, decide_eq_true_eq] at hdo
          simp [Ignores, Brackets.parens, hdo]
      exact .other hignored (ih.append (.other (by simp [Ignores, Brackets.parens, hlast]) ih'))

/-- Counting parentheses comes out right. -/
theorem WellNested.lifts_parens {k : Nat} {ts : List Token} (h : WellNested k ts) :
    Brackets.parens.Lifts 0 ts :=
  h.matched_parens.lifts

/-! ## Parameters -/

namespace ParseState

variable {opening closing : Token} {params rest : List Token}

/-- The tokens behind parameters in parentheses. -/
theorem behind?_params (hopen : opening.kind = .leftParen)
    (hparams : Brackets.parens.Lifts 0 params) (hclose : closing.kind = .rightParen) :
    Brackets.parens.behind? 0 (opening :: (params ++ closing :: rest)) = some rest := by
  rw [Brackets.behind?_cons_of_opens (by simp [hopen]) (by simp [Brackets.parens, hopen]),
    hparams 0]
  simp [Brackets.behind?, Brackets.parens, hclose]

/-- Behind a name, parameters and `do` start a method body. -/
theorem atMethodBody_of_params {s : ParseState} (hs : s.Closed) {name start : Token}
    (hrest : s.rest = name :: opening :: (params ++ closing :: start :: rest))
    (hopen : opening.kind = .leftParen) (hparams : Brackets.parens.Lifts 0 params)
    (hclose : closing.kind = .rightParen) (hstart : start.isDo) : s.atMethodBody := by
  have hparen : (s.peekAt 1).kind = .leftParen := by simp [peekAt, hrest, hopen]
  have hlook := behind?_atMethodBody hs hparen
  rw [hrest, List.drop_one, List.tail_cons, behind?_params hopen hparams hclose] at hlook
  rw [← Option.some.inj hlook]
  simpa [startsWithDo] using hstart

end ParseState

end BlockLang
