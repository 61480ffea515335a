/-
  BlockLang.Proofs.Token.Segment

  A text as a row of segments.

  Every text is a row of lexemes with blanks and comments in front of each, and blanks and
  comments at its end (`exists_segmented`).  Stepping through the text yields one item for
  each of these segments, at the place where its lexeme stands, and an end-of-input token
  behind them (`Segmented.yields`, `Segmented.lexItems_eq`).
-/
import BlockLang.Proofs.Token.Form
import Mathlib.Data.List.DropRight

namespace BlockLang

/-! ## Places -/

namespace Position

theorem offset_after (p : Position) (cs : List Char) :
    (p.after cs).offset = p.offset + (String.ofList cs).utf8ByteSize := by
  induction cs generalizing p with
  | nil => rfl
  | cons c cs ih =>
      have hnext : (p.next c).offset = p.offset + c.utf8Size := by
        unfold next
        split <;> rfl
      have hsize : (String.ofList (c :: cs)).utf8ByteSize =
          c.utf8Size + (String.ofList cs).utf8ByteSize := by
        rw [← List.singleton_append, String.ofList_append, String.utf8ByteSize_append,
          ← String.singleton_eq_ofList, String.utf8ByteSize_singleton]
      rw [after_cons, ih, hnext, hsize]
      omega

theorem line_after (p : Position) (cs : List Char) :
    (p.after cs).line = p.line + cs.count '\n' := by
  induction cs generalizing p with
  | nil => rfl
  | cons c cs ih =>
      rw [after_cons, ih, List.count_cons]
      unfold next
      by_cases hc : c = '\n'
      · simp [hc]
        omega
      · simp [hc]

/-- The characters behind the last newline decide the column. -/
theorem column_origin_after (cs : List Char) :
    (origin.after cs).column = 1 + (cs.rtakeWhile (· != '\n')).length := by
  induction cs using List.reverseRecOn with
  | nil => rfl
  | append_singleton cs c ih =>
      have hstep : (origin.after (cs ++ [c])).column = ((origin.after cs).next c).column := by
        rw [after_append]
        rfl
      rw [hstep, List.rtakeWhile_concat]
      unfold next
      by_cases hc : c = '\n'
      · simp [hc]
      · simp [hc, ih]
        omega

end Position

/-! ## Blanks and comments -/

/-- Whether a rest ends the line in front of it. -/
def EndsLine (rest : List Char) : Prop := ∀ c ∈ rest.head?, c = '\n'

/-- What starts a comment. -/
def commentMarks : List (List Char) := [['#'], ['/', '/']]

/-- Blanks and comments in front of a rest.  A comment goes on to the end of its line. -/
inductive Trivia (rest : List Char) : List Char → Prop where
  | nil : Trivia rest []
  | blank {c : Char} {gap : List Char} : isBlank c → Trivia rest gap → Trivia rest (c :: gap)
  | comment {mark body gap : List Char} : mark ∈ commentMarks → '\n' ∉ body →
      EndsLine (gap ++ rest) → Trivia rest gap → Trivia rest (mark ++ (body ++ gap))

/-- Whether a text is empty or starts with a lexeme. -/
def AtLexeme (text : List Char) : Prop := ∀ c cs, text = c :: cs → StartsLexeme c cs

theorem AtLexeme.nil : AtLexeme [] := by
  intro c cs h
  cases h

theorem AtLexeme.goesOn {taken rest rest' : List Char} (h : AtLexeme (taken ++ rest))
    (hne : taken ≠ []) (hrest : GoesOnAs rest rest') : AtLexeme (taken ++ rest') := by
  obtain ⟨c, cs, rfl⟩ := List.exists_cons_of_ne_nil hne
  intro d ds heq
  obtain ⟨rfl, rfl⟩ := List.cons.inj heq
  exact (h c (cs ++ rest) rfl).goesOn (hrest.append cs)

namespace Lexer

/-- The text of a comment is passed. -/
theorem skipTrivia_comment {body : List Char} (h : '\n' ∉ body) (p : Position)
    (rest : List Char) :
    skipTrivia true p (body ++ rest) = skipTrivia true (p.after body) rest := by
  induction body generalizing p with
  | nil => rfl
  | cons c body ih =>
      have hc : (c != '\n') = true := forall_bne h c List.mem_cons_self
      rw [List.cons_append, skipTrivia, if_pos rfl, hc, ih (List.not_mem_of_not_mem_cons h),
        Position.after_cons]

/-- At the end of its line a comment is over. -/
theorem skipTrivia_endsLine {rest : List Char} (h : EndsLine rest) (p : Position) :
    skipTrivia true p rest = skipTrivia false p rest := by
  cases rest with
  | nil => rfl
  | cons c rest =>
      obtain rfl := h c rfl
      rfl

end Lexer

namespace Trivia

variable {rest gap : List Char}

/-- Blanks and comments are passed, whatever comes behind them. -/
theorem skipTrivia (h : Trivia rest gap) (p : Position) :
    Lexer.skipTrivia false p (gap ++ rest) = Lexer.skipTrivia false (p.after gap) rest := by
  induction h generalizing p with
  | nil => rfl
  | @blank c gap hblank _ ih =>
      rw [List.cons_append, Lexer.skipTrivia, if_neg Bool.false_ne_true, if_pos hblank, ih,
        Position.after_cons]
  | @comment mark body gap hmark hbody hends _ ih =>
      have hcomment (p : Position) : Lexer.skipTrivia true p (body ++ (gap ++ rest)) =
          Lexer.skipTrivia false (p.after (body ++ gap)) rest := by
        rw [Lexer.skipTrivia_comment hbody, Lexer.skipTrivia_endsLine hends, ih,
          Position.after_append]
      rw [Position.after_append, List.append_assoc, List.append_assoc]
      -- Either mark is passed by one step for each of its characters.
      simp only [commentMarks, List.mem_cons, List.not_mem_nil, or_false] at hmark
      rcases hmark with rfl | rfl
      · exact hcomment (p.next '#')
      · exact hcomment ((p.next '/').next '/')

/-- A comment at the end of a text ends in front of every other line end as well. -/
theorem mono {rest' : List Char} (h : Trivia rest gap) (hrest : EndsLine rest → EndsLine rest') :
    Trivia rest' gap := by
  induction h with
  | nil => exact .nil
  | blank hblank _ ih => exact .blank hblank ih
  | @comment mark body gap hmark hbody hends _ ih =>
      refine .comment hmark hbody ?_ ih
      cases gap with
      | nil => exact hrest hends
      | cons c gap => exact hends

theorem append {gap' : List Char} (h : Trivia (gap' ++ rest) gap) (h' : Trivia rest gap') :
    Trivia rest (gap ++ gap') := by
  induction h with
  | nil => exact h'
  | blank hblank _ ih => exact .blank hblank ih
  | @comment mark body gap hmark hbody hends _ ih =>
      rw [List.append_assoc, List.append_assoc]
      exact .comment hmark hbody (by rwa [List.append_assoc]) ih

end Trivia

/-! ### Finding the next lexeme -/

/-- A text is blanks and comments and a rest that starts with a lexeme or is empty. -/
def Parts (cs : List Char) : Prop :=
  ∃ gap rest, cs = gap ++ rest ∧ Trivia rest gap ∧ AtLexeme rest

/-- A text that starts inside a comment has such parts behind that comment. -/
def PartsInComment (cs : List Char) : Prop :=
  ∃ body gap rest, cs = body ++ (gap ++ rest) ∧ '\n' ∉ body ∧ EndsLine (gap ++ rest) ∧
    Trivia rest gap ∧ AtLexeme rest

theorem Parts.cons {cs : List Char} (h : Parts cs) (h' : PartsInComment cs) (c : Char) :
    Parts (c :: cs) := by
  obtain ⟨body, gap', rest', hcs', hbody, hends, hgap', hrest'⟩ := h'
  by_cases hblank : isBlank c = true
  · obtain ⟨gap, rest, hcs, hgap, hrest⟩ := h
    exact ⟨c :: gap, rest, congrArg (c :: ·) hcs, .blank hblank hgap, hrest⟩
  by_cases hhash : c = '#'
  · refine ⟨[c] ++ (body ++ gap'), rest', by simp [hcs'], ?_, hrest'⟩
    exact .comment (by simp [hhash, commentMarks]) hbody hends hgap'
  by_cases hslashes : c = '/' ∧ cs.head? = some '/'
  · obtain ⟨rfl, hslash⟩ := hslashes
    rw [hcs'] at hslash
    -- The second slash is no line end, so it stands in the comment behind the first.
    cases body with
    | nil => exact absurd (hends '/' hslash) (by decide)
    | cons d body =>
        obtain rfl := Option.some.inj hslash
        refine ⟨['/', '/'] ++ (body ++ gap'), rest', by simp [hcs'], ?_, hrest'⟩
        exact .comment (by simp [commentMarks]) (List.not_mem_of_not_mem_cons hbody) hends hgap'
  · refine ⟨[], c :: cs, rfl, .nil, fun d ds h => ?_⟩
    obtain ⟨rfl, rfl⟩ := List.cons.inj h
    exact ⟨by simpa using hblank, hhash, hslashes⟩

theorem PartsInComment.cons {c : Char} {cs : List Char} (h : Parts (c :: cs))
    (h' : PartsInComment cs) : PartsInComment (c :: cs) := by
  by_cases hnewline : c = '\n'
  · -- The comment is over.
    obtain ⟨gap, rest, hcs, hgap, hrest⟩ := h
    refine ⟨[], gap, rest, hcs, by simp, ?_, hgap, hrest⟩
    rw [← hcs]
    simp [EndsLine, hnewline]
  · obtain ⟨body, gap, rest, hcs, hbody, hends, hgap, hrest⟩ := h'
    refine ⟨c :: body, gap, rest, by simp [hcs], ?_, hends, hgap, hrest⟩
    simp [Ne.symm hnewline, hbody]

theorem parts (cs : List Char) : Parts cs ∧ PartsInComment cs := by
  induction cs with
  | nil =>
      refine ⟨⟨[], [], rfl, .nil, .nil⟩, [], [], [], rfl, by simp, ?_, .nil, .nil⟩
      simp [EndsLine]
  | cons c cs ih =>
      have hparts := ih.1.cons ih.2 c
      exact ⟨hparts, .cons hparts ih.2⟩

/-- The lexer in front of the next lexeme. -/
theorem Lexer.atLexeme_eq {gap rest : List Char} (hgap : Trivia rest gap) (hrest : AtLexeme rest)
    (p : Position) : (⟨p, gap ++ rest⟩ : Lexer).atLexeme = ⟨p.after gap, rest⟩ := by
  rw [atLexeme, hgap.skipTrivia]
  cases rest with
  | nil => rfl
  | cons c cs => exact (hrest c cs rfl).atLexeme _

/-- A lexeme with the blanks and comments in front of it. -/
structure Segment where
  gap : List Char
  reading : Reading
  taken : List Char

namespace Segment

/-- The token or error that a segment makes, if the blanks and comments in front of it stand
    at a position. -/
def item (p : Position) (s : Segment) : Except LexError Token :=
  Lexer.item (p.after s.gap) ⟨s.reading, s.taken, []⟩

/-- The items of segments one behind the other. -/
def items (p : Position) : List Segment → List (Except LexError Token)
  | [] => []
  | s :: segs => s.item p :: items (p.after (s.gap ++ s.taken)) segs

end Segment

/-- A text is a row of segments, with blanks and comments behind them. -/
inductive Segmented : List Char → List Segment → Prop where
  | last {gap : List Char} : Trivia [] gap → Segmented gap []
  | more {gap : List Char} {m : Lexeme} {segs : List Segment} :
      Trivia (m.taken ++ m.rest) gap → AtLexeme (m.taken ++ m.rest) → m.Formed →
      Segmented m.rest segs →
      Segmented (gap ++ (m.taken ++ m.rest)) (⟨gap, m.reading, m.taken⟩ :: segs)

theorem exists_segmented (cs : List Char) : ∃ segs, Segmented cs segs := by
  induction hn : cs.length using Nat.strongRecOn generalizing cs with
  | ind n ih =>
      obtain ⟨gap, rest, rfl, hgap, hrest⟩ := (parts cs).1
      cases rest with
      | nil =>
          rw [List.append_nil]
          exact ⟨[], .last hgap⟩
      | cons c cs =>
          obtain ⟨hformed, htext⟩ := Lexeme.formed_ofText c cs
          have htaken := List.length_pos_iff.mpr hformed.taken_ne_nil
          rw [← htext] at hgap hrest hn ⊢
          simp only [List.length_append] at hn
          obtain ⟨segs, hsegs⟩ := ih _ (by omega) (Lexeme.ofText c cs).rest rfl
          exact ⟨_, .more hgap hrest hformed hsegs⟩

namespace Segmented

/-- Blanks and comments in front of a text move its items. -/
theorem prepend {gap rest : List Char} {segs : List Segment} (h : Segmented rest segs)
    (hgap : Trivia rest gap) :
    ∃ segs', Segmented (gap ++ rest) segs' ∧
      ∀ p, Segment.items p segs' = Segment.items (p.after gap) segs := by
  cases h with
  | last hrest =>
      have hall : Trivia [] (gap ++ rest) := Trivia.append (by rwa [List.append_nil]) hrest
      exact ⟨[], .last hall, fun p => rfl⟩
  | @more gap' m segs hgap' hstart hm hsegs =>
      have hall := hgap.append hgap'
      refine ⟨⟨gap ++ gap', m.reading, m.taken⟩ :: segs, ?_, fun p => ?_⟩
      · rw [← List.append_assoc]
        exact .more hall hstart hm hsegs
      · simp only [Segment.items, Segment.item, Position.after_append]

/-- A lexeme with the blanks and comments in front of it stays a segment in front of a rest
    that goes on in the same way up to a blank, unless it is a string without an end. -/
theorem more_goesOn {gap rest : List Char} {m : Lexeme} {segs : List Segment}
    (hgap : Trivia (m.taken ++ m.rest) gap) (hstart : AtLexeme (m.taken ++ m.rest))
    (hm : m.Formed) (hend : m.reading ≠ .fault .unterminatedString)
    (hrest : GoesOnAs m.rest rest) (h : Segmented rest segs) :
    Segmented (gap ++ (m.taken ++ rest)) (⟨gap, m.reading, m.taken⟩ :: segs) := by
  -- Where a comment in front of the lexeme ends is seen from the lexeme alone.
  have hgap' : Trivia (m.taken ++ rest) gap := by
    refine hgap.mono fun hline => ?_
    obtain ⟨c, cs, htaken⟩ := List.exists_cons_of_ne_nil hm.taken_ne_nil
    rw [htaken] at hline ⊢
    exact hline
  exact more (m := ⟨m.reading, m.taken, rest⟩) hgap' (hstart.goesOn hm.taken_ne_nil hrest)
    (hm.goesOn hend hrest) h

end Segmented

/-! ## Stepping through segments -/

namespace Lexer

/-- The items that a lexer yields one after the other, up to the end of the text, and the
    lexer behind the last of them. -/
inductive Yields : Lexer → List (Except LexError Token) → Lexer → Prop where
  | last {l l' : Lexer} {t : Token} : l.next = (.ok t, l') → t.kind = .endOfInput →
      Yields l [.ok t] l'
  | more {l l' l'' : Lexer} {item : Except LexError Token} {items : List (Except LexError Token)} :
      l.next = (item, l') → (∀ t, item = .ok t → t.kind ≠ .endOfInput) → Yields l' items l'' →
      Yields l (item :: items) l''

theorem next_last {gap : List Char} (hgap : Trivia [] gap) (p : Position) :
    (⟨p, gap⟩ : Lexer).next = (.ok (endToken (p.after gap)), ⟨p.after gap, []⟩) := by
  have hat := atLexeme_eq hgap .nil p
  rw [List.append_nil] at hat
  rw [next, hat]

theorem next_more {gap : List Char} {m : Lexeme} (hgap : Trivia (m.taken ++ m.rest) gap)
    (hstart : AtLexeme (m.taken ++ m.rest)) (hm : m.Formed) (p : Position) :
    (⟨p, gap ++ (m.taken ++ m.rest)⟩ : Lexer).next =
      (Segment.item p ⟨gap, m.reading, m.taken⟩, ⟨p.after (gap ++ m.taken), m.rest⟩) := by
  have hat := atLexeme_eq hgap hstart p
  obtain ⟨c, cs, htaken⟩ := List.exists_cons_of_ne_nil hm.taken_ne_nil
  have htext : m.taken ++ m.rest = c :: (cs ++ m.rest) := by rw [htaken, List.cons_append]
  rw [next, hat, htext]
  dsimp only
  rw [hm.ofText_eq htext, Position.after_append]
  rfl

theorem kind_ne_endOfInput_of_item {p : Position} {s : Segment}
    (hs : ∀ kind literal, s.reading = .token kind literal → kind ≠ .endOfInput) {t : Token}
    (h : s.item p = .ok t) : t.kind ≠ .endOfInput := by
  unfold Segment.item item at h
  dsimp only at h
  split at h
  · rename_i kind literal hreading
    cases h
    exact hs kind literal hreading
  · cases h

end Lexer

namespace Segmented

variable {cs : List Char} {segs : List Segment}

/-- Stepping through a text yields the items of its segments and then its end. -/
theorem yields (h : Segmented cs segs) (p : Position) :
    Lexer.Yields ⟨p, cs⟩ (Segment.items p segs ++ [.ok (Lexer.endToken (p.after cs))])
      ⟨p.after cs, []⟩ := by
  induction h generalizing p with
  | last hgap => exact .last (Lexer.next_last hgap p) rfl
  | @more gap m segs hgap hstart hm _ ih =>
      have hrest := ih (p.after (gap ++ m.taken))
      rw [← Position.after_append, List.append_assoc] at hrest
      refine .more (Lexer.next_more hgap hstart hm p) (fun t ht => ?_) hrest
      exact Lexer.kind_ne_endOfInput_of_item (fun _ _ => hm.kind_ne_endOfInput) ht

/-- The steps within a budget are all of them, if it is not less than the number of
    characters. -/
theorem map_stepsWithin (h : Segmented cs segs) (p : Position) {budget : Nat}
    (hbudget : cs.length ≤ budget) :
    (Lexer.stepsWithin budget ⟨p, cs⟩).map (·.1) =
      Segment.items p segs ++ [.ok (Lexer.endToken (p.after cs))] := by
  induction h generalizing p budget with
  | @last gap hgap =>
      have hnext := Lexer.next_last hgap p
      have hat := Lexer.atLexeme_eq hgap .nil p
      rw [List.append_nil] at hat
      cases budget with
      | zero => rw [Lexer.stepsWithin, hnext]; rfl
      | succ budget => rw [Lexer.stepsWithin, hnext, hat]; rfl
  | @more gap m segs hgap hstart hm _ ih =>
      have hnext := Lexer.next_more hgap hstart hm p
      have hat := Lexer.atLexeme_eq hgap hstart p
      have htaken := List.length_pos_iff.mpr hm.taken_ne_nil
      simp only [List.length_append] at hbudget
      obtain ⟨budget, rfl⟩ : ∃ n, budget = n + 1 := ⟨budget - 1, by omega⟩
      have hmore : (m.taken ++ m.rest).isEmpty = false := by
        simp [hm.taken_ne_nil]
      have hlength : m.rest.length ≤ budget := by omega
      have hrest := ih (p.after (gap ++ m.taken)) hlength
      rw [← Position.after_append, List.append_assoc] at hrest
      rw [Lexer.stepsWithin, hnext, hat, hmore]
      exact congrArg (_ :: ·) hrest

theorem lexItems_eq {text : String} (h : Segmented text.toList segs) :
    lexItems text =
      Segment.items .origin segs ++ [.ok (Lexer.endToken (Position.origin.after text.toList))] :=
  h.map_stepsWithin .origin (Nat.le_refl _)

/-- What scanning a text yields, told from its segments. -/
theorem scan_eq {text : String} (h : Segmented text.toList segs) :
    scan text = ((Segment.items .origin segs).filterMap tokenOfItem? ++
        [Lexer.endToken (Position.origin.after text.toList)],
      (Segment.items .origin segs).filterMap errorOfItem?) := by
  rw [scan, h.lexItems_eq, List.filterMap_append, List.filterMap_append]
  exact congrArg (Prod.mk _) (List.append_nil _)

theorem formed_of_mem (h : Segmented cs segs) {s : Segment} (hs : s ∈ segs) :
    ∃ rest, Lexeme.Formed ⟨s.reading, s.taken, rest⟩ := by
  induction h with
  | last => cases hs
  | @more gap m segs _ _ hm _ ih =>
      rcases List.mem_cons.mp hs with rfl | hs
      · exact ⟨m.rest, hm⟩
      · exact ih hs

end Segmented

namespace Segment

variable {segs : List Segment}

theorem mem_items {item : Except LexError Token} {p : Position} (h : item ∈ items p segs) :
    ∃ s ∈ segs, ∃ p', item = s.item p' := by
  induction segs generalizing p with
  | nil => cases h
  | cons s segs ih =>
      rcases List.mem_cons.mp h with rfl | h
      · exact ⟨s, List.mem_cons_self, p, rfl⟩
      · obtain ⟨s', hs', hitem⟩ := ih h
        exact ⟨s', List.mem_cons_of_mem _ hs', hitem⟩

theorem exists_item_mem {s : Segment} (h : s ∈ segs) (p : Position) :
    ∃ p', s.item p' ∈ items p segs := by
  induction segs generalizing p with
  | nil => cases h
  | cons s' segs ih =>
      rcases List.mem_cons.mp h with rfl | h
      · exact ⟨p, List.mem_cons_self⟩
      · obtain ⟨p', hp'⟩ := ih h (p.after (s'.gap ++ s'.taken))
        exact ⟨p', List.mem_cons_of_mem _ hp'⟩

end Segment

end BlockLang
