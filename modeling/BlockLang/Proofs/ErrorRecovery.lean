/-
  BlockLang.Proofs.ErrorRecovery

  What scanning drops at an error.

  The place of an error and its fault tell which characters of the text it is about
  (`LexError.Touches`).  If spaces stand for these characters, and the newlines among them
  stay, the text has no errors and yields the same tokens on the same lines and in the same
  columns.  So scanning passes exactly these characters at an error, and what stands on both
  sides of them is read as it would be around blanks.
-/
import BlockLang.Proofs.Positions

namespace BlockLang

/-! ## The characters that an error is about -/

/-- How many characters at the front of a rest a fault is about. -/
def LexFault.width (rest : List Char) : LexFault → Nat
  | .unexpectedCharacter _ => 1
  | .expectedTypeSeparator => 1
  | .invalidNumber literal => literal.length
  | .unterminatedString => rest.length

/-- Whether an error of a text is about the character with some number. -/
def LexError.Touches (cs : List Char) (e : LexError) (i : Nat) : Prop :=
  ∃ start ≤ i, i < start + e.fault.width (cs.drop start) ∧
    e.line = lineBehind (cs.take start) ∧ e.column = columnBehind (cs.take start)

instance (cs : List Char) (e : LexError) (i : Nat) : Decidable (e.Touches cs i) :=
  inferInstanceAs (Decidable (∃ start ≤ i, _ ∧ _ ∧ _))

theorem columnBehind_append {cs : List Char} (h : '\n' ∉ cs) (before : List Char) :
    columnBehind (before ++ cs) = columnBehind before + cs.length := by
  have hall : ∀ c ∈ cs.reverse, (c != '\n') = true := by
    intro c hc
    exact forall_bne h c (List.mem_reverse.mp hc)
  rw [columnBehind, columnBehind, List.rtakeWhile, List.rtakeWhile, List.reverse_append,
    List.takeWhile_append_of_pos hall]
  simp only [List.length_reverse, List.length_append]
  omega

/-- Line and column tell how much of a text stands in front of them. -/
theorem eq_of_place {cs before before' : List Char} (h : before <+: cs) (h' : before' <+: cs)
    (hline : lineBehind before = lineBehind before')
    (hcolumn : columnBehind before = columnBehind before') : before = before' := by
  wlog hle : before <+: before' generalizing before before'
  · have hge := (List.prefix_or_prefix_of_prefix h h').resolve_left hle
    exact (this h' h hline.symm hcolumn.symm hge).symm
  obtain ⟨mid, rfl⟩ := hle
  -- No newline stands between the two, so every character counts for the column.
  have hmid : '\n' ∉ mid := by
    rw [lineBehind, lineBehind, List.count_append] at hline
    exact List.count_eq_zero.mp (by omega)
  rw [columnBehind_append hmid] at hcolumn
  have hnil : mid = [] := List.length_eq_zero_iff.mp (by omega)
  rw [hnil, List.append_nil]

theorem Offends.width_eq {rest taken : List Char} {fault : LexFault}
    (h : Offends rest fault taken) : fault.width (taken ++ rest) = taken.length := by
  cases h with
  | unexpectedCharacter => rfl
  | expectedTypeSeparator => rfl
  | invalidNumber => exact String.length_ofList
  | unterminatedString _ hrest => rw [hrest, List.append_nil]; rfl

/-- An error is about the characters that offend. -/
theorem Offends.touches_iff {taken rest : List Char} {fault : LexFault}
    (h : Offends rest fault taken) (before : List Char) {i : Nat}
    (hi : i < (before ++ (taken ++ rest)).length) :
    LexError.Touches (before ++ (taken ++ rest))
        ⟨fault, lineBehind before, columnBehind before⟩ i ↔
      before.length ≤ i ∧ i < before.length + taken.length := by
  constructor
  · rintro ⟨start, hstart, hwidth, hline, hcolumn⟩
    have hfront := eq_of_place (List.take_prefix start _) (List.prefix_append before _)
      hline.symm hcolumn.symm
    have hlength : start = before.length := by
      rw [← hfront, List.length_take]
      omega
    subst hlength
    rw [List.drop_left, h.width_eq] at hwidth
    exact ⟨hstart, hwidth⟩
  · rintro ⟨hle, hlt⟩
    refine ⟨before.length, hle, ?_, ?_, ?_⟩
    · rwa [List.drop_left, h.width_eq]
    · rw [List.take_left]
    · rw [List.take_left]

/-- The characters `taken` of a text are those that an error is about. -/
structure LexError.IsAbout (text : List Char) (e : LexError) (before taken rest : List Char) :
    Prop where
  text_eq : text = before ++ (taken ++ rest)
  line_eq : e.line = lineBehind before
  column_eq : e.column = columnBehind before
  offends : Offends rest e.fault taken
  touches_iff : ∀ i < text.length,
    e.Touches text i ↔ before.length ≤ i ∧ i < before.length + taken.length

theorem Covers.exists_isAbout {text before rest : List Char} {items : List (Except LexError Token)}
    (h : Covers before rest items) (htext : text = before ++ rest) :
    ∀ e ∈ items.filterMap errorOfItem?, ∃ before taken rest, e.IsAbout text before taken rest := by
  induction h with
  | ending => exact List.forall_mem_nil _
  | token _ _ _ _ _ ih => exact ih (by simp only [htext, List.append_assoc])
  | @error before gap taken rest items fault _ _ hoffends _ ih =>
      have hsplit : text = before ++ gap ++ (taken ++ rest) := by
        simp only [htext, List.append_assoc]
      have hrest := ih (by simp only [htext, List.append_assoc])
      refine List.forall_mem_cons.mpr
        ⟨⟨before ++ gap, taken, rest, hsplit, rfl, rfl, hoffends, fun i hi => ?_⟩, hrest⟩
      rw [hsplit] at hi ⊢
      exact hoffends.touches_iff (before ++ gap) hi

/-! ## Spaces for some characters -/

/-- A space for every character but a newline. -/
def blankOut (c : Char) : Char := if c = '\n' then c else ' '

/-- Characters with spaces for those that are bad, where the first of them has the number
    `i`. -/
def blankFrom (bad : Nat → Bool) : Nat → List Char → List Char
  | _, [] => []
  | i, c :: cs => (if bad i then blankOut c else c) :: blankFrom bad (i + 1) cs

/-- Whether one of the errors of a text is about the character with some number. -/
def offending (text : String) (i : Nat) : Bool :=
  (scan text).2.any fun e => e.Touches text.toList i

/-- A text with spaces for the characters that its errors are about. -/
def blanked (text : String) : String :=
  String.ofList (blankFrom (offending text) 0 text.toList)

theorem isBlank_blankOut (c : Char) : isBlank (blankOut c) = true := by
  unfold blankOut
  split <;> simp_all [isBlank]

theorem blankOut_eq_newline {c : Char} : blankOut c = '\n' ↔ c = '\n' := by
  unfold blankOut
  split <;> simp_all

section BlankFrom

variable {bad : Nat → Bool}

theorem blankFrom_append (i : Nat) (cs ds : List Char) :
    blankFrom bad i (cs ++ ds) = blankFrom bad i cs ++ blankFrom bad (i + cs.length) ds := by
  induction cs generalizing i with
  | nil => rfl
  | cons c cs ih =>
      rw [List.cons_append, blankFrom, ih, blankFrom, List.length_cons, List.cons_append,
        Nat.add_assoc, Nat.add_comm 1]

/-- If no character is bad, nothing changes. -/
theorem blankFrom_of_not_bad {i : Nat} {cs : List Char}
    (h : ∀ j, i ≤ j → j < i + cs.length → bad j = false) : blankFrom bad i cs = cs := by
  induction cs generalizing i with
  | nil => rfl
  | cons c cs ih =>
      rw [List.length_cons] at h
      have hc : bad i = false := h i (by omega) (by omega)
      have hcs := ih (i := i + 1) fun j hle hlt => h j (by omega) (by omega)
      rw [blankFrom, hc, hcs]
      rfl

/-- If all characters are bad, blanks remain. -/
theorem isBlank_of_mem_blankFrom {i : Nat} {cs : List Char}
    (h : ∀ j, i ≤ j → j < i + cs.length → bad j = true) :
    ∀ c ∈ blankFrom bad i cs, isBlank c := by
  induction cs generalizing i with
  | nil => exact List.forall_mem_nil _
  | cons c cs ih =>
      rw [List.length_cons] at h
      have hc : bad i = true := h i (by omega) (by omega)
      rw [blankFrom, hc]
      refine List.forall_mem_cons.mpr ⟨isBlank_blankOut c, ih fun j hle hlt => ?_⟩
      exact h j (by omega) (by omega)

/-- Up to the next blank the characters are those of before. -/
theorem goesOnAs_blankFrom (i : Nat) (cs : List Char) : GoesOnAs cs (blankFrom bad i cs) := by
  induction cs generalizing i with
  | nil => exact List.prefix_rfl
  | cons c cs ih =>
      rw [blankFrom]
      split
      · simp [GoesOnAs, isBlank_blankOut]
      · exact (ih (i + 1)).append [c]

theorem EndsLine.blankFrom {cs : List Char} (h : EndsLine cs) (bad : Nat → Bool) (i : Nat) :
    EndsLine (blankFrom bad i cs) := by
  cases cs with
  | nil => exact h
  | cons c cs =>
      obtain rfl : c = '\n' := h c rfl
      intro d hd
      obtain rfl := Option.some.inj hd
      split <;> rfl

end BlankFrom

theorem Trivia.of_isBlank {gap : List Char} (h : ∀ c ∈ gap, isBlank c) (rest : List Char) :
    Trivia rest gap := by
  induction gap with
  | nil => exact .nil
  | cons c gap ih =>
      obtain ⟨hc, hgap⟩ := List.forall_mem_cons.mp h
      exact .blank hc (ih hgap)

/-! ## Places apart from bytes -/

/-- Whether two places are on one line and in one column. -/
structure Position.SamePlace (p q : Position) : Prop where
  line_eq : p.line = q.line
  column_eq : p.column = q.column

/-- A token with its line and its column, and without the bytes in front of it. -/
def Token.withoutOffsets (t : Token) : Token :=
  { t with span := ⟨0, 0, t.span.line, t.span.column⟩ }

namespace Position.SamePlace

variable {p q : Position} (h : p.SamePlace q)
include h

theorem next {c d : Char} (hcd : c = '\n' ↔ d = '\n') : (p.next c).SamePlace (q.next d) := by
  unfold Position.next
  by_cases hd : d = '\n'
  · rw [if_pos hd, if_pos (hcd.mpr hd)]
    exact ⟨congrArg (· + 1) h.line_eq, rfl⟩
  · rw [if_neg hd, if_neg (mt hcd.mp hd)]
    exact ⟨h.line_eq, congrArg (· + 1) h.column_eq⟩

theorem after_blankFrom (bad : Nat → Bool) (i : Nat) (cs : List Char) :
    (p.after (blankFrom bad i cs)).SamePlace (q.after cs) := by
  induction cs generalizing i p q with
  | nil => exact h
  | cons c cs ih =>
      refine ih (h.next ?_) (i + 1)
      split
      · exact blankOut_eq_newline
      · rfl

theorem endToken : (Lexer.endToken p).withoutOffsets = (Lexer.endToken q).withoutOffsets := by
  simp only [Lexer.endToken, Token.withoutOffsets, h.line_eq, h.column_eq]

end Position.SamePlace

/-! ## Segments -/

/-- Whether a lexeme reads as a fault. -/
def Segment.Faulty (s : Segment) : Prop := ∃ cause, s.reading = .fault cause

/-- Whether the character with the number `i` belongs to a lexeme that reads as a fault, where
    the first character of the segments has the number `start`. -/
def InFault : Nat → List Segment → Nat → Prop
  | _, [], _ => False
  | start, s :: segs, i =>
    s.Faulty ∧ start + s.gap.length ≤ i ∧ i < start + s.gap.length + s.taken.length ∨
      InFault (start + s.gap.length + s.taken.length) segs i

theorem InFault.le {start i : Nat} {segs : List Segment} (h : InFault start segs i) :
    start ≤ i := by
  induction segs generalizing start with
  | nil => exact h.elim
  | cons s segs ih =>
      rcases h with ⟨-, hle, -⟩ | h
      · omega
      · have hle := ih h
        omega

section InFault

variable {start i : Nat} {s : Segment} {segs : List Segment}

theorem not_inFault_of_gap (h : i < start + s.gap.length) : ¬InFault start (s :: segs) i := by
  rintro (⟨-, hle, -⟩ | hbehind)
  · omega
  · have hle := hbehind.le
    omega

theorem inFault_iff_faulty (h : start + s.gap.length ≤ i)
    (h' : i < start + s.gap.length + s.taken.length) : InFault start (s :: segs) i ↔ s.Faulty := by
  constructor
  · rintro (⟨hs, -⟩ | hbehind)
    · exact hs
    · have hle := hbehind.le
      omega
  · intro hs
    exact .inl ⟨hs, h, h'⟩

theorem inFault_iff_behind (h : start + s.gap.length + s.taken.length ≤ i) :
    InFault start (s :: segs) i ↔ InFault (start + s.gap.length + s.taken.length) segs i := by
  constructor
  · rintro (⟨-, -, hlt⟩ | hbehind)
    · omega
    · exact hbehind
  · exact .inr

end InFault

/-- The errors of segments are about the characters of their faulty lexemes. -/
theorem Segmented.exists_touches_iff {text cs : List Char} {segs : List Segment}
    (h : Segmented cs segs) {before : List Char} (htext : text = before ++ cs) {i : Nat}
    (hi : i < text.length) :
    (∃ e ∈ (Segment.items (Position.origin.after before) segs).filterMap errorOfItem?,
        e.Touches text i) ↔ InFault before.length segs i := by
  induction h generalizing before with
  | last => simp [Segment.items, InFault]
  | @more gap m segs _ _ hm _ ih =>
      have hsplit : text = before ++ gap ++ (m.taken ++ m.rest) := by
        rw [htext, List.append_assoc]
      have hbehind : text = before ++ gap ++ m.taken ++ m.rest := by
        rw [hsplit, List.append_assoc _ m.taken]
      have hrest := ih hbehind
      have hbefore : (Position.origin.after before).after (gap ++ m.taken) =
          Position.origin.after (before ++ gap ++ m.taken) := by
        rw [← Position.after_append, List.append_assoc]
      rw [List.length_append, List.length_append] at hrest
      rw [Segment.items, hbefore, InFault, ← hrest]
      -- Only a faulty lexeme has an error, which touches the characters that the fault names.
      cases hreading : m.reading with
      | token kind literal =>
          rw [Segment.item_token rfl]
          simp [Segment.Faulty, errorOfItem?]
      | fault cause =>
          have htouches := (hm.offends hreading).touches_iff (before ++ gap) (hsplit ▸ hi)
          rw [← hsplit, List.length_append] at htouches
          rw [Segment.item_fault rfl]
          simp [Segment.Faulty, errorOfItem?, htouches]

/-- What remains of the items of a text if its errors are dropped: no error, and the tokens on
    their lines and in their columns. -/
structure Recovered (items items' : List (Except LexError Token)) : Prop where
  errors_eq : items'.filterMap errorOfItem? = []
  tokens_eq : (items'.filterMap tokenOfItem?).map Token.withoutOffsets =
    (items.filterMap tokenOfItem?).map Token.withoutOffsets

theorem Recovered.cons_token {items items' : List (Except LexError Token)} {s : Segment}
    (h : Recovered items items') (hs : ¬s.Faulty) {p q : Position}
    (hplace : (p.after s.gap).SamePlace (q.after s.gap)) :
    Recovered (s.item q :: items) (s.item p :: items') := by
  obtain ⟨gap, reading, taken⟩ := s
  cases reading with
  | fault cause => exact absurd ⟨cause, rfl⟩ hs
  | token kind literal =>
      refine ⟨h.errors_eq, ?_⟩
      simp only [Segment.item, Lexer.item, List.filterMap_cons, tokenOfItem?, List.map_cons,
        Token.withoutOffsets, hplace.line_eq, hplace.column_eq]
      exact congrArg _ h.tokens_eq

theorem Recovered.cons_error {items items' : List (Except LexError Token)} {s : Segment}
    (h : Recovered items items') (hs : s.Faulty) (q : Position) :
    Recovered (s.item q :: items) items' := by
  obtain ⟨cause, hreading⟩ := hs
  refine ⟨h.errors_eq, ?_⟩
  simp only [Segment.item, Lexer.item, hreading, List.filterMap_cons, tokenOfItem?]
  exact h.tokens_eq

/-- Whether the bad ones among some characters are those of the faulty lexemes of segments. -/
def MarksFaults (bad : Nat → Bool) (start : Nat) (cs : List Char) (segs : List Segment) : Prop :=
  ∀ i, start ≤ i → i < start + cs.length → (bad i ↔ InFault start segs i)

namespace MarksFaults

variable {bad : Nat → Bool} {start : Nat} {gap taken rest : List Char} {reading : Reading}
  {segs : List Segment}

theorem last_eq (h : MarksFaults bad start gap []) : blankFrom bad start gap = gap := by
  apply blankFrom_of_not_bad
  intro i hle hlt
  rw [← Bool.not_eq_true, h i hle hlt]
  exact not_false

variable (h : MarksFaults bad start (gap ++ (taken ++ rest)) (⟨gap, reading, taken⟩ :: segs))
include h

theorem gap_eq : blankFrom bad start gap = gap := by
  simp only [MarksFaults, List.length_append] at h
  apply blankFrom_of_not_bad
  intro i hle hlt
  rw [← Bool.not_eq_true, h i hle (by omega)]
  exact not_inFault_of_gap hlt

theorem taken_eq (hs : ¬Segment.Faulty ⟨gap, reading, taken⟩) :
    blankFrom bad (start + gap.length) taken = taken := by
  simp only [MarksFaults, List.length_append] at h
  apply blankFrom_of_not_bad
  intro i hle hlt
  rw [← Bool.not_eq_true, h i (by omega) (by omega), inFault_iff_faulty hle hlt]
  exact hs

theorem isBlank_of_faulty (hs : Segment.Faulty ⟨gap, reading, taken⟩) :
    ∀ c ∈ blankFrom bad (start + gap.length) taken, isBlank c := by
  simp only [MarksFaults, List.length_append] at h
  apply isBlank_of_mem_blankFrom
  intro i hle hlt
  rw [h i (by omega) (by omega), inFault_iff_faulty hle hlt]
  exact hs

theorem behind : MarksFaults bad (start + gap.length + taken.length) rest segs := by
  simp only [MarksFaults, List.length_append] at h
  intro i hle hlt
  rw [h i (by omega) (by omega)]
  exact inFault_iff_behind hle

end MarksFaults

/-- With spaces for the characters of faulty lexemes a text has the other segments, at the
    same places. -/
theorem Segmented.recovered {cs : List Char} {segs : List Segment} (h : Segmented cs segs)
    {bad : Nat → Bool} {start : Nat} (hbad : MarksFaults bad start cs segs) :
    ∃ segs', Segmented (blankFrom bad start cs) segs' ∧ ∀ p q, Position.SamePlace p q →
      Recovered (Segment.items q segs) (Segment.items p segs') := by
  induction h generalizing start with
  | @last gap hgap =>
      rw [hbad.last_eq]
      exact ⟨[], .last hgap, fun p q _ => ⟨rfl, rfl⟩⟩
  | @more gap m segs hgap hstart hm _ ih =>
      obtain ⟨segs', hsegs', hrecovered⟩ := ih hbad.behind
      -- Line and column behind the lexeme are those of before, spaces or not.
      have hplace {p q : Position} (hpq : p.SamePlace q) :
          (p.after (gap ++ blankFrom bad (start + gap.length) m.taken)).SamePlace
            (q.after (gap ++ m.taken)) := by
        have hafter := hpq.after_blankFrom bad start (gap ++ m.taken)
        rwa [blankFrom_append, hbad.gap_eq] at hafter
      rw [blankFrom_append, hbad.gap_eq]
      by_cases hfaulty : Segment.Faulty ⟨gap, m.reading, m.taken⟩
      · -- The spaces belong to the blanks in front of the next lexeme.
        have hblank := hbad.isBlank_of_faulty hfaulty
        have hgap' := hgap.mono fun hline => hline.blankFrom bad (start + gap.length)
        rw [blankFrom_append] at hgap' ⊢
        obtain ⟨segs'', hsegs'', hitems⟩ := hsegs'.prepend (hgap'.append (.of_isBlank hblank _))
        refine ⟨segs'', by rwa [List.append_assoc] at hsegs'', fun p q hpq => ?_⟩
        rw [hitems]
        exact (hrecovered _ _ (hplace hpq)).cons_error hfaulty q
      · -- Behind the lexeme the text goes on as before or with a blank, so its end stays.
        have htaken := hbad.taken_eq hfaulty
        rw [blankFrom_append, htaken]
        rw [htaken] at hplace
        refine ⟨_, more_goesOn hgap hstart hm (fun hfault => hfaulty ⟨_, hfault⟩)
          (goesOnAs_blankFrom _ _) hsegs', fun p q hpq => ?_⟩
        have hlexeme := hpq.after_blankFrom bad start gap
        rw [hbad.gap_eq] at hlexeme
        exact (hrecovered _ _ (hplace hpq)).cons_token hfaulty hlexeme

/-- Every error of a text is about the characters that its fault names.  With one space for
    each of these characters that is no newline the text is accepted, and its tokens are those
    that scanning yields, each on its line and in its column. -/
theorem recovery_drops_offending_text (text : String) :
    (∀ e ∈ (scan text).2, ∃ before taken rest, e.IsAbout text.toList before taken rest) ∧
      ∃ tokens, tokenize (blanked text) = .ok tokens ∧
        tokens.map Token.withoutOffsets = (scan text).1.map Token.withoutOffsets := by
  obtain ⟨segs, hsegs⟩ := exists_segmented text.toList
  have hscan := hsegs.scan_eq
  constructor
  · have hcovers := (hsegs.covers []).exists_isAbout rfl
    rw [List.filterMap_append] at hcovers
    rw [hscan]
    exact fun e he => hcovers e (List.mem_append_left _ he)
  · have hoffending : MarksFaults (offending text) 0 text.toList segs := by
      intro i _ hi
      have htext : text.toList = [] ++ text.toList := rfl
      rw [offending, hscan, List.any_eq_true]
      simp only [decide_eq_true_eq]
      exact hsegs.exists_touches_iff htext (by omega)
    obtain ⟨segs', hsegs', hrecovered⟩ := hsegs.recovered hoffending
    have hplace : Position.SamePlace .origin .origin := ⟨rfl, rfl⟩
    obtain ⟨herrors, htokens⟩ := hrecovered _ _ hplace
    have hend := (hplace.after_blankFrom (offending text) 0 text.toList).endToken
    have hblanked : (blanked text).toList = blankFrom (offending text) 0 text.toList :=
      String.toList_ofList
    rw [← hblanked] at hsegs' hend
    refine ⟨_, by rw [tokenize, hsegs'.scan_eq, herrors], ?_⟩
    rw [hscan, List.map_append, List.map_append, htokens]
    exact congrArg (_ ++ [·]) hend

/-- A character of two bytes becomes one space, and the newline in the string stays. -/
example : blanked "1 @ : \"é\nb" = "1       \n " := by decide +kernel

end BlockLang
