/-
  BlockLang.Proofs.Positions

  Where tokens and errors stand.

  The items of a text cover it: each of them has some characters of its own, in the order of
  the text, with nothing but blanks and comments in front of them, and its place is told from
  all that stands in front of those characters (`Covers`).  From this follows what the spans
  of the tokens say: they lie between characters, in order and apart, and each holds the
  lexeme of its token.
-/
import BlockLang.Proofs.Token.Segment
import Mathlib.Data.String.Basic

namespace BlockLang

open String (utf8Len)

/-! ## Places told from the text in front of them -/

/-- The line behind some characters. -/
def lineBehind (before : List Char) : Nat := 1 + before.count '\n'

/-- The column behind some characters: those since the last newline count. -/
def columnBehind (before : List Char) : Nat := 1 + (before.rtakeWhile (· != '\n')).length

/-- The span of some characters behind others. -/
def spanBehind (before taken : List Char) : Span :=
  ⟨utf8Len before, utf8Len (before ++ taken), lineBehind before, columnBehind before⟩

theorem Position.origin_after (before : List Char) :
    origin.after before = ⟨utf8Len before, lineBehind before, columnBehind before⟩ := by
  have hoffset : (origin.after before).offset = utf8Len before := by
    rw [offset_after, String.utf8ByteSize_ofList]
    exact Nat.zero_add _
  have hline : (origin.after before).line = lineBehind before := line_after origin before
  have hcolumn : (origin.after before).column = columnBehind before := column_origin_after before
  rw [← hoffset, ← hline, ← hcolumn]

/-- A lexeme that reads as a token makes it with the span of the characters it takes. -/
theorem Segment.item_token {s : Segment} {kind : TokenKind} {literal : Option Value}
    (h : s.reading = .token kind literal) (before : List Char) :
    s.item (Position.origin.after before) =
      .ok ⟨kind, String.ofList s.taken, literal, spanBehind (before ++ s.gap) s.taken⟩ := by
  rw [item, ← Position.after_append, Lexer.item, h]
  dsimp only
  rw [← Position.after_append, Position.origin_after, Position.origin_after, spanBehind]

/-- A lexeme that reads as a fault makes an error in front of the characters it takes. -/
theorem Segment.item_fault {s : Segment} {cause : LexFault} (h : s.reading = .fault cause)
    (before : List Char) :
    s.item (Position.origin.after before) =
      .error ⟨cause, lineBehind (before ++ s.gap), columnBehind (before ++ s.gap)⟩ := by
  rw [item, ← Position.after_append, Lexer.item, h, Position.origin_after]

theorem Lexer.endToken_origin_after (before : List Char) :
    endToken (Position.origin.after before) = ⟨.endOfInput, "", none, spanBehind before []⟩ := by
  rw [endToken, Position.origin_after, spanBehind, List.append_nil]

/-! ## Items and the characters they are about -/

/-- The characters in front of a rest that a fault is about. -/
inductive Offends (rest : List Char) : LexFault → List Char → Prop where
  | unexpectedCharacter {c : Char} : Offends rest (.unexpectedCharacter c) [c]
  | expectedTypeSeparator : Offends rest .expectedTypeSeparator [':']
  | invalidNumber {taken : List Char} : taken ≠ [] →
      Offends rest (.invalidNumber (String.ofList taken)) taken
  | unterminatedString {content : List Char} : '"' ∉ content → rest = [] →
      Offends rest .unterminatedString ('"' :: content)

/-- The items of a text behind some characters: each is about the first characters behind the
    blanks and comments in front of it, and the end of the text is the last of them. -/
inductive Covers : List Char → List Char → List (Except LexError Token) → Prop where
  | ending {before gap : List Char} : Trivia [] gap →
      Covers before gap [.ok ⟨.endOfInput, "", none, spanBehind (before ++ gap) []⟩]
  | token {before gap taken rest : List Char} {items : List (Except LexError Token)}
      {kind : TokenKind} {literal : Option Value} : Trivia (taken ++ rest) gap →
      AtLexeme (taken ++ rest) → taken ≠ [] → kind ≠ .endOfInput →
      Covers (before ++ gap ++ taken) rest items →
      Covers before (gap ++ (taken ++ rest))
        (.ok ⟨kind, String.ofList taken, literal, spanBehind (before ++ gap) taken⟩ :: items)
  | error {before gap taken rest : List Char} {items : List (Except LexError Token)}
      {fault : LexFault} : Trivia (taken ++ rest) gap → AtLexeme (taken ++ rest) →
      Offends rest fault taken → Covers (before ++ gap ++ taken) rest items →
      Covers before (gap ++ (taken ++ rest))
        (.error ⟨fault, lineBehind (before ++ gap), columnBehind (before ++ gap)⟩ :: items)

/-- A lexeme that reads as a fault takes the characters that the fault is about. -/
theorem Lexeme.Formed.offends {m : Lexeme} (h : m.Formed) {cause : LexFault}
    (hreading : m.reading = .fault cause) : Offends m.rest cause m.taken := by
  cases h with
  | quoted => cases hreading
  | unterminated hcontent =>
      obtain rfl := Reading.fault.inj hreading
      exact .unterminatedString hcontent rfl
  | word => cases hreading
  | @whole digits _ hne =>
      rcases Lexeme.readWhole_cases digits with ⟨n, hn, -⟩ | ⟨hfault, -⟩
      · cases hn.symm.trans hreading
      · cases hfault.symm.trans hreading
        exact .invalidNumber hne
  | @fraction whole fraction =>
      rcases Lexeme.readFraction_cases whole fraction with ⟨hx, -⟩ | ⟨hfault, -⟩
      · cases hx.symm.trans hreading
      · cases hfault.symm.trans hreading
        exact .invalidNumber (by simp)
  | mark => cases hreading
  | @stray c =>
      obtain rfl := Reading.fault.inj hreading
      by_cases hcolon : c = ':'
      · subst hcolon
        exact .expectedTypeSeparator
      · rw [if_neg hcolon]
        exact .unexpectedCharacter

/-- The items of segments cover the text of the segments. -/
theorem Segmented.covers {cs : List Char} {segs : List Segment} (h : Segmented cs segs)
    (before : List Char) :
    Covers before cs (Segment.items (Position.origin.after before) segs ++
      [.ok (Lexer.endToken (Position.origin.after (before ++ cs)))]) := by
  induction h generalizing before with
  | last hgap =>
      rw [Lexer.endToken_origin_after]
      exact .ending hgap
  | @more gap m segs hgap hstart hm _ ih =>
      -- The items of the rest stand behind all that this segment takes.
      have hrest := ih (before ++ gap ++ m.taken)
      have hbefore : (Position.origin.after before).after (gap ++ m.taken) =
          Position.origin.after (before ++ gap ++ m.taken) := by
        rw [← Position.after_append, List.append_assoc]
      have hwhole : before ++ (gap ++ (m.taken ++ m.rest)) =
          before ++ gap ++ m.taken ++ m.rest := by
        simp only [List.append_assoc]
      rw [Segment.items, hbefore, List.cons_append, hwhole]
      cases hreading : m.reading with
      | token kind literal =>
          rw [Segment.item_token rfl]
          exact .token hgap hstart hm.taken_ne_nil (hm.kind_ne_endOfInput hreading) hrest
      | fault cause =>
          rw [Segment.item_fault rfl]
          exact .error hgap hstart (hm.offends hreading) hrest

/-! ## What the spans say -/

/-- The text between two places, counted in bytes. -/
def slice (text : String) (start stop : Nat) : String :=
  String.Pos.Raw.extract text ⟨start⟩ ⟨stop⟩

/-- A token stands where its span says: between two characters, with its lexeme between its
    ends, on the line and in the column that the text in front of it gives. -/
structure Token.StandsIn (text : String) (t : Token) : Prop where
  start_isValid : String.Pos.Raw.IsValid text ⟨t.span.start⟩
  stop_isValid : String.Pos.Raw.IsValid text ⟨t.span.stop⟩
  slice_eq : slice text t.span.start t.span.stop = t.lexeme
  line_eq : t.span.line = lineBehind (slice text 0 t.span.start).toList
  column_eq : t.span.column = columnBehind (slice text 0 t.span.start).toList

/-- Between a place and the tokens behind it there are only blanks and comments. -/
def Spaced (text : String) : Nat → List Token → Prop
  | _, [] => True
  | place, t :: tokens =>
    Trivia (slice text t.span.start text.utf8ByteSize).toList
        (slice text place t.span.start).toList ∧
      Spaced text t.span.stop tokens

section

variable {text : String} {before taken behind : List Char}

theorem slice_eq_ofList (h : text.toList = before ++ taken ++ behind) :
    slice text (utf8Len before) (utf8Len (before ++ taken)) = String.ofList taken := by
  obtain rfl : text = String.ofList (before ++ taken ++ behind) := by
    rw [← h, String.ofList_toList]
  rw [slice, String.utf8Len_append, String.extract_of_valid]

theorem isValid_utf8Len (h : text.toList = before ++ behind) :
    String.Pos.Raw.IsValid text ⟨utf8Len before⟩ := by
  refine String.Pos.Raw.isValid_iff_exists_append.mpr
    ⟨String.ofList before, String.ofList behind, ?_, ?_⟩
  · rw [← String.ofList_append, ← h, String.ofList_toList]
  · rw [← String.utf8ByteSize_ofList]
    rfl

theorem utf8Len_toList (text : String) : utf8Len text.toList = text.utf8ByteSize := by
  rw [← String.utf8ByteSize_ofList, String.ofList_toList]

/-- A token with the characters of its span as its lexeme stands there. -/
theorem Token.standsIn_spanBehind (h : text.toList = before ++ taken ++ behind)
    (kind : TokenKind) (literal : Option Value) :
    Token.StandsIn text ⟨kind, String.ofList taken, literal, spanBehind before taken⟩ := by
  have hfront : (slice text 0 (utf8Len before)).toList = before := by
    have hempty : text.toList = [] ++ before ++ (taken ++ behind) := by
      rw [h, List.nil_append, List.append_assoc]
    have hslice := slice_eq_ofList hempty
    rw [List.nil_append, String.utf8Len_nil] at hslice
    rw [hslice, String.toList_ofList]
  exact
    { start_isValid := isValid_utf8Len (h.trans (List.append_assoc _ _ _))
      stop_isValid := isValid_utf8Len h
      slice_eq := slice_eq_ofList h
      line_eq := congrArg lineBehind hfront.symm
      column_eq := congrArg columnBehind hfront.symm }

/-- Blanks and comments in front of a span are those between it and the place in front of
    them. -/
theorem trivia_slice {gap rest : List Char} (h : text.toList = before ++ (gap ++ rest))
    (hgap : Trivia rest gap) :
    Trivia (slice text (utf8Len (before ++ gap)) text.utf8ByteSize).toList
      (slice text (utf8Len before) (utf8Len (before ++ gap))).toList := by
  have hfront : text.toList = before ++ gap ++ rest := by rw [h, List.append_assoc]
  have hbehind : text.toList = before ++ gap ++ rest ++ [] := by rw [hfront, List.append_nil]
  have hslice := slice_eq_ofList hbehind
  rw [← hfront, utf8Len_toList] at hslice
  rw [slice_eq_ofList hfront, hslice, String.toList_ofList, String.toList_ofList]
  exact hgap

end

namespace Covers

variable {text : String} {before rest : List Char} {items : List (Except LexError Token)}

/-- The last token is the only one for the end of the text, and the others are not empty. -/
theorem exists_tokens (h : Covers before rest items) :
    ∃ tokens last, items.filterMap tokenOfItem? = tokens ++ [last] ∧
      last.kind = .endOfInput ∧ last.span.start = utf8Len (before ++ rest) ∧
      last.span.stop = utf8Len (before ++ rest) ∧
      ∀ t ∈ tokens, t.kind ≠ .endOfInput ∧ t.span.start < t.span.stop := by
  induction h with
  | @ending before gap =>
      refine ⟨[], _, rfl, rfl, rfl, ?_, by simp⟩
      simp only [spanBehind, List.append_nil]
  | @token before gap taken rest items kind literal _ _ htaken hkind _ ih =>
      obtain ⟨tokens, last, htokens, hlast, hstart, hstop, hall⟩ := ih
      have hspan : (spanBehind (before ++ gap) taken).start <
          (spanBehind (before ++ gap) taken).stop := by
        -- Every character has a byte at least.
        have hpos : utf8Len taken ≠ 0 := fun h => htaken (String.utf8Len_eq_zero.mp h)
        simp only [spanBehind, String.utf8Len_append]
        omega
      refine ⟨_ :: tokens, last, congrArg (_ :: ·) htokens, hlast, ?_, ?_,
        List.forall_mem_cons.mpr ⟨⟨hkind, hspan⟩, hall⟩⟩
      · rw [hstart, List.append_assoc, List.append_assoc]
      · rw [hstop, List.append_assoc, List.append_assoc]
  | @error before gap taken rest items fault _ _ _ _ ih =>
      obtain ⟨tokens, last, htokens, hlast, hstart, hstop, hall⟩ := ih
      refine ⟨tokens, last, htokens, hlast, ?_, ?_, hall⟩
      · rw [hstart, List.append_assoc, List.append_assoc]
      · rw [hstop, List.append_assoc, List.append_assoc]

theorem standsIn (h : Covers before rest items) (htext : text.toList = before ++ rest) :
    ∀ t ∈ items.filterMap tokenOfItem?, t.StandsIn text := by
  induction h with
  | @ending before gap =>
      have hsplit : text.toList = before ++ gap ++ [] ++ [] := by
        rw [htext, List.append_nil, List.append_nil]
      exact List.forall_mem_singleton.mpr (Token.standsIn_spanBehind hsplit _ _)
  | @token before gap taken rest items kind literal _ _ _ _ _ ih =>
      have hsplit : text.toList = before ++ gap ++ taken ++ rest := by
        simp only [htext, List.append_assoc]
      exact List.forall_mem_cons.mpr ⟨Token.standsIn_spanBehind hsplit _ _, ih hsplit⟩
  | @error before gap taken rest items fault _ _ _ _ ih =>
      exact ih (by simp only [htext, List.append_assoc])

/-- No token starts in front of the end of another one that comes earlier. -/
theorem pairwise (h : Covers before rest items) :
    (∀ t ∈ items.filterMap tokenOfItem?, utf8Len before ≤ t.span.start) ∧
      (items.filterMap tokenOfItem?).Pairwise fun s t => s.span.stop ≤ t.span.start := by
  induction h with
  | @ending before gap =>
      refine ⟨List.forall_mem_singleton.mpr ?_, List.pairwise_singleton _ _⟩
      simp only [spanBehind, String.utf8Len_append]
      omega
  | @token before gap taken rest items kind literal _ _ _ _ _ ih =>
      -- This token stops where the tokens behind it may start.
      obtain ⟨hbehind, hpairwise⟩ := ih
      refine ⟨List.forall_mem_cons.mpr ⟨?_, fun t ht => ?_⟩,
        List.pairwise_cons.mpr ⟨hbehind, hpairwise⟩⟩
      · simp only [spanBehind, String.utf8Len_append]
        omega
      · have hstart := hbehind t ht
        simp only [String.utf8Len_append] at hstart
        omega
  | @error before gap taken rest items fault _ _ _ _ ih =>
      refine ⟨fun t ht => ?_, ih.2⟩
      have hstart := ih.1 t ht
      simp only [String.utf8Len_append] at hstart
      omega

/-- Without errors, all characters outside the spans are blanks and comments. -/
theorem spaced (h : Covers before rest items) (htext : text.toList = before ++ rest)
    (herrors : items.filterMap errorOfItem? = []) :
    Spaced text (utf8Len before) (items.filterMap tokenOfItem?) := by
  induction h with
  | @ending before gap hgap =>
      have hsplit : text.toList = before ++ (gap ++ []) := by rw [htext, List.append_nil]
      exact ⟨trivia_slice hsplit hgap, trivial⟩
  | @token before gap taken rest items kind literal hgap _ _ _ _ ih =>
      have hsplit : text.toList = before ++ gap ++ taken ++ rest := by
        simp only [htext, List.append_assoc]
      exact ⟨trivia_slice htext hgap, ih hsplit herrors⟩
  | error => cases herrors

end Covers

/-- Scanning ends at the end of the text, with the lexer on its last line.  The items cover
    the text.  Exactly the last token is for the end of the text, and it stands there; all
    others are not empty.  Tokens stand where their spans say, and their spans are in order
    and apart.  Without errors there are only blanks and comments between them. -/
theorem scan_places (text : String) :
    (∃ l, (Lexer.ofString text).Yields (lexItems text) l ∧ l.line = lineBehind text.toList) ∧
      Covers [] text.toList (lexItems text) ∧
      (∃ tokens last, (scan text).1 = tokens ++ [last] ∧
        last.kind = .endOfInput ∧ last.span.start = text.utf8ByteSize ∧
        last.span.stop = text.utf8ByteSize ∧
        ∀ t ∈ tokens, t.kind ≠ .endOfInput ∧ t.span.start < t.span.stop) ∧
      (∀ t ∈ (scan text).1, t.StandsIn text) ∧
      (scan text).1.Pairwise (fun s t => s.span.stop ≤ t.span.start) ∧
      ((scan text).2 = [] → Spaced text 0 (scan text).1) := by
  obtain ⟨segs, hsegs⟩ := exists_segmented text.toList
  have hcovers : Covers [] text.toList (lexItems text) := by
    rw [hsegs.lexItems_eq]
    exact hsegs.covers []
  have hyields := hsegs.yields .origin
  rw [← hsegs.lexItems_eq] at hyields
  refine ⟨⟨_, hyields, Position.line_after _ _⟩, hcovers, ?_, hcovers.standsIn rfl,
    hcovers.pairwise.2, hcovers.spaced rfl⟩
  rw [← utf8Len_toList]
  exact hcovers.exists_tokens

end BlockLang
