/-
  BlockLang.Proofs.LineBreaks

  Scanning goes line by line.

  A line break ends every lexeme but a string, and every comment.  So behind a text whose
  strings are all closed, and a newline, scanning starts afresh: nothing but the place is
  carried over.  The items of two texts with a newline between them are those of the first
  text and then those of the second one, moved down by the lines and bytes in front of it.
-/
import BlockLang.Proofs.Token.Segment

namespace BlockLang

/-! ## Moving items down a text -/

/-- A place moved down by some bytes and lines.  Columns stay. -/
def Position.shift (bytes lines : Nat) (p : Position) : Position :=
  ⟨p.offset + bytes, p.line + lines, p.column⟩

/-- A token moved down by some bytes and lines. -/
def Token.shift (bytes lines : Nat) (t : Token) : Token :=
  { t with span := ⟨t.span.start + bytes, t.span.stop + bytes, t.span.line + lines, t.span.column⟩ }

/-- An error moved down by some lines. -/
def LexError.shift (lines : Nat) (e : LexError) : LexError := { e with line := e.line + lines }

/-- An item moved down by some bytes and lines. -/
def shiftItem (bytes lines : Nat) : Except LexError Token → Except LexError Token
  | .ok t => .ok (t.shift bytes lines)
  | .error e => .error (e.shift lines)

section Shift

variable (bytes lines : Nat)

theorem Position.next_shift (p : Position) (c : Char) :
    (p.shift bytes lines).next c = (p.next c).shift bytes lines := by
  unfold next shift
  by_cases hc : c = '\n'
  · simp only [if_pos hc, mk.injEq, and_true]
    omega
  · simp only [if_neg hc, mk.injEq, and_true]
    omega

theorem Position.after_shift (p : Position) (cs : List Char) :
    (p.shift bytes lines).after cs = (p.after cs).shift bytes lines := by
  induction cs generalizing p with
  | nil => rfl
  | cons c cs ih => rw [after_cons, next_shift, ih, after_cons]

theorem Segment.item_shift (p : Position) (s : Segment) :
    s.item (p.shift bytes lines) = shiftItem bytes lines (s.item p) := by
  unfold Segment.item Lexer.item
  rw [Position.after_shift, Position.after_shift]
  cases s.reading <;> rfl

theorem Segment.items_shift (p : Position) (segs : List Segment) :
    items (p.shift bytes lines) segs = (items p segs).map (shiftItem bytes lines) := by
  induction segs generalizing p with
  | nil => rfl
  | cons s segs ih => rw [items, item_shift, Position.after_shift, ih, items, List.map_cons]

end Shift

/-! ## A newline between two texts -/

/-- In front of a newline a text goes on as at its end. -/
theorem goesOnAs_newline (cs b : List Char) : GoesOnAs cs (cs ++ '\n' :: b) := by
  have hnewline : GoesOnAs [] ('\n' :: b) := by simp [GoesOnAs, isBlank]
  simpa using hnewline.append cs

namespace Segmented

/-- Behind a newline the segments of another text follow, unless the first text ends inside
    a string. -/
theorem append_newline {a b : List Char} {segs segs' : List Segment} (ha : Segmented a segs)
    (hends : ∀ s ∈ segs, s.reading ≠ .fault .unterminatedString) (hb : Segmented b segs') :
    ∃ segs'', Segmented (a ++ '\n' :: b) segs'' ∧
      ∀ p, Segment.items p segs'' =
        Segment.items p segs ++ Segment.items ((p.after a).next '\n') segs' := by
  induction ha with
  | @last gap hgap =>
      -- A comment at the end of the first text ends at the newline.
      have hline : Trivia (['\n'] ++ b) gap := hgap.mono fun _ => by simp [EndsLine]
      have hnewline : Trivia b ['\n'] := .blank (by decide) .nil
      obtain ⟨segs'', hsegs'', hitems⟩ := hb.prepend (hline.append hnewline)
      refine ⟨segs'', by simpa using hsegs'', fun p => ?_⟩
      rw [hitems, Position.after_append]
      rfl
  | @more gap m segs hgap hstart hm _ ih =>
      obtain ⟨hend, hends⟩ := List.forall_mem_cons.mp hends
      obtain ⟨segs'', hsegs'', hitems⟩ := ih hends
      refine ⟨⟨gap, m.reading, m.taken⟩ :: segs'', ?_, fun p => ?_⟩
      · have hmore := more_goesOn hgap hstart hm hend (goesOnAs_newline m.rest b) hsegs''
        simpa using hmore
      · rw [Segment.items, hitems, Segment.items, ← Position.after_append]
        simp

end Segmented

/-! ## Scanning -/

theorem tokenOfItem?_shiftItem (bytes lines : Nat) (item : Except LexError Token) :
    tokenOfItem? (shiftItem bytes lines item) =
      (tokenOfItem? item).map (Token.shift bytes lines) := by
  cases item <;> rfl

theorem errorOfItem?_shiftItem (bytes lines : Nat) (item : Except LexError Token) :
    errorOfItem? (shiftItem bytes lines item) = (errorOfItem? item).map (LexError.shift lines) := by
  cases item <;> rfl

/-- The place behind a text and a newline. -/
theorem Position.after_newline (text : String) :
    (origin.after text.toList).next '\n' =
      origin.shift (text.utf8ByteSize + 1) (text.toList.count '\n' + 1) := by
  unfold next shift
  rw [if_pos rfl, offset_after, line_after, String.ofList_toList]
  simp only [origin, mk.injEq, and_true]
  have hsize : '\n'.utf8Size = 1 := by decide
  omega

theorem Segmented.filter_tokens {text : String} {segs : List Segment}
    (h : Segmented text.toList segs) :
    (scan text).1.filter (·.kind != .endOfInput) =
      (Segment.items .origin segs).filterMap tokenOfItem? := by
  have htokens : ∀ t ∈ (Segment.items .origin segs).filterMap tokenOfItem?,
      (t.kind != .endOfInput) = true := by
    intro t ht
    obtain ⟨item, hitem, ht⟩ := List.mem_filterMap.mp ht
    obtain ⟨s, hs, p, rfl⟩ := Segment.mem_items hitem
    obtain ⟨rest, hformed⟩ := h.formed_of_mem hs
    cases hok : s.item p with
    | error e =>
        rw [hok] at ht
        cases ht
    | ok t' =>
        rw [hok] at ht
        obtain rfl := Option.some.inj ht
        rw [bne_iff_ne]
        exact Lexer.kind_ne_endOfInput_of_item (fun _ _ => hformed.kind_ne_endOfInput) hok
  rw [h.scan_eq, List.filter_append, List.filter_eq_self.mpr htokens]
  exact List.append_nil _

theorem Segmented.terminated {text : String} {segs : List Segment}
    (h : Segmented text.toList segs) (hends : ∀ e ∈ (scan text).2, e.fault ≠ .unterminatedString)
    {s : Segment} (hs : s ∈ segs) : s.reading ≠ .fault .unterminatedString := by
  intro hreading
  obtain ⟨p, hp⟩ := Segment.exists_item_mem hs .origin
  rw [h.scan_eq] at hends
  have hitem : s.item p = .error ⟨.unterminatedString, (p.after s.gap).line,
      (p.after s.gap).column⟩ := by
    rw [Segment.item, hreading]
    rfl
  exact hends _ (List.mem_filterMap.mpr ⟨_, hp, by rw [hitem]; rfl⟩) rfl

/-- If no string of the first text lacks its end, scanning two texts with a newline between
    them yields the tokens of the first one in front of its end, and then the tokens of the
    second one, moved down by the bytes and lines in front of it with their columns kept; and
    so for the errors. -/
theorem scan_append_newline {a : String} (ha : ∀ e ∈ (scan a).2, e.fault ≠ .unterminatedString)
    (b : String) :
    scan (a ++ "\n" ++ b) =
      ((scan a).1.filter (·.kind != .endOfInput) ++
          (scan b).1.map (Token.shift (a.utf8ByteSize + 1) (a.toList.count '\n' + 1)),
        (scan a).2 ++ (scan b).2.map (LexError.shift (a.toList.count '\n' + 1))) := by
  obtain ⟨segs, hsegs⟩ := exists_segmented a.toList
  obtain ⟨segs', hsegs'⟩ := exists_segmented b.toList
  obtain ⟨segs'', hsegs'', hitems⟩ :=
    hsegs.append_newline (fun s hs => hsegs.terminated ha hs) hsegs'
  have htext : (a ++ "\n" ++ b).toList = a.toList ++ '\n' :: b.toList := by simp
  rw [← htext] at hsegs''
  -- The second row of segments starts on a new line, so its places move down as a whole.
  have hplace := Position.after_newline a
  have hend : Position.origin.after (a ++ "\n" ++ b).toList =
      (Position.origin.after b.toList).shift (a.utf8ByteSize + 1) (a.toList.count '\n' + 1) := by
    rw [htext, Position.after_append, Position.after_cons, hplace, Position.after_shift]
  rw [hsegs''.scan_eq, hitems, hplace, Segment.items_shift, hend, hsegs.filter_tokens,
    hsegs.scan_eq, hsegs'.scan_eq]
  simp only [List.filterMap_append, List.filterMap_map, List.map_append, List.map_filterMap,
    Function.comp_def, tokenOfItem?_shiftItem, errorOfItem?_shiftItem, List.append_assoc]
  rfl

/-- A string with a line break and a character of two bytes, a number with a point behind it,
    and half of a mark at the end. -/
def raggedText : String := "\"é\n\" 1. :"

/-- The tokens of `raggedText`. -/
def raggedTokens : List Token :=
  [ ⟨.string, "\"é\n\"", some (.string "é\n"), ⟨0, 5, 1, 1⟩⟩,
    ⟨.number, "1", some (.integer 1), ⟨6, 7, 2, 3⟩⟩, ⟨.dot, ".", none, ⟨7, 8, 2, 4⟩⟩,
    ⟨.endOfInput, "", none, ⟨10, 10, 2, 7⟩⟩ ]

theorem scan_raggedText : scan raggedText = (raggedTokens, [⟨.expectedTypeSeparator, 2, 6⟩]) := by
  decide +kernel

theorem ragged_text_scans_by_lines :
    (∀ e ∈ (scan raggedText).2, e.fault ≠ .unterminatedString) ∧
      scan (raggedText ++ "\n" ++ "5 @") =
        ( raggedTokens.take 3 ++
            [ ⟨.number, "5", some (.integer 5), ⟨11, 12, 3, 1⟩⟩,
              ⟨.endOfInput, "", none, ⟨14, 14, 3, 4⟩⟩ ],
          [⟨.expectedTypeSeparator, 2, 6⟩, ⟨.unexpectedCharacter '@', 3, 3⟩] ) := by
  have hends : ∀ e ∈ (scan raggedText).2, e.fault ≠ .unterminatedString := by
    rw [scan_raggedText]
    decide
  have hsecond : scan "5 @" =
      ( [ ⟨.number, "5", some (.integer 5), ⟨0, 1, 1, 1⟩⟩,
          ⟨.endOfInput, "", none, ⟨3, 3, 1, 4⟩⟩ ], [⟨.unexpectedCharacter '@', 1, 3⟩] ) := by
    decide +kernel
  refine ⟨hends, ?_⟩
  rw [scan_append_newline hends, hsecond, scan_raggedText]
  rfl

end BlockLang
