/-
  BlockLang.Proofs.Token.Form

  The forms of lexemes.

  The lexeme at the front of a text has one of seven forms, and the form says what it is,
  what it takes, and what must not follow it (`Lexeme.Formed`).  There is exactly one lexeme
  of such a form at the front of every text, the one that scanning takes
  (`Lexeme.ofText_eq_iff`).  What follows a lexeme matters only up to the next blank
  (`Lexeme.Formed.goesOn`).
-/
import BlockLang.Token.Lexer
import Mathlib.Data.List.TakeWhile

namespace BlockLang

/-! ## Runs of characters -/

/-- Whether a rest does not go on with a run of characters. -/
def Halts (p : Char → Bool) (rest : List Char) : Prop := ∀ c ∈ rest.head?, p c = false

theorem halts_dropWhile (p : Char → Bool) (cs : List Char) : Halts p (cs.dropWhile p) := by
  intro c hc
  have hnot := List.head?_dropWhile_not p cs
  rwa [hc] at hnot

/-- A run of characters is taken whole in front of a rest that does not go on with it. -/
theorem Halts.takeWhile_append {p : Char → Bool} {rest : List Char} (h : Halts p rest)
    {cs : List Char} (hcs : ∀ c ∈ cs, p c) :
    (cs ++ rest).takeWhile p = cs ∧ (cs ++ rest).dropWhile p = rest := by
  have hrest : rest.takeWhile p = [] ∧ rest.dropWhile p = rest := by
    cases rest with
    | nil => exact ⟨rfl, rfl⟩
    | cons c rest => simp [h c rfl]
  rw [List.takeWhile_append_of_pos hcs, List.dropWhile_append_of_pos hcs, hrest.1, hrest.2,
    List.append_nil]
  exact ⟨rfl, rfl⟩

/-- Characters other than the one that ends them are a run. -/
theorem forall_bne {d : Char} {cs : List Char} (h : d ∉ cs) : ∀ c ∈ cs, (c != d) = true := by
  intro c hc
  rw [bne_iff_ne]
  rintro rfl
  exact h hc

theorem halts_bne (d : Char) (rest : List Char) : Halts (· != d) (d :: rest) := by
  simp [Halts]

/-! ## Forms -/

/-- Words are identifiers, or reserved if they are in the table of reserved words. -/
theorem TokenKind.ofWord_cases (w : String) :
    (ofWord w = .identifier ∧ ∀ kind, (w, kind) ∉ keywords) ∨ (w, ofWord w) ∈ keywords := by
  unfold ofWord
  cases h : keywords.lookup w with
  | none =>
      refine .inl ⟨rfl, fun kind hmem => ?_⟩
      have hno := List.lookup_eq_none_iff.mp h _ hmem
      simp at hno
  | some kind =>
      obtain ⟨before, after, hmem, -⟩ := List.lookup_eq_some_iff.mp h
      exact .inr (hmem ▸ by simp)

namespace Lexeme

/-- A whole number is a token with its value, or invalid if it is too large. -/
theorem readWhole_cases (digits : List Char) :
    (∃ n : Int64, readWhole digits = .token .number (some (.integer n)) ∧
      n.toInt = Decimal.digitsValue digits) ∨
    readWhole digits = .fault (.invalidNumber (String.ofList digits)) ∧
      integerBound ≤ Decimal.digitsValue digits := by
  by_cases hlt : Decimal.digitsValue digits < integerBound
  · refine .inl ⟨_, if_pos hlt, ?_⟩
    exact Int64.toInt_ofNat_of_lt (by simpa [integerBound] using hlt)
  · exact .inr ⟨if_neg hlt, Nat.le_of_not_lt hlt⟩

/-- A number with a fraction is a token with the nearest value, or invalid if this is not
    finite. -/
theorem readFraction_cases (whole fraction : List Char) :
    (readFraction whole fraction =
        .token .number (some (.float (Decimal.nearestFloat whole fraction))) ∧
      (Decimal.nearestFloat whole fraction).isFinite) ∨
    readFraction whole fraction =
        .fault (.invalidNumber (String.ofList (whole ++ '.' :: fraction))) ∧
      ¬(Decimal.nearestFloat whole fraction).isFinite := by
  by_cases hfinite : (Decimal.nearestFloat whole fraction).isFinite
  · exact .inl ⟨if_pos hfinite, hfinite⟩
  · exact .inr ⟨if_neg hfinite, hfinite⟩

/-- The forms of lexemes at the front of a text. -/
inductive Formed : Lexeme → Prop where
  | quoted {content rest : List Char} : '"' ∉ content →
      Formed ⟨.token .string (some (.string (String.ofList content))), '"' :: content ++ ['"'],
        rest⟩
  | unterminated {content : List Char} : '"' ∉ content →
      Formed ⟨.fault .unterminatedString, '"' :: content, []⟩
  | word {c : Char} {cs rest : List Char} {kind : TokenKind} : isWordStart c →
      (∀ d ∈ cs, isWordPart d) → Halts isWordPart rest →
      TokenKind.ofWord (String.ofList (c :: cs)) = kind →
      Formed ⟨.token kind kind.constant?, c :: cs, rest⟩
  | whole {digits rest : List Char} : digits ≠ [] → (∀ d ∈ digits, d.isDigit) →
      Halts Char.isDigit rest → (∀ d ds, rest = '.' :: d :: ds → d.isDigit = false) →
      Formed ⟨readWhole digits, digits, rest⟩
  | fraction {whole fraction rest : List Char} : whole ≠ [] → (∀ d ∈ whole, d.isDigit) →
      fraction ≠ [] → (∀ d ∈ fraction, d.isDigit) → Halts Char.isDigit rest →
      Formed ⟨readFraction whole fraction, whole ++ '.' :: fraction, rest⟩
  | mark {cs rest : List Char} {kind : TokenKind} : (cs, kind) ∈ spellings →
      (∀ s ∈ spellings, s.1 <+: cs ++ rest → s.1.length ≤ cs.length) →
      Formed ⟨.token kind none, cs, rest⟩
  | stray {c : Char} {rest : List Char} : c ≠ '"' → isWordStart c = false →
      c.isDigit = false → (∀ s ∈ spellings, ¬s.1 <+: c :: rest) →
      Formed ⟨.fault (if c = ':' then .expectedTypeSeparator else .unexpectedCharacter c), [c],
        rest⟩

theorem Formed.taken_ne_nil {m : Lexeme} (h : m.Formed) : m.taken ≠ [] := by
  cases h with
  | whole hne => exact hne
  | fraction => simp
  | mark hmem =>
      have hnonempty : ∀ s ∈ spellings, s.1 ≠ [] := by decide
      exact hnonempty _ hmem
  | _ => exact List.cons_ne_nil _ _

/-- Only the end of a text makes a token of the kind for it. -/
theorem Formed.kind_ne_endOfInput {m : Lexeme} (h : m.Formed) {kind : TokenKind}
    {literal : Option Value} (hreading : m.reading = .token kind literal) :
    kind ≠ .endOfInput := by
  cases h with
  | quoted =>
      obtain ⟨rfl, -⟩ := Reading.token.inj hreading
      decide
  | unterminated => cases hreading
  | word _ _ _ hkind =>
      obtain ⟨rfl, -⟩ := Reading.token.inj hreading
      have hkinds : ∀ entry ∈ keywords, entry.2 ≠ .endOfInput := by decide
      rcases hkind ▸ TokenKind.ofWord_cases _ with ⟨hidentifier, -⟩ | hmem
      · rw [hidentifier]
        decide
      · exact hkinds _ hmem
  | @whole digits =>
      rcases readWhole_cases digits with ⟨n, hn, -⟩ | ⟨hfault, -⟩
      · cases hn.symm.trans hreading
        decide
      · cases hfault.symm.trans hreading
  | @fraction whole fraction =>
      rcases readFraction_cases whole fraction with ⟨hx, -⟩ | ⟨hfault, -⟩
      · cases hx.symm.trans hreading
        decide
      · cases hfault.symm.trans hreading
  | mark hmem =>
      obtain ⟨rfl, -⟩ := Reading.token.inj hreading
      have hkinds : ∀ entry ∈ spellings, entry.2 ≠ .endOfInput := by decide
      exact hkinds _ hmem
  | stray => cases hreading

/-! ### The lexeme that is taken has a form -/

theorem formed_quoted (cs : List Char) :
    (quoted cs).Formed ∧ (quoted cs).taken ++ (quoted cs).rest = '"' :: cs := by
  have hcontent : '"' ∉ cs.takeWhile (· != '"') := fun h => by
    simpa using List.mem_takeWhile_imp h
  have hhalts := halts_dropWhile (· != '"') cs
  have hsplit := List.takeWhile_append_dropWhile (p := (· != '"')) (l := cs)
  unfold quoted
  cases hrest : cs.dropWhile (· != '"') with
  | nil =>
      rw [hrest] at hsplit
      exact ⟨.unterminated hcontent, congrArg _ hsplit⟩
  | cons d rest =>
      rw [hrest] at hhalts hsplit
      obtain rfl : d = '"' := by simpa using hhalts d rfl
      refine ⟨.quoted hcontent, ?_⟩
      simpa using hsplit

theorem formed_word {c : Char} (hc : isWordStart c) (cs : List Char) :
    (word c cs).Formed ∧ (word c cs).taken ++ (word c cs).rest = c :: cs :=
  ⟨.word hc (fun _ => List.mem_takeWhile_imp) (halts_dropWhile _ _) rfl,
    congrArg (c :: ·) List.takeWhile_append_dropWhile⟩

theorem formed_number {c : Char} (hc : c.isDigit) (cs : List Char) :
    (number c cs).Formed ∧ (number c cs).taken ++ (number c cs).rest = c :: cs := by
  have hwhole : ∀ d ∈ c :: cs.takeWhile Char.isDigit, d.isDigit :=
    List.forall_mem_cons.mpr ⟨hc, fun _ => List.mem_takeWhile_imp⟩
  have hhalts := halts_dropWhile Char.isDigit cs
  have hsplit := List.takeWhile_append_dropWhile (p := Char.isDigit) (l := cs)
  unfold number
  dsimp only
  generalize cs.dropWhile Char.isDigit = rest at hhalts hsplit
  split
  · rename_i d rest
    split
    · rename_i hd
      refine ⟨.fraction (List.cons_ne_nil _ _) hwhole (List.cons_ne_nil _ _)
        (List.forall_mem_cons.mpr ⟨hd, fun _ => List.mem_takeWhile_imp⟩) (halts_dropWhile _ _), ?_⟩
      simpa using hsplit
    · rename_i hd
      refine ⟨.whole (List.cons_ne_nil _ _) hwhole hhalts ?_, congrArg (c :: ·) hsplit⟩
      intro d' ds h
      cases h
      simpa using hd
  · rename_i hno
    exact ⟨.whole (List.cons_ne_nil _ _) hwhole hhalts fun d ds h => absurd h (hno d ds),
      congrArg (c :: ·) hsplit⟩

/-- The first of the spellings that start a text is the longest, for they stand in the order
    of their lengths. -/
theorem length_le_of_find? {text : List Char} {s : List Char × TokenKind}
    (h : spellings.find? (fun s => s.1.isPrefixOf text) = some s) {t : List Char × TokenKind}
    (ht : t ∈ spellings) (hfront : t.1 <+: text) : t.1.length ≤ s.1.length := by
  obtain ⟨-, before, after, hall, hbefore⟩ := List.find?_eq_some_iff_append.mp h
  have hsorted : spellings.Pairwise fun s t => t.1.length ≤ s.1.length := by decide
  rw [hall] at ht hsorted
  rcases List.mem_append.mp ht with hmem | hmem
  · have hno := hbefore t hmem
    rw [List.isPrefixOf_iff_prefix.mpr hfront] at hno
    cases hno
  · rcases List.mem_cons.mp hmem with rfl | hmem
    · exact Nat.le_refl _
    · exact List.rel_of_pairwise_cons (List.pairwise_append.mp hsorted).2.1 hmem

theorem formed_fixed {text : List Char} {m : Lexeme} (h : fixed? text = some m) :
    m.Formed ∧ m.taken ++ m.rest = text := by
  obtain ⟨s, hs, rfl⟩ := Option.map_eq_some_iff.mp h
  have hfront : s.1 <+: text := by simpa using List.find?_some hs
  have hsplit : s.1 ++ text.drop s.1.length = text := List.prefix_iff_eq_append.mp hfront
  refine ⟨.mark (List.mem_of_find?_eq_some hs) ?_, hsplit⟩
  rw [hsplit]
  exact fun t => length_le_of_find? hs

theorem formed_ofText (c : Char) (cs : List Char) :
    (ofText c cs).Formed ∧ (ofText c cs).taken ++ (ofText c cs).rest = c :: cs := by
  unfold ofText
  split
  · rename_i hquote
    exact hquote ▸ formed_quoted cs
  · rename_i hquote
    split
    · rename_i hword
      exact formed_word hword cs
    · rename_i hword
      split
      · rename_i hdigit
        exact formed_number hdigit cs
      · rename_i hdigit
        split
        · rename_i m hm
          exact formed_fixed hm
        · rename_i hnone
          refine ⟨.stray hquote (by simpa using hword) (by simpa using hdigit) ?_, rfl⟩
          intro s hs hfront
          have hfind := List.find?_eq_none.mp (Option.map_eq_none_iff.mp hnone) s hs
          exact hfind (List.isPrefixOf_iff_prefix.mpr hfront)

end Lexeme

/-! ## First characters -/

/-- Whether a lexeme starts with these characters: neither a blank nor a comment does. -/
structure StartsLexeme (c : Char) (cs : List Char) : Prop where
  notBlank : isBlank c = false
  notHash : c ≠ '#'
  notSlashes : ¬(c = '/' ∧ cs.head? = some '/')

/-- Nothing is passed in front of a lexeme. -/
theorem StartsLexeme.atLexeme {c : Char} {cs : List Char} (h : StartsLexeme c cs) (p : Position) :
    (⟨p, c :: cs⟩ : Lexer).atLexeme = ⟨p, c :: cs⟩ := by
  rw [Lexer.atLexeme, Lexer.skipTrivia, if_neg Bool.false_ne_true,
    if_neg (by simp [h.notBlank]), if_neg]
  simpa [h.notHash] using h.notSlashes

/-- A character of a class is none outside the class. -/
theorem ne_of_class {p : Char → Bool} {c d : Char} (h : p c = true) (hd : p d = false) :
    c ≠ d := by
  rintro rfl
  rw [h] at hd
  cases hd

/-- A character of a class without blanks is no blank. -/
theorem isBlank_eq_false_of_class {p : Char → Bool} {c : Char} (h : p c = true)
    (hblanks : p ' ' = false ∧ p '\t' = false ∧ p '\r' = false ∧ p '\n' = false) :
    isBlank c = false := by
  obtain ⟨h₁, h₂, h₃, h₄⟩ := hblanks
  simp [isBlank, ne_of_class h h₁, ne_of_class h h₂, ne_of_class h h₃, ne_of_class h h₄]

/-- A character that starts a word starts no other lexeme. -/
theorem startsLexeme_of_isWordStart {c : Char} (h : isWordStart c = true) (cs : List Char) :
    StartsLexeme c cs ∧ c ≠ '"' :=
  ⟨⟨isBlank_eq_false_of_class h (by decide), ne_of_class h (by decide),
    fun hslash => ne_of_class h (by decide) hslash.1⟩, ne_of_class h (by decide)⟩

/-- The letters by their codes. -/
theorem isAlpha_iff (c : Char) :
    c.isAlpha ↔ (65 ≤ c.toNat ∧ c.toNat ≤ 90) ∨ (97 ≤ c.toNat ∧ c.toNat ≤ 122) := by
  show (decide (c.val ≥ 'A'.val ∧ c.val ≤ 'Z'.val) ||
    (decide (c.val ≥ 'a'.val) && decide (c.val ≤ 'z'.val))) = true ↔ _
  simp [UInt32.le_iff_toNat_le]

/-- A digit starts no lexeme but a number. -/
theorem startsLexeme_of_isDigit {c : Char} (h : c.isDigit = true) (cs : List Char) :
    StartsLexeme c cs ∧ c ≠ '"' ∧ isWordStart c = false := by
  refine ⟨⟨isBlank_eq_false_of_class h (by decide), ne_of_class h (by decide),
    fun hslash => ne_of_class h (by decide) hslash.1⟩, ne_of_class h (by decide), ?_⟩
  have hrange : 48 ≤ c.toNat ∧ c.toNat ≤ 57 := by
    simpa [Char.isDigit, UInt32.le_iff_toNat_le] using h
  have halpha : ¬c.isAlpha := by
    rw [isAlpha_iff]
    omega
  have hscore : c ≠ '_' := ne_of_class h (by decide)
  simp [isWordStart, halpha, hscore]

/-- A number is read by its digits. -/
theorem ofText_digits {c : Char} (hc : c.isDigit = true) (cs : List Char) :
    Lexeme.ofText c cs = Lexeme.number c cs := by
  obtain ⟨-, hquote, hword⟩ := startsLexeme_of_isDigit hc cs
  rw [Lexeme.ofText, if_neg hquote, if_neg (by simp [hword]), if_pos hc]

/-- A character that starts a mark starts no other lexeme. -/
theorem ofText_mark {c : Char} {cs : List Char} (h : ∃ s ∈ Lexeme.spellings, s.1.head? = some c)
    {m : Lexeme} (hm : Lexeme.fixed? (c :: cs) = some m) :
    Lexeme.ofText c cs = m ∧ isBlank c = false ∧ c ≠ '#' := by
  have hstarts : ∀ s ∈ Lexeme.spellings, s.1.head?.all fun c =>
      c ≠ '"' ∧ isWordStart c = false ∧ c.isDigit = false ∧ isBlank c = false ∧ c ≠ '#' := by
    decide
  obtain ⟨s, hs, hc⟩ := h
  have hstart := hstarts s hs
  rw [hc, Option.all_some, decide_eq_true_iff] at hstart
  obtain ⟨hquote, hword, hdigit, hblank, hhash⟩ := hstart
  refine ⟨?_, hblank, hhash⟩
  rw [Lexeme.ofText, if_neg hquote, if_neg (by simp [hword]), if_neg (by simp [hdigit]), hm]

/-! ## A lexeme of some form is the one that is taken -/

namespace Lexeme

theorem ofText_quoted {content : List Char} (h : '"' ∉ content) (rest : List Char) :
    ofText '"' (content ++ '"' :: rest) =
      ⟨.token .string (some (.string (String.ofList content))), '"' :: content ++ ['"'], rest⟩ := by
  obtain ⟨htake, hdrop⟩ := (halts_bne '"' rest).takeWhile_append (forall_bne h)
  rw [ofText, if_pos rfl, quoted, htake, hdrop]

theorem ofText_unterminated {content : List Char} (h : '"' ∉ content) :
    ofText '"' content = ⟨.fault .unterminatedString, '"' :: content, []⟩ := by
  rw [ofText, if_pos rfl, quoted, List.takeWhile_eq_self_iff.mpr (forall_bne h),
    List.dropWhile_eq_nil_iff.mpr (forall_bne h)]

theorem ofText_word {c : Char} {cs rest : List Char} (hc : isWordStart c)
    (hcs : ∀ d ∈ cs, isWordPart d) (hrest : Halts isWordPart rest) :
    ofText c (cs ++ rest) = word c (cs ++ rest) ∧
      (cs ++ rest).takeWhile isWordPart = cs ∧ (cs ++ rest).dropWhile isWordPart = rest := by
  refine ⟨?_, hrest.takeWhile_append hcs⟩
  rw [ofText, if_neg (startsLexeme_of_isWordStart hc []).2, if_pos hc]

theorem number_whole {c : Char} {cs rest : List Char} (hcs : ∀ d ∈ cs, d.isDigit)
    (hrest : Halts Char.isDigit rest) (hpoint : ∀ d ds, rest = '.' :: d :: ds → d.isDigit = false) :
    number c (cs ++ rest) = ⟨readWhole (c :: cs), c :: cs, rest⟩ := by
  obtain ⟨htake, hdrop⟩ := hrest.takeWhile_append hcs
  rw [number, htake, hdrop]
  dsimp only
  split
  · rename_i d ds
    rw [if_neg (by simp [hpoint d ds rfl])]
  · rfl

theorem number_fraction {c : Char} {cs : List Char} (hcs : ∀ d ∈ cs, d.isDigit) {d : Char}
    {ds rest : List Char} (hd : d.isDigit) (hds : ∀ d ∈ ds, d.isDigit)
    (hrest : Halts Char.isDigit rest) :
    number c (cs ++ '.' :: d :: (ds ++ rest)) =
      ⟨readFraction (c :: cs) (d :: ds), c :: cs ++ '.' :: d :: ds, rest⟩ := by
  have hpoint : Halts Char.isDigit ('.' :: d :: (ds ++ rest)) := by simp [Halts]
  obtain ⟨htake, hdrop⟩ := hpoint.takeWhile_append hcs
  obtain ⟨htake', hdrop'⟩ := hrest.takeWhile_append hds
  rw [number, htake, hdrop]
  show (if d.isDigit = true then (⟨_, _, _⟩ : Lexeme) else _) = _
  rw [if_pos hd, htake', hdrop']

/-- Of two spellings that start a text and are longest there, one is the other. -/
theorem fixed?_mark {cs rest : List Char} {kind : TokenKind} (hmem : (cs, kind) ∈ spellings)
    (hlongest : ∀ s ∈ spellings, s.1 <+: cs ++ rest → s.1.length ≤ cs.length) :
    fixed? (cs ++ rest) = some ⟨.token kind none, cs, rest⟩ := by
  have hfront : cs <+: cs ++ rest := List.prefix_append cs rest
  cases hfind : spellings.find? fun s => s.1.isPrefixOf (cs ++ rest) with
  | none =>
      have hno := List.find?_eq_none.mp hfind _ hmem
      exact absurd (List.isPrefixOf_iff_prefix.mpr hfront) hno
  | some s =>
      have hsmem := List.mem_of_find?_eq_some hfind
      have hsfront : s.1 <+: cs ++ rest := by simpa using List.find?_some hfind
      have hlength : s.1.length = cs.length :=
        Nat.le_antisymm (hlongest s hsmem hsfront) (length_le_of_find? hfind hmem hfront)
      have hsame : s.1 = cs :=
        (List.prefix_of_prefix_length_le hsfront hfront hlength.le).eq_of_length hlength
      have hkinds : ∀ s ∈ spellings, ∀ t ∈ spellings, s.1 = t.1 → s.2 = t.2 := by decide
      have hkind : s.2 = kind := hkinds s hsmem _ hmem hsame
      rw [fixed?, hfind, Option.map_some, hsame, hkind, List.drop_left]

/-- A lexeme of some form at the front of a text is the one that is taken. -/
theorem Formed.ofText_eq {m : Lexeme} (h : m.Formed) {c : Char} {cs : List Char}
    (htext : m.taken ++ m.rest = c :: cs) : ofText c cs = m := by
  cases h with
  | quoted hcontent =>
      obtain ⟨rfl, rfl⟩ := List.cons.inj htext
      simpa using ofText_quoted hcontent _
  | unterminated hcontent =>
      obtain ⟨rfl, rfl⟩ := List.cons.inj htext
      simpa using ofText_unterminated hcontent
  | word hc hcs hrest hkind =>
      obtain ⟨rfl, rfl⟩ := List.cons.inj htext
      obtain ⟨hword, htake, hdrop⟩ := ofText_word hc hcs hrest
      rw [List.append_eq, hword, Lexeme.word, htake, hdrop, hkind]
  | whole hne hdigits hrest hpoint =>
      obtain ⟨d, ds, rfl⟩ := List.exists_cons_of_ne_nil hne
      obtain ⟨rfl, rfl⟩ := List.cons.inj htext
      obtain ⟨hd, hds⟩ := List.forall_mem_cons.mp hdigits
      exact (ofText_digits hd _).trans (number_whole hds hrest hpoint)
  | fraction hne hwhole hne' hfraction hrest =>
      obtain ⟨d, ds, rfl⟩ := List.exists_cons_of_ne_nil hne
      obtain ⟨e, es, rfl⟩ := List.exists_cons_of_ne_nil hne'
      obtain ⟨hd, hds⟩ := List.forall_mem_cons.mp hwhole
      obtain ⟨he, hes⟩ := List.forall_mem_cons.mp hfraction
      obtain ⟨rfl, rfl⟩ := List.cons.inj htext
      have hnumber := (ofText_digits hd _).trans (number_fraction (c := d) hds he hes hrest)
      simpa using hnumber
  | mark hmem hlongest =>
      have hnonempty : ∀ s ∈ spellings, s.1 ≠ [] := by decide
      obtain ⟨d, ds, rfl⟩ := List.exists_cons_of_ne_nil (hnonempty _ hmem)
      obtain ⟨rfl, rfl⟩ := List.cons.inj htext
      exact (ofText_mark ⟨_, hmem, rfl⟩ (fixed?_mark hmem hlongest)).1
  | stray hquote hword hdigit hmarks =>
      obtain ⟨rfl, rfl⟩ := List.cons.inj htext
      have hnone : fixed? (_ :: _) = none := Option.map_eq_none_iff.mpr
        (List.find?_eq_none.mpr fun s hs hfront =>
          hmarks s hs (List.isPrefixOf_iff_prefix.mp hfront))
      rw [ofText, if_neg hquote, if_neg (by simp [hword]), if_neg (by simp [hdigit]),
        List.append_eq, List.nil_append, hnone]

/-- There is exactly one lexeme of some form at the front of a text. -/
theorem ofText_eq_iff {c : Char} {cs : List Char} {m : Lexeme} :
    ofText c cs = m ↔ m.Formed ∧ m.taken ++ m.rest = c :: cs :=
  ⟨fun h => h ▸ formed_ofText c cs, fun h => h.1.ofText_eq h.2⟩

end Lexeme

/-! ## What follows a lexeme -/

/-- Whether another rest goes on as a rest does, up to a blank. -/
def GoesOnAs (rest rest' : List Char) : Prop := (rest'.takeWhile fun c => !isBlank c) <+: rest

namespace GoesOnAs

variable {rest rest' : List Char} (h : GoesOnAs rest rest')
include h

/-- What the other rest starts with before a blank, the rest starts with as well. -/
theorem of_front {cs : List Char} (hcs : ∀ c ∈ cs, isBlank c = false) (hfront : cs <+: rest') :
    cs <+: rest := by
  obtain ⟨ds, rfl⟩ := hfront
  rw [GoesOnAs, List.takeWhile_append_of_pos fun c hc => by simp [hcs c hc]] at h
  exact (List.prefix_append _ _).trans h

theorem halts {p : Char → Bool} (hp : ∀ c, p c → isBlank c = false) (hrest : Halts p rest) :
    Halts p rest' := by
  intro c hc
  by_contra hpc
  have hpc : p c = true := by simpa using hpc
  obtain ⟨cs, rfl⟩ : ∃ cs, rest' = c :: cs := List.head?_eq_some_iff.mp hc
  -- No blank goes on with the run, so the rest starts with the same character.
  have hfront : [c] <+: rest := h.of_front (by simpa using hp c hpc) ⟨cs, rfl⟩
  obtain ⟨ds, rfl⟩ := hfront
  rw [hrest c rfl] at hpc
  cases hpc

theorem of_front_append {cs mark : List Char} (hblank : ∀ c ∈ mark, isBlank c = false)
    (hmark : mark <+: cs ++ rest') : mark <+: cs ++ rest := by
  obtain ⟨ds, hds⟩ := hmark
  rcases List.append_eq_append_iff.mp hds with ⟨as, rfl, -⟩ | ⟨bs, rfl, rfl⟩
  · rw [List.append_assoc]
    exact List.prefix_append _ _
  · exact (List.prefix_append_right_inj _).mpr
      (h.of_front (fun c hc => hblank c (List.mem_append_right _ hc)) (List.prefix_append _ _))

/-- Characters in front of both rests make no difference. -/
theorem append (cs : List Char) : GoesOnAs (cs ++ rest) (cs ++ rest') := by
  rw [GoesOnAs, List.takeWhile_append]
  split
  · exact (List.prefix_append_right_inj _).mpr h
  · exact (List.takeWhile_prefix _).trans (List.prefix_append _ _)

end GoesOnAs

theorem isBlank_eq_false_of_mem_mark :
    ∀ s ∈ Lexeme.spellings, ∀ c ∈ s.1, isBlank c = false := by
  have hall : ∀ s ∈ Lexeme.spellings, s.1.all (!isBlank ·) := by decide
  intro s hs c hc
  simpa using List.all_eq_true.mp (hall s hs) c hc

/-- Whether a lexeme starts here does not depend on what stands behind the next blank. -/
theorem StartsLexeme.goesOn {c : Char} {rest rest' : List Char} (h : StartsLexeme c rest)
    (hrest : GoesOnAs rest rest') : StartsLexeme c rest' := by
  refine ⟨h.notBlank, h.notHash, fun ⟨hc, hslash⟩ => h.notSlashes ⟨hc, ?_⟩⟩
  obtain ⟨cs, rfl⟩ := List.head?_eq_some_iff.mp hslash
  have hfront : ['/'] <+: rest := hrest.of_front (List.forall_mem_singleton.mpr rfl) ⟨cs, rfl⟩
  obtain ⟨ds, rfl⟩ := hfront
  rfl

/-- A lexeme keeps its form in front of a rest that goes on in the same way up to a blank,
    unless it is a string without an end. -/
theorem Lexeme.Formed.goesOn {m : Lexeme} (h : m.Formed)
    (hend : m.reading ≠ .fault .unterminatedString) {rest' : List Char}
    (hrest : GoesOnAs m.rest rest') : Formed ⟨m.reading, m.taken, rest'⟩ := by
  cases h with
  | quoted hcontent => exact .quoted hcontent
  | unterminated => exact absurd rfl hend
  | word hc hcs hhalts hkind =>
      refine .word hc hcs (hrest.halts (fun _ h => ?_) hhalts) hkind
      exact isBlank_eq_false_of_class h (by decide)
  | whole hne hdigits hhalts hpoint =>
      have hhalts' := hrest.halts (fun _ h => isBlank_eq_false_of_class h (by decide)) hhalts
      refine .whole hne hdigits hhalts' ?_
      rintro d ds rfl
      by_contra hd
      have hd : d.isDigit = true := by simpa using hd
      have hblank : ∀ c ∈ ['.', d], isBlank c = false := by
        simpa using ⟨by decide, isBlank_eq_false_of_class hd (by decide)⟩
      obtain ⟨es, hes⟩ := hrest.of_front hblank ⟨ds, rfl⟩
      rw [hpoint d es hes.symm] at hd
      cases hd
  | fraction hne hwhole hne' hfraction hhalts =>
      exact .fraction hne hwhole hne' hfraction
        (hrest.halts (fun _ h => isBlank_eq_false_of_class h (by decide)) hhalts)
  | mark hmem hlongest =>
      exact .mark hmem fun s hs hfront =>
        hlongest s hs (hrest.of_front_append (isBlank_eq_false_of_mem_mark s hs) hfront)
  | @stray c rest hquote hword hdigit hmarks =>
      refine .stray hquote hword hdigit fun s hs hfront => hmarks s hs ?_
      have hfront : s.1 <+: [c] ++ rest' := hfront
      exact hrest.of_front_append (isBlank_eq_false_of_mem_mark s hs) hfront

end BlockLang
