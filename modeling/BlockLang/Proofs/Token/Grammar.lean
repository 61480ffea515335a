/-
  BlockLang.Proofs.Token.Grammar

  The patterns of lexemes as languages.

  Marks are spelled as in their table.  Words, numbers and strings are the regular languages
  `[A-Za-z_][A-Za-z0-9_]*`, `[0-9]+(\.[0-9]+)?` and `"[^"]*"`.  The first character of a
  lexeme tells these apart, so no lexeme matches two patterns (`LexPattern.eq_of_mem`).
-/
import BlockLang.Proofs.Token.Form
import Mathlib.Computability.Language

namespace BlockLang

open scoped Computability

/-! ## Characters -/

/-- The words of one character with a property. -/
def single (p : Char → Prop) : Language Char := {w | ∃ c, w = [c] ∧ p c}

/-- The letters `A-Z` and `a-z`. -/
def IsLetter (c : Char) : Prop := ('A' ≤ c ∧ c ≤ 'Z') ∨ ('a' ≤ c ∧ c ≤ 'z')

/-- The digits `0-9`. -/
def IsDecimal (c : Char) : Prop := '0' ≤ c ∧ c ≤ '9'

theorem isDigit_iff (c : Char) : c.isDigit ↔ IsDecimal c := by
  simp [Char.isDigit, IsDecimal, Char.le_def, UInt32.le_iff_toNat_le]

theorem isWordStart_iff (c : Char) : isWordStart c ↔ IsLetter c ∨ c = '_' := by
  simp [isWordStart, isAlpha_iff, IsLetter, Char.le_def, UInt32.le_iff_toNat_le]

theorem isWordPart_iff (c : Char) : isWordPart c ↔ IsLetter c ∨ IsDecimal c ∨ c = '_' := by
  rw [← isDigit_iff, or_left_comm, ← isWordStart_iff]
  simp [isWordPart, isWordStart, Char.isAlphanum]
  tauto

/-- Repetitions of one character with a property are the words all of whose characters have
    it. -/
theorem mem_kstar_single {p : Char → Prop} {w : List Char} :
    w ∈ (single p)∗ ↔ ∀ c ∈ w, p c := by
  constructor
  · intro h
    obtain ⟨ws, rfl, hws⟩ := Language.mem_kstar.mp h
    intro c hc
    obtain ⟨v, hv, hcv⟩ := List.mem_flatten.mp hc
    obtain ⟨d, rfl, hd⟩ := hws v hv
    obtain rfl := List.mem_singleton.mp hcv
    exact hd
  · intro h
    refine Language.mem_kstar.mpr ⟨w.map ([·]), (List.flatMap_singleton' w).symm, ?_⟩
    intro v hv
    obtain ⟨c, hc, rfl⟩ := List.mem_map.mp hv
    exact ⟨c, rfl, h c hc⟩

/-- One character and repetitions of another. -/
theorem mem_single_mul_kstar {p q : Char → Prop} {w : List Char} :
    w ∈ single p * (single q)∗ ↔ ∃ c cs, w = c :: cs ∧ p c ∧ ∀ d ∈ cs, q d := by
  rw [Language.mem_mul]
  constructor
  · rintro ⟨-, ⟨c, rfl, hc⟩, cs, hcs, rfl⟩
    exact ⟨c, cs, rfl, hc, mem_kstar_single.mp hcs⟩
  · rintro ⟨c, cs, rfl, hc, hcs⟩
    exact ⟨[c], ⟨c, rfl, hc⟩, cs, mem_kstar_single.mpr hcs, rfl⟩

/-! ## Patterns -/

/-- The patterns of lexemes: marks, each of its own kind, words, numbers and strings. -/
inductive LexPattern where
  | mark (kind : TokenKind)
  | word
  | number
  | quoted

namespace LexPattern

/-- One digit or more. -/
def digits : Language Char := single IsDecimal * (single IsDecimal)∗

/-- The lexemes that match a pattern. -/
def language : LexPattern → Language Char
  | mark kind => {w | (w, kind) ∈ Lexeme.spellings}
  | word =>
    single (fun c => IsLetter c ∨ c = '_') *
      (single fun c => IsLetter c ∨ IsDecimal c ∨ c = '_')∗
  | number => digits * (1 + {['.']} * digits)
  | quoted => {['"']} * (single (· ≠ '"'))∗ * {['"']}

theorem mem_word {w : List Char} :
    w ∈ word.language ↔ ∃ c cs, w = c :: cs ∧ isWordStart c ∧ ∀ d ∈ cs, isWordPart d := by
  simp only [isWordStart_iff, isWordPart_iff]
  exact mem_single_mul_kstar

theorem mem_digits {w : List Char} : w ∈ digits ↔ w ≠ [] ∧ ∀ d ∈ w, d.isDigit := by
  simp only [isDigit_iff]
  refine mem_single_mul_kstar.trans ⟨?_, ?_⟩
  · rintro ⟨c, cs, rfl, hc, hcs⟩
    exact ⟨List.cons_ne_nil _ _, List.forall_mem_cons.mpr ⟨hc, hcs⟩⟩
  · rintro ⟨hne, hall⟩
    obtain ⟨c, cs, rfl⟩ := List.exists_cons_of_ne_nil hne
    exact ⟨c, cs, rfl, List.forall_mem_cons.mp hall⟩

theorem mem_number {w : List Char} :
    w ∈ number.language ↔
      w ∈ digits ∨ ∃ whole ∈ digits, ∃ fraction ∈ digits, w = whole ++ '.' :: fraction := by
  constructor
  · rintro ⟨whole, hwhole, tail, htail, rfl⟩
    rcases htail with hnil | ⟨point, hpoint, fraction, hfraction, rfl⟩
    · obtain rfl : tail = [] := hnil
      refine .inl ?_
      show whole ++ [] ∈ digits
      rwa [List.append_nil]
    · obtain rfl : point = ['.'] := hpoint
      exact .inr ⟨whole, hwhole, fraction, hfraction, rfl⟩
  · rintro (hw | ⟨whole, hwhole, fraction, hfraction, rfl⟩)
    · exact ⟨w, hw, [], .inl rfl, List.append_nil w⟩
    · exact ⟨whole, hwhole, _, .inr ⟨['.'], rfl, fraction, hfraction, rfl⟩, rfl⟩

theorem mem_quoted {w : List Char} :
    w ∈ quoted.language ↔ ∃ content, '"' ∉ content ∧ w = '"' :: content ++ ['"'] := by
  constructor
  · rintro ⟨-, ⟨-, rfl, content, hcontent, rfl⟩, -, rfl, rfl⟩
    exact ⟨content, fun h => mem_kstar_single.mp hcontent _ h rfl, rfl⟩
  · rintro ⟨content, hcontent, rfl⟩
    refine ⟨_, ⟨['"'], rfl, content, mem_kstar_single.mpr ?_, rfl⟩, ['"'], rfl, rfl⟩
    rintro c hc rfl
    exact hcontent hc

/-! ## First characters -/

/-- What the first character of a lexeme of a pattern is. -/
def Leads : LexPattern → Char → Prop
  | mark _, c => c ≠ '"' ∧ isWordStart c = false ∧ c.isDigit = false
  | word, c => isWordStart c
  | number, c => c.isDigit
  | quoted, c => c = '"'

theorem exists_leads {p : LexPattern} {w : List Char} (h : w ∈ p.language) :
    ∃ c cs, w = c :: cs ∧ p.Leads c := by
  have hdigits {w : List Char} (hw : w ∈ digits) : ∃ c cs, w = c :: cs ∧ c.isDigit := by
    obtain ⟨hne, hall⟩ := mem_digits.mp hw
    obtain ⟨c, cs, rfl⟩ := List.exists_cons_of_ne_nil hne
    exact ⟨c, cs, rfl, hall c List.mem_cons_self⟩
  cases p with
  | mark kind =>
      have hstarts : ∀ s ∈ Lexeme.spellings, s.1.head?.any fun c =>
          c ≠ '"' ∧ isWordStart c = false ∧ c.isDigit = false := by decide
      obtain ⟨c, hc, hleads⟩ := (Option.any_eq_true ..).mp (hstarts _ h)
      obtain ⟨cs, rfl⟩ := List.head?_eq_some_iff.mp hc
      rw [decide_eq_true_iff] at hleads
      exact ⟨c, cs, rfl, hleads⟩
  | word =>
      obtain ⟨c, cs, rfl, hc, -⟩ := mem_word.mp h
      exact ⟨c, cs, rfl, hc⟩
  | number =>
      rcases mem_number.mp h with hw | ⟨whole, hwhole, fraction, -, rfl⟩
      · exact hdigits hw
      · obtain ⟨c, cs, rfl, hc⟩ := hdigits hwhole
        exact ⟨c, cs ++ '.' :: fraction, rfl, hc⟩
  | quoted =>
      obtain ⟨content, -, rfl⟩ := mem_quoted.mp h
      exact ⟨'"', content ++ ['"'], rfl, rfl⟩

/-- The first character tells all patterns apart but the marks. -/
theorem Leads.eq_or_mark {p q : LexPattern} {c : Char} (hp : p.Leads c) (hq : q.Leads c) :
    p = q ∨ (∃ kind, p = mark kind) ∧ ∃ kind, q = mark kind := by
  have hword (h : isWordStart c = true) : c ≠ '"' := (startsLexeme_of_isWordStart h []).2
  have hdigit (h : c.isDigit = true) : c ≠ '"' ∧ isWordStart c = false :=
    (startsLexeme_of_isDigit h []).2
  -- Of the pairs of patterns, all but the equal ones and two marks exclude one another.
  cases p <;> cases q <;> grind [Leads]

/-- Lexemes of two patterns at the front of one text. -/
theorem eq_or_mark_of_front {p q : LexPattern} {v w text : List Char} (hv : v ∈ p.language)
    (hfront : v <+: text) (hw : w ∈ q.language) (hfront' : w <+: text) :
    p = q ∨ (∃ kind, p = mark kind) ∧ ∃ kind, q = mark kind := by
  obtain ⟨c, cs, rfl, hc⟩ := exists_leads hv
  obtain ⟨d, ds, rfl, hd⟩ := exists_leads hw
  obtain ⟨t, rfl⟩ := hfront
  obtain ⟨rfl, -⟩ := List.cons_prefix_cons.mp hfront'
  exact hc.eq_or_mark hd

theorem eq_of_mem {p q : LexPattern} {w : List Char} (hp : w ∈ p.language) (hq : w ∈ q.language) :
    p = q := by
  rcases eq_or_mark_of_front hp List.prefix_rfl hq List.prefix_rfl with
    heq | ⟨⟨kind, rfl⟩, kind', rfl⟩
  · exact heq
  · have hkinds : ∀ s ∈ Lexeme.spellings, ∀ t ∈ Lexeme.spellings, s.1 = t.1 → s.2 = t.2 := by
      decide
    exact congrArg mark (hkinds _ hp _ hq rfl)

end LexPattern

end BlockLang
