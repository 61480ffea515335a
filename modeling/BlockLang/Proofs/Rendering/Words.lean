/-
  BlockLang.Proofs.Rendering.Words

  Rendered text reads as words.

  A word that is written down reads as itself in front of a separator, and so does all that
  rendering puts together from words: blanks, commas, parentheses and semicolons keep them
  apart.  Only a sign stands directly in front of its operand; the first character of an
  operand never goes on with it, except for another sign, which a blank keeps away.
  Rendered expressions therefore read as the words of their trees.
-/
import BlockLang.Rendering
import BlockLang.Proofs.Token.Legible
import BlockLang.Proofs.Parser.Stratification

namespace BlockLang

/-! ## Words in texts -/

namespace Word

/-- A word as it is written. -/
def text : Word → String
  | literal v => v.literalText
  | written _ lexeme => lexeme

/-- The piece of a text that a word is. -/
def piece : Word → Piece
  | literal v => v.piece
  | written kind lexeme => .token kind lexeme kind.constant?

end Word

namespace TokenKind

/-- No word is of the kind of a mark. -/
theorem ofWord_ne_mark (w : String) : ∀ s ∈ Lexeme.spellings, ofWord w ≠ s.2 := by
  have hmarks : ∀ s ∈ Lexeme.spellings, s.2 ≠ .identifier ∧ ∀ k ∈ keywords, k.2 ≠ s.2 := by decide
  intro s hs
  rcases ofWord_cases w with ⟨h, -⟩ | h
  · rw [h]
    exact (hmarks s hs).1.symm
  · exact (hmarks s hs).2 _ h

end TokenKind

namespace Word.Legible

/-- Names are words. -/
theorem isWord {name : String} (h : (Word.name name).Legible) : IsWord name := by
  rcases h with h | h
  · exact h.1
  · have hmarks : ∀ s ∈ Lexeme.spellings, s.2 ≠ .identifier := by decide
    exact absurd rfl (hmarks _ h)

/-- The one built-in method is spelled in one way. -/
theorem eq_print {lexeme : String} (h : (Word.written .kwPrint lexeme).Legible) :
    lexeme = "print" := by
  rcases h with ⟨-, h⟩ | h
  · rcases TokenKind.ofWord_cases lexeme with ⟨hkind, -⟩ | hkind
    · rw [hkind] at h
      cases h
    · rw [h] at hkind
      have hprint : ∀ k ∈ keywords, k.2 = .kwPrint → k.1 = "print" := by decide
      exact hprint _ hkind rfl
  · have hmarks : ∀ s ∈ Lexeme.spellings, s.2 ≠ .kwPrint := by decide
    exact absurd rfl (hmarks _ h)

/-- A word of the kind of a mark is that mark. -/
theorem mem_spellings {kind : TokenKind} {lexeme : String} (h : (written kind lexeme).Legible)
    (hkind : ∃ s ∈ Lexeme.spellings, s.2 = kind) : (lexeme.toList, kind) ∈ Lexeme.spellings := by
  rcases h with ⟨-, hword⟩ | hmark
  · obtain ⟨s, hs, rfl⟩ := hkind
    exact absurd hword (TokenKind.ofWord_ne_mark lexeme s hs)
  · exact hmark

/-- A word that is written down reads as itself. -/
theorem reads {w : Word} (h : w.Legible) : Reads Parted w.text.toList [w.piece] := by
  cases w with
  | literal v => exact Value.Legible.reads h
  | written kind lexeme =>
      rcases h with ⟨hword, rfl⟩ | hmark
      · exact reads_word hword
      · have hconstant : ∀ s ∈ Lexeme.spellings, s.2.constant? = none := by decide
        have hreads := (reads_mark hmark).mono fun _ => Parted.apart
        rw [String.ofList_toList] at hreads
        rw [piece, hconstant _ hmark]
        exact hreads

end Word.Legible

/-- Words are no errors. -/
theorem faults_words (words : List Word) :
    (words.map Word.piece).filterMap Piece.fault? = [] := by
  rw [List.filterMap_map, List.filterMap_eq_nil_iff]
  rintro (v | ⟨kind, lexeme⟩) -
  · cases v <;> rfl
  · rfl

/-- A text reads as these words in front of a separator. -/
def ReadsWords (text : String) (words : List Word) : Prop :=
  Reads Parted text.toList (words.map Word.piece)

/-- The word of a semicolon. -/
def Word.semicolon : Word := .written .semicolon ";"

namespace ReadsWords

variable {text text' : String} {words words' : List Word}

theorem word {w : Word} (h : w.Legible) : ReadsWords w.text [w] := h.reads

theorem name {name : String} (h : (Word.name name).Legible) : ReadsWords name [.name name] :=
  h.reads

/-- A text behind another one that it is kept apart from. -/
theorem append (h : ReadsWords text words) (h' : ReadsWords text' words')
    (hparted : ∀ rest, Parted rest → Parted (text'.toList ++ rest)) :
    ReadsWords (text ++ text') (words ++ words') := by
  unfold ReadsWords
  rw [String.toList_append, List.map_append]
  exact Reads.append h h' hparted

/-- A blank in front. -/
theorem blank (h : ReadsWords text words) : ReadsWords (" " ++ text) words := by
  unfold ReadsWords
  rw [String.toList_append]
  exact Reads.append (reads_blank (c := ' ') rfl) h fun _ _ => trivial

/-- Texts with a blank between them. -/
theorem spaced (h : ReadsWords text words) (h' : ReadsWords text' words') :
    ReadsWords (text ++ " " ++ text') (words ++ words') := by
  rw [String.append_assoc]
  refine h.append h'.blank fun rest _ => ?_
  rw [String.toList_append]
  exact .cons (by decide) _

theorem statement (h : ReadsWords text words) :
    ReadsWords (text ++ ";") (words ++ [.semicolon]) :=
  h.append (word (w := .semicolon) (Or.inr (by decide))) fun rest _ => .cons (by decide) rest

/-- A text in parentheses. -/
theorem parens (h : ReadsWords text words) :
    ReadsWords ("(" ++ text ++ ")") (parenthesized words) := by
  have hopen : Reads (fun _ => True) "(".toList [(Word.mark .leftParen).piece] := reads_leftParen
  have hclose : ReadsWords ")" [.mark .rightParen] :=
    word (w := .mark .rightParen) (Or.inr (by decide))
  have hinner := h.append hclose fun rest _ => .cons (by decide) rest
  unfold ReadsWords
  rw [String.append_assoc, String.toList_append, parenthesized, List.map_cons]
  exact Reads.append hopen hinner fun _ _ => trivial

/-- A text directly in front of one in parentheses. -/
theorem called (h : ReadsWords text words) (h' : ReadsWords text' words') :
    ReadsWords (text ++ "(" ++ text' ++ ")") (words ++ parenthesized words') := by
  have happend := h.append h'.parens fun rest _ => by
    rw [String.append_assoc, String.toList_append]
    exact .cons (by decide) _
  rwa [← String.append_assoc, ← String.append_assoc] at happend

theorem nil : ReadsWords "" [] := Reads.nil

/-- Texts with commas between them. -/
theorem commaed {texts : List String} {elements : List (List Word)}
    (h : List.Forall₂ ReadsWords texts elements) :
    ReadsWords (String.intercalate ", " texts) (commaed elements) := by
  have hcomma : ReadsWords "," [.mark .comma] := word (w := .mark .comma) (Or.inr (by decide))
  induction h with
  | nil => exact .nil
  | @cons text words texts elements hfirst hmore ih =>
      cases hmore with
      | nil =>
          rw [String.intercalate_singleton, commaed_singleton]
          exact hfirst
      | cons hnext hmore =>
          rw [String.intercalate_cons_cons, commaed_cons_cons]
          have hhead := hfirst.append hcomma fun rest _ => .cons (by decide) rest
          have hall := hhead.spaced ih
          have hblank : text ++ "," ++ " " = text ++ ", " := String.append_assoc
          rwa [List.append_assoc, hblank] at hall

end ReadsWords

/-! ## Operands -/

/-- Characters that operands start with. -/
def isOperandStart (c : Char) : Bool :=
  isWordStart c || c.isDigit || ['"', '(', '-', '!'].contains c

/-- Whether a text starts as operands do. -/
def StartsOperand (text : String) : Prop := text.toList.head?.any isOperandStart = true

namespace StartsOperand

variable {text : String}

theorem append (h : StartsOperand text) (text' : String) : StartsOperand (text ++ text') := by
  unfold StartsOperand at h ⊢
  rw [String.toList_append]
  cases hcs : text.toList with
  | nil =>
      rw [hcs] at h
      cases h
  | cons c cs =>
      rw [hcs] at h
      exact h

theorem of_isWord (h : IsWord text) : StartsOperand text := by
  obtain ⟨c, cs, hcs, hc, -⟩ := h.exists_cons
  unfold StartsOperand
  rw [hcs]
  simp [isOperandStart, hc]

theorem of_digits {digits rest : List Char} (htext : text.toList = digits ++ rest)
    (hne : digits ≠ []) (h : ∀ c ∈ digits, c.isDigit) : StartsOperand text := by
  obtain ⟨c, cs, rfl⟩ := List.exists_cons_of_ne_nil hne
  unfold StartsOperand
  rw [htext]
  simp [isOperandStart, h c List.mem_cons_self]

theorem of_legible {v : Value} (h : v.Legible) : StartsOperand v.literalText := by
  cases v with
  | integer n =>
      have htext : (Value.integer n).literalText.toList =
          Nat.toDigits 10 n.toInt.toNat ++ [] := by
        rw [Value.literalText_integer h, String.toList_ofList, List.append_nil]
      exact of_digits htext Nat.toDigits_ne_nil fun c hc => Decimal.isDigit_of_mem_toDigits hc
  | float x =>
      obtain ⟨hfinite, whole, fraction, hne, rfl⟩ := h
      obtain ⟨whole', fraction', hwrites⟩ := Decimal.exists_writes_nearestFloat hne hfinite
      have htext := congrArg String.toList hwrites.text_eq
      rw [String.toList_ofList] at htext
      exact of_digits htext hwrites.whole_ne_nil hwrites.isDigit_whole
  | string s =>
      have hquote : StartsOperand "\"" := rfl
      exact (hquote.append s).append "\""
  | boolean b => cases b <;> exact of_isWord (by decide)
  | null => exact of_isWord (by decide)

end StartsOperand

/-- What may stand in front of an operand as its sign, and how it is spelled. -/
theorem Word.Legible.sign {op : Operator} (h : op.word.Legible)
    (hop : op.kind = .bang ∨ op.kind = .minus) :
    (op.lexeme.toList, op.kind) ∈ Lexeme.spellings ∧ StartsOperand op.lexeme := by
  have hmark : (op.lexeme.toList, op.kind) ∈ Lexeme.spellings := by
    refine h.mem_spellings ?_
    rcases hop with hop | hop
    · exact ⟨(['!'], .bang), by decide, hop.symm⟩
    · exact ⟨(['-'], .minus), by decide, hop.symm⟩
  have hsigns : ∀ s ∈ Lexeme.spellings, s.2 = .bang ∨ s.2 = .minus →
      s.1.head?.any isOperandStart = true := by decide
  exact ⟨hmark, hsigns _ hmark hop⟩

/-- Behind a sign, an operand that starts with no sign is read for itself. -/
theorem StartsOperand.apart {text : String} (h : StartsOperand text)
    (hminus : text.toList.head? ≠ some '-') (rest : List Char) : Apart (text.toList ++ rest) := by
  have hothers : isOperandStart '=' = false ∧ isOperandStart ':' = false ∧
      isOperandStart '/' = false := by decide
  unfold StartsOperand at h
  cases hcs : text.toList with
  | nil =>
      rw [hcs] at h
      cases h
  | cons c cs =>
      rw [hcs] at h hminus
      intro d hd
      obtain rfl : c = d := Option.some.inj hd
      have hstart : isOperandStart c = true := h
      simp only [List.mem_cons, List.not_mem_nil, or_false]
      rintro (rfl | rfl | rfl | rfl)
      · rw [hothers.1] at hstart
        cases hstart
      · exact hminus rfl
      · rw [hothers.2.1] at hstart
        cases hstart
      · rw [hothers.2.2] at hstart
        cases hstart

/-- A sign directly in front of an operand, or with a blank in front of another sign. -/
theorem ReadsWords.sign {op : Operator} {text : String} {words : List Word}
    (hop : op.word.Legible) (hkind : op.kind = .bang ∨ op.kind = .minus)
    (h : ReadsWords text words) (hstart : StartsOperand text) :
    ReadsWords (renderSign op.lexeme text) (op.word :: words) := by
  unfold renderSign
  split
  · exact (ReadsWords.word hop).spaced h
  · exact (ReadsWords.word hop).spaced h
  · rename_i hminus _
    have hmark := (hop.sign hkind).1
    have hconstant : ∀ s ∈ Lexeme.spellings, s.2.constant? = none := by decide
    have hreads := reads_mark hmark
    rw [String.ofList_toList, ← hconstant _ hmark] at hreads
    unfold ReadsWords
    rw [String.toList_append]
    exact hreads.append h fun rest _ => hstart.apart hminus rest

/-! ## Expressions -/

namespace Phrase

/-- Whether all words of a phrase can be read. -/
def Legible (φ : Phrase) : Prop := ∀ w ∈ φ.words, w.Legible

variable {φ ψ : Phrase}

theorem subset_commaed (element : List Word) (elements : List (List Word)) :
    element ⊆ commaed (element :: elements) ∧ commaed elements ⊆ commaed (element :: elements) := by
  cases elements with
  | nil => simp
  | cons next more =>
      rw [commaed_cons_cons]
      refine ⟨List.subset_append_left _ _, fun w hw => ?_⟩
      exact List.mem_append_right _ (List.mem_cons_of_mem _ hw)

/-- Words between commas are among all of them. -/
theorem subset_commaed_of_mem {element : List Word} {elements : List (List Word)}
    (h : element ∈ elements) : element ⊆ commaed elements := by
  induction elements with
  | nil => exact absurd h List.not_mem_nil
  | cons first more ih =>
      obtain ⟨hfirst, hmore⟩ := subset_commaed first more
      rcases List.mem_cons.mp h with rfl | h
      · exact hfirst
      · exact List.Subset.trans (ih h) hmore

/-- The words of a part are words of the whole. -/
theorem words_part_subset (h : ψ ∈ φ.parts) : ψ.words ⊆ φ.words := by
  have hall : ∀ ψ ∈ φ.parts, ψ.words ⊆ φ.words := by
    cases φ with
    | expr e =>
        cases e <;> simp [parts, words, Expr.words, parenthesized, List.subset_def] <;> grind
    | arguments es =>
        cases es with
        | nil => simp [parts]
        | cons e es =>
            obtain ⟨hfirst, hmore⟩ := subset_commaed e.words (wordsOfEach es)
            exact List.forall_mem_cons.mpr ⟨hfirst, List.forall_mem_singleton.mpr hmore⟩
    | types names =>
        rcases names with _ | ⟨name, _ | ⟨name', names⟩⟩
        · simp [parts]
        · simp [parts]
        · exact List.forall_mem_singleton.mpr (subset_commaed [.name name] _).2
    | pattern m p => cases p <;> simp [parts, words, Pattern.words]
    | patterns m ps =>
        cases ps with
        | nil => simp [parts]
        | cons p ps =>
            obtain ⟨hfirst, hmore⟩ := subset_commaed p.words (ps.map Pattern.words)
            exact List.forall_mem_cons.mpr ⟨hfirst, List.forall_mem_singleton.mpr hmore⟩
    | item i =>
        cases i <;>
          simp [parts, words, Item.words, parenthesized, inBlock, List.subset_def] <;> grind
    | items is =>
        cases is <;> simp [parts, words, wordsOfItems]
  exact hall ψ h

theorem Legible.part (h : φ.Legible) (hψ : ψ ∈ φ.parts) : ψ.Legible :=
  fun w hw => h w (words_part_subset hψ hw)

theorem Legible.at_path {path : Path} (h : φ.Legible) (hψ : φ.at? path = some ψ) : ψ.Legible := by
  induction path generalizing φ with
  | nil => exact Option.some.inj hψ ▸ h
  | cons k path ih =>
      rw [at?] at hψ
      obtain ⟨part, hk, hpart⟩ := Option.bind_eq_some_iff.mp hψ
      exact ih (h.part (List.mem_of_getElem? hk)) hpart

end Phrase

/-- The text of a call. -/
theorem ReadsWords.renderCall {callee : Callee} {es : List Expr} (hcallee : callee.word.Legible)
    (hes : ∀ e ∈ es, ReadsWords e.render e.words) :
    ReadsWords (renderCall callee (renderExprs es))
      (callee.word :: parenthesized (BlockLang.commaed (wordsOfEach es))) := by
  have hall : List.Forall₂ ReadsWords (renderExprs es) (wordsOfEach es) := by
    induction es with
    | nil => exact .nil
    | cons e es ih =>
        obtain ⟨he, hes⟩ := List.forall_mem_cons.mp hes
        exact .cons he (ih hes)
  obtain ⟨name, f | id⟩ := callee
  · cases f
    have hprint : name.name = "print" := hcallee.eq_print
    have hcall := (ReadsWords.word hcallee).called (.commaed hall)
    rw [Callee.word, Word.text, hprint] at hcall
    rw [Callee.word, hprint]
    exact hcall
  · exact (ReadsWords.name hcallee).called (.commaed hall)

theorem ReadsWords.renderAssignment {target : Ident} {text : String} {words : List Word}
    (htarget : (Word.name target.name).Legible) (h : ReadsWords text words) :
    ReadsWords (renderAssignment target text) (.name target.name :: .mark .equal :: words) := by
  have hequal : ReadsWords "=" [.mark .equal] := word (w := .mark .equal) (Or.inr (by decide))
  have hblanks : target.name ++ " " ++ "=" ++ " " = target.name ++ " = " := by
    rw [String.append_assoc, String.append_assoc]
    rfl
  have hall := ((ReadsWords.name htarget).spaced hequal).spaced h
  rwa [hblanks] at hall

theorem StartsOperand.renderCall {callee : Callee} {es : List Expr}
    (hcallee : callee.word.Legible) : StartsOperand (renderCall callee (renderExprs es)) := by
  obtain ⟨name, f | id⟩ := callee
  · have hprint : StartsOperand "print" := of_isWord (by decide)
    cases f
    exact ((hprint.append _).append _).append _
  · exact (((of_isWord hcallee.isWord).append _).append _).append _

/-- Whether an expression reads as its words, also behind a sign. -/
structure Expr.Readable (e : Expr) : Prop where
  reads : ReadsWords e.render e.words
  starts : StartsOperand e.render

/-- Whether the expressions that a phrase consists of read as their words. -/
def Phrase.Readable : Phrase → Prop
  | expr e => e.Readable
  | arguments es => ∀ e ∈ es, e.Readable
  | _ => True

/-- Expressions with legible words and with operators that fit read as their words. -/
theorem Phrase.Legible.readable {φ : Phrase} (h : φ.Legible) (hlayered : φ.Each Expr.Layered) :
    φ.Readable := by
  induction φ using Phrase.induction_on_parts with
  | h φ ih =>
      have hpart {ψ : Phrase} (hψ : ψ ∈ φ.parts) : ψ.Readable :=
        ih ψ hψ (h.part hψ) (hlayered.part hψ)
      -- A sign has a blank behind it only in front of another sign, so how an operand starts
      -- matters as well.
      cases φ with
      | expr e =>
          cases e with
          | assign target value =>
              have htarget : (Word.name target.name).Legible := h _ List.mem_cons_self
              have hvalue : value.Readable := hpart List.mem_cons_self
              refine ⟨.renderAssignment htarget hvalue.reads, ?_⟩
              exact ((StartsOperand.of_isWord htarget.isWord).append _).append _
          | binary level left op right =>
              have hleft : left.Readable := hpart List.mem_cons_self
              have hright : right.Readable := hpart (List.mem_cons_of_mem _ List.mem_cons_self)
              have hop : op.word.Legible :=
                h _ (List.mem_append_right _ List.mem_cons_self)
              have hall := (hleft.reads.spaced (.word hop)).spaced hright.reads
              rw [List.append_assoc] at hall
              exact ⟨hall, (((hleft.starts.append _).append _).append _).append _⟩
          | unary op operand =>
              have hop : op.word.Legible := h _ List.mem_cons_self
              obtain ⟨hkind, -⟩ : Expr.Layered _ := hlayered.here
              have hoperand : operand.Readable := hpart List.mem_cons_self
              refine ⟨.sign hop hkind hoperand.reads hoperand.starts, ?_⟩
              rw [Expr.render, renderSign]
              split
              · exact ((hop.sign hkind).2.append _).append _
              · exact ((hop.sign hkind).2.append _).append _
              · exact (hop.sign hkind).2.append _
          | grouping inner =>
              have hinner : inner.Readable := hpart List.mem_cons_self
              have hopen : StartsOperand "(" := rfl
              exact ⟨hinner.reads.parens, (hopen.append _).append _⟩
          | literal v =>
              have hv : v.Legible := h _ List.mem_cons_self
              exact ⟨.word (w := .literal v) hv, .of_legible hv⟩
          | name id =>
              have hid : (Word.name id.name).Legible := h _ List.mem_cons_self
              exact ⟨.name hid, .of_isWord hid.isWord⟩
          | call callee es =>
              have hcallee : callee.word.Legible := h _ List.mem_cons_self
              have hes : ∀ e ∈ es, e.Readable := hpart List.mem_cons_self
              exact ⟨.renderCall hcallee fun e he => (hes e he).reads, .renderCall hcallee⟩
      | arguments es =>
          cases es with
          | nil => exact fun _ he => absurd he List.not_mem_nil
          | cons e es =>
              have hfirst : e.Readable := hpart List.mem_cons_self
              have hmore : ∀ e ∈ es, e.Readable := hpart (List.mem_cons_of_mem _ List.mem_cons_self)
              exact List.forall_mem_cons.mpr ⟨hfirst, hmore⟩
      | _ => trivial

/-! ## Accepted texts -/

section Accepted

variable {text : String} {p : Parsed} (hp : parse text = .ok p)
include hp

theorem legible_of_parse : (Phrase.items p.items).Legible := by
  obtain ⟨tokens, htokens, hparse⟩ := parse_eq_ok hp
  exact legible_words htokens hparse

theorem layered_of_parse : (Phrase.items p.items).Each Expr.Layered := by
  obtain ⟨tokens, -, hparse⟩ := parse_eq_ok hp
  obtain ⟨s', hrun, -⟩ := read_parseTokens hparse
  have hall := each_parseItems tokens.length false (.ofTokens tokens)
  rwa [hrun] at hall

end Accepted

end BlockLang
