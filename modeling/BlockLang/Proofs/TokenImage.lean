/-
  BlockLang.Proofs.TokenImage

  Rendered text is the image of its tree.

  Line by line, what rendering writes reads as the words of the tree: every line ends with a
  line break, so nothing goes over from one line to the next.  Types are written in lower
  case, which keeps them words.  The scanner therefore comes across exactly the image of the
  tree, and its only errors are the braces around blocks.
-/
import BlockLang.Proofs.Rendering.Image

namespace BlockLang

/-! ## Types in lower case -/

theorem toNat_lt_of_isWordPart {c : Char} (h : isWordPart c = true) : c.toNat < 128 := by
  have hval : c.toNat = c.val.toNat := rfl
  simp only [isWordPart, Char.isAlphanum, Char.isAlpha, Char.isUpper, Char.isLower, Char.isDigit,
    Bool.or_eq_true, Bool.and_eq_true, decide_eq_true_eq, UInt32.le_iff_toNat_le, ge_iff_le] at h
  rcases h with ((⟨-, h⟩ | ⟨-, h⟩) | ⟨-, h⟩) | rfl
  · exact Nat.lt_of_le_of_lt (hval ▸ h) (by decide)
  · exact Nat.lt_of_le_of_lt (hval ▸ h) (by decide)
  · exact Nat.lt_of_le_of_lt (hval ▸ h) (by decide)
  · decide

theorem isWordPart_of_isWordStart {c : Char} (h : isWordStart c = true) : isWordPart c = true := by
  simp only [isWordStart, isWordPart, Char.isAlphanum, Bool.or_eq_true] at h ⊢
  exact h.imp_left .inl

/-- Lower case keeps the characters of words. -/
theorem isWord_toLower {c : Char} (h : c.toNat < 128) :
    (isWordStart c = true → isWordStart c.toLower = true) ∧
      (isWordPart c = true → isWordPart c.toLower = true) := by
  have hall : ∀ n < 128, (isWordStart (Char.ofNat n) = true →
        isWordStart (Char.ofNat n).toLower = true) ∧
      (isWordPart (Char.ofNat n) = true → isWordPart (Char.ofNat n).toLower = true) := by
    decide +kernel
  have := hall c.toNat h
  rwa [Char.ofNat_toNat] at this

theorem Text.lowerChars_eq_map {before cs : List Char} (h : ∀ c ∈ cs, c.toNat < 128) :
    Text.lowerChars before cs = cs.map Char.toLower := by
  induction cs generalizing before with
  | nil => rfl
  | cons c cs ih =>
      obtain ⟨hc, hcs⟩ := List.forall_mem_cons.mp h
      have hsigma : c.toNat ≠ 0x3A3 := by omega
      rw [Text.lowerChars, if_neg hsigma, Text.lowerChar, if_pos hc, ih hcs]
      rfl

/-- A word in lower case is a word. -/
theorem IsWord.lowercase {w : String} (h : IsWord w) : IsWord (Text.lowercase w) := by
  obtain ⟨c, cs, hw, hc, hcs⟩ := h.exists_cons
  have hpart := isWordPart_of_isWordStart hc
  have hascii : ∀ d ∈ c :: cs, d.toNat < 128 :=
    List.forall_mem_cons.mpr ⟨toNat_lt_of_isWordPart hpart,
      fun d hd => toNat_lt_of_isWordPart (hcs d hd)⟩
  rw [IsWord, Text.lowercase, String.toList_ofList, hw, Text.lowerChars_eq_map hascii]
  refine ⟨(isWord_toLower (hascii c List.mem_cons_self)).1 hc, ?_⟩
  rw [List.map_cons, List.tail_cons, List.all_map, List.all_eq_true]
  exact fun d hd => (isWord_toLower (hascii d (List.mem_cons_of_mem _ hd))).2 (hcs d hd)

theorem Word.Legible.type {type : String} (h : (Word.name type).Legible) :
    (Word.type type).Legible :=
  .inl ⟨h.isWord.lowercase, rfl⟩

/-! ## Signatures -/

/-- A signature that can be read when it is written. -/
structure Signature.Legible (σ : Signature) : Prop where
  returnType : (Word.type σ.returnType).Legible
  parameterTypes : ∀ type ∈ σ.parameterTypes, (Word.type type).Legible

theorem ReadsWords.type {type : String} (h : (Word.type type).Legible) :
    ReadsWords (renderType type) [.type type] :=
  h.reads

theorem ReadsWords.signature {σ : Signature} (h : σ.Legible) (hname : (Word.name σ.name).Legible) :
    ReadsWords (renderSignature σ) (σ.words ++ [.semicolon]) := by
  have hparameters : List.Forall₂ ReadsWords (σ.parameterTypes.map renderType)
      (σ.parameterTypes.map fun type => [.type type]) := by
    rw [List.forall₂_map_left_iff, List.forall₂_map_right_iff, List.forall₂_same]
    exact fun type htype => .type (h.parameterTypes type htype)
  have hall := (((ReadsWords.type h.returnType).spaced (.name hname)).called
    (.commaed hparameters)).statement
  rw [String.append_assoc] at hall
  exact hall

/-- The parameters of a body are written with their types in front of them. -/
theorem forall₂_renderParameters {patterns : List Pattern} {types parameters : List String}
    (h : renderParameters patterns types = some parameters)
    (hlength : types.length = patterns.length) (htypes : ∀ type ∈ types, (Word.type type).Legible)
    (hpatterns : ∀ p ∈ patterns, ∀ w ∈ p.words, w.Legible) :
    List.Forall₂ ReadsWords parameters
      (List.zipWith (fun type p => .type type :: Pattern.words p) types patterns) := by
  induction patterns generalizing types parameters with
  | nil =>
      obtain rfl := List.eq_nil_of_length_eq_zero hlength
      obtain rfl := Option.some.inj h
      exact .nil
  | cons p patterns ih =>
      obtain ⟨type, types, rfl⟩ := List.exists_cons_of_length_eq_add_one hlength
      obtain ⟨htype, htypes'⟩ := List.forall_mem_cons.mp htypes
      obtain ⟨hp, hpatterns'⟩ := List.forall_mem_cons.mp hpatterns
      cases p with
      | binding name =>
          obtain ⟨rest, hrest, rfl⟩ := Option.map_eq_some_iff.mp h
          have hname : (Word.name name.name).Legible := hp _ List.mem_cons_self
          refine .cons ((ReadsWords.type htype).spaced (.name hname)) ?_
          exact ih hrest (Nat.succ.inj hlength) htypes' hpatterns'
      | value e => exact absurd h nofun

/-- A rendered head reads as the words of the nearest signature of its name. -/
theorem ReadsWords.head {frames : Frames} {head : BodyHead} {heading : String}
    (h : renderHead frames head = .ok heading) (hknown : ∀ σ ∈ frames.flatten, σ.Legible)
    (hname : (Word.name head.name.name).Legible)
    (hpatterns : ∀ p ∈ head.patterns, ∀ w ∈ p.words, w.Legible) :
    ReadsWords heading
      ((frames.flatten.find? (·.name == head.name.name)).elim [] head.words) := by
  obtain ⟨σ, parameters, hσ, hlength, hparameters, rfl⟩ := renderHead_inv h
  have hlegible := hknown σ (List.mem_of_find?_eq_some hσ)
  rw [findSignature?] at hσ
  rw [hσ]
  exact ((ReadsWords.type hlegible.returnType).spaced (.name hname)).called
    (.commaed (forall₂_renderParameters hparameters hlength hlegible.parameterTypes hpatterns))

namespace Phrase.Legible

variable {φ : Phrase}

theorem declared (h : φ.Legible) (path : Path) :
    ∀ σ ∈ (φ.declared path).map (·.signature), σ.Legible := by
  intro σ hσ
  obtain ⟨d, hd, rfl⟩ := List.mem_map.mp hσ
  obtain ⟨rest, -, hat⟩ := at?_of_mem_declared hd
  have hitem := h.at_path hat
  constructor
  · refine Word.Legible.type (hitem _ ?_)
    simp [words, Declaration.item, Item.words, Declaration.signature]
  · intro type htype
    refine Word.Legible.type (hitem _ ?_)
    have hmem : [Word.name type] ∈ d.parameterTypes.map fun type => [Word.name type] :=
      List.mem_map_of_mem htype
    have := subset_commaed_of_mem hmem List.mem_cons_self
    simp [words, Declaration.item, Item.words, this]

end Phrase.Legible

/-! ## Headings -/

namespace ReadsWords

theorem kwClass : ReadsWords "class" [.mark .kwClass] :=
  word (w := .mark .kwClass) (Or.inl (by decide))

theorem kwIf : ReadsWords "if" [.mark .kwIf] := word (w := .mark .kwIf) (Or.inl (by decide))

theorem kwWhile : ReadsWords "while" [.mark .kwWhile] :=
  word (w := .mark .kwWhile) (Or.inl (by decide))

/-- A keyword in front of a condition in parentheses. -/
theorem condition {keyword text : String} {words words' : List Word}
    (h : ReadsWords keyword words) (h' : ReadsWords text words') :
    ReadsWords (keyword ++ " (" ++ text ++ ")") (words ++ parenthesized words') := by
  have hblank : keyword ++ " " ++ "(" = keyword ++ " (" := String.append_assoc
  have hall := h.spaced h'.parens
  rwa [← String.append_assoc, ← String.append_assoc, hblank] at hall

end ReadsWords

/-! ## Lines -/

/-- Lines read as these pieces, whatever stands behind them. -/
def ReadsLines (lines : List Line) (ps : List Piece) : Prop :=
  Reads (fun _ => True) (String.join (lines.map Line.render)).toList ps

namespace ReadsLines

variable {lines lines' : List Line} {ps ps' : List Piece}

theorem nil : ReadsLines [] [] := Reads.nil

theorem append (h : ReadsLines lines ps) (h' : ReadsLines lines' ps') :
    ReadsLines (lines ++ lines') (ps ++ ps') := by
  unfold ReadsLines
  rw [List.map_append, String.join_append, String.toList_append]
  exact Reads.append h h' fun _ _ => trivial

/-- Indentation is no piece, and behind a line break all words have ended. -/
theorem line (indent : Nat) {text : String} (h : Reads Parted text.toList ps) :
    ReadsLines [⟨indent, text⟩] ps := by
  have hindent : Reads (fun _ => True) (String.join (List.replicate indent "    ")).toList [] := by
    rw [String.toList_join]
    refine reads_blanks fun c hc => ?_
    obtain ⟨blanks, hblanks, hc⟩ := List.mem_flatMap.mp hc
    obtain rfl := List.eq_of_mem_replicate hblanks
    have hall : "    ".toList.all isBlank = true := rfl
    exact List.all_eq_true.mp hall c hc
  have hbreak : Reads (fun _ => True) "\n".toList [] := reads_blank (c := '\n') rfl
  have hline := hindent.append (h.append hbreak fun rest _ => .cons (by decide) rest)
    fun _ _ => trivial
  rw [List.append_nil, List.nil_append] at hline
  unfold ReadsLines
  rw [List.map_singleton, String.toList_join, List.flatMap_singleton, Line.render,
    String.append_assoc, String.toList_append, String.toList_append]
  exact hline

theorem statement (indent : Nat) {text : String} {words : List Word} (h : ReadsWords text words) :
    ReadsLines [⟨indent, text ++ ";"⟩] (statementImage words) :=
  line indent h.statement

theorem braced (indent : Nat) {heading : String} {words : List Word} (h : ReadsWords heading words)
    (hcontent : ReadsLines lines ps) :
    ReadsLines (bracedLines indent heading lines) (blockImage words ps) := by
  have hopen : Reads Parted (heading ++ " " ++ openingBrace).toList
      (words.map Word.piece ++ [.openBrace]) := by
    rw [String.append_assoc, String.toList_append]
    refine Reads.append h ?_ fun rest _ => .cons (by decide) _
    exact (reads_blank (c := ' ') rfl).append ((reads_brace (.inl rfl)).mono fun _ _ => trivial)
      fun _ _ => trivial
  have hclose : Reads Parted closingBrace.toList [.closeBrace] :=
    (reads_brace (.inr rfl)).mono fun _ _ => trivial
  have hall := (line indent hopen).append (hcontent.append (line indent hclose))
  rw [List.append_assoc] at hall
  exact hall

end ReadsLines

/-! ## Items -/

/-- The image of a phrase that is rendered on its own lines. -/
def Phrase.image (known : List Signature) : Phrase → List Piece
  | item i => i.image known
  | items is => imageOf known is
  | _ => []

/-- What is written in front of a block reads as the words in front of the image of the
    block. -/
theorem exists_reads_heading {i : Item} {b : Block} (hb : i.block? = some b) {frames : Frames}
    {heading : String} (hheading : b.heading frames = .ok heading)
    (hlegible : (Phrase.item i).Legible) (hlayered : (Phrase.item i).Each Expr.Layered)
    (hknown : ∀ σ ∈ frames.flatten, σ.Legible) :
    ∃ words, ReadsWords heading words ∧
      i.image frames.flatten = blockImage words (imageOf frames.flatten b.content) := by
  have hcondition {e : Expr} (he : Phrase.expr e ∈ (Phrase.item i).parts) :
      ReadsWords e.render e.words :=
    ((hlegible.part he).readable (hlayered.part he)).reads
  cases i with
  | classDecl name body =>
      obtain rfl := Option.some.inj hb
      obtain rfl := Except.ok.inj hheading
      have hname : (Word.name name.name).Legible :=
        hlegible _ (List.mem_cons_of_mem _ List.mem_cons_self)
      exact ⟨_, ReadsWords.kwClass.spaced (.name hname), rfl⟩
  | ifThen e body line =>
      obtain rfl := Option.some.inj hb
      obtain rfl := Except.ok.inj hheading
      exact ⟨_, ReadsWords.kwIf.condition (hcondition List.mem_cons_self), rfl⟩
  | whileLoop e body line =>
      obtain rfl := Option.some.inj hb
      obtain rfl := Except.ok.inj hheading
      exact ⟨_, ReadsWords.kwWhile.condition (hcondition List.mem_cons_self), rfl⟩
  | methodBody head body =>
      obtain rfl := Option.some.inj hb
      have hname : (Word.name head.name.name).Legible := hlegible _ List.mem_cons_self
      have hpatterns : ∀ p ∈ head.patterns, ∀ w ∈ p.words, w.Legible := by
        intro p hp w hw
        have hpart : (Phrase.patterns head.method head.patterns).Legible :=
          hlegible.part List.mem_cons_self
        exact hpart w (Phrase.subset_commaed_of_mem (List.mem_map_of_mem hp) hw)
      exact ⟨_, .head hheading hknown hname hpatterns, rfl⟩
  | _ => exact absurd hb nofun

/-- An item without a block is written on one line, which reads as its image. -/
theorem reads_statement {i : Item} (hb : i.block? = none) {indent : Nat} {frames frames' : Frames}
    {lines : List Line} (h : i.render indent frames = .ok (lines, frames'))
    (hlegible : (Phrase.item i).Legible) (hlayered : (Phrase.item i).Each Expr.Layered) :
    ReadsLines lines (i.image frames.flatten) := by
  have hexpr {e : Expr} (he : Phrase.expr e ∈ (Phrase.item i).parts) :
      ReadsWords e.render e.words :=
    ((hlegible.part he).readable (hlayered.part he)).reads
  cases i with
  | classDecl | ifThen | whileLoop | methodBody => exact absurd hb nofun
  | methodDecl name returnType parameterTypes =>
      obtain ⟨rfl, -⟩ := Prod.mk.inj (Except.ok.inj h)
      have hname : (Word.name name.name).Legible := hlegible _ List.mem_cons_self
      have hσ := hlegible.declared [] _ List.mem_cons_self
      exact .line indent (ReadsWords.signature hσ hname)
  | varDecl name type =>
      obtain ⟨rfl, -⟩ := Prod.mk.inj (Except.ok.inj h)
      have hname : (Word.name name.name).Legible := hlegible _ List.mem_cons_self
      have htype : (Word.name type).Legible :=
        hlegible _ (List.mem_cons_of_mem _ (List.mem_cons_of_mem _ List.mem_cons_self))
      exact .statement indent ((ReadsWords.type htype.type).spaced (.name hname))
  | assign target value =>
      obtain ⟨rfl, -⟩ := Prod.mk.inj (Except.ok.inj h)
      have htarget : (Word.name target.name).Legible := hlegible _ List.mem_cons_self
      exact .statement indent (.renderAssignment htarget (hexpr List.mem_cons_self))
  | call callee es =>
      obtain ⟨rfl, -⟩ := Prod.mk.inj (Except.ok.inj h)
      have hcallee : callee.word.Legible := hlegible _ List.mem_cons_self
      have harguments : Phrase.arguments es ∈ (Phrase.item (.call callee es)).parts :=
        List.mem_cons_self
      have hes (e : Expr) (he : e ∈ es) : ReadsWords e.render e.words :=
        ((hlegible.part harguments).readable (hlayered.part harguments) e he).reads
      exact .statement indent (.renderCall hcallee hes)
  | expr e =>
      obtain ⟨rfl, -⟩ := Prod.mk.inj (Except.ok.inj h)
      exact .statement indent (hexpr List.mem_cons_self)

/-- The lines of a phrase whose words are legible read as its image. -/
theorem Phrase.Renders.reads {φ : Phrase} {indent : Nat} {frames frames' : Frames}
    {lines : List Line} (h : φ.Renders indent frames lines frames') (hframes : frames ≠ [])
    (hlegible : φ.Legible) (hlayered : φ.Each Expr.Layered)
    (hknown : ∀ σ ∈ frames.flatten, σ.Legible) :
    ReadsLines lines (φ.image frames.flatten) := by
  induction φ using induction_on_parts generalizing indent frames frames' lines with
  | h φ ih =>
      cases φ with
      | item i =>
          cases hb : i.block? with
          | none => exact reads_statement hb h hlegible hlayered
          | some b =>
              obtain ⟨heading, content, _, hheading, hbody, rfl, -⟩ := render_block hb h
              obtain ⟨words, hwords, himage⟩ :=
                exists_reads_heading hb hheading hlegible hlayered hknown
              -- What stands in a block knows what was known in front of it.
              have hmem := mem_parts_of_block hb
              have hcontent := ih (.items b.content) hmem hbody (b.inside_ne_nil hframes)
                (hlegible.part hmem) (hlayered.part hmem) (b.flatten_inside frames ▸ hknown)
              rw [b.flatten_inside] at hcontent
              rw [image, himage]
              exact .braced indent hwords hcontent
      | items is =>
          cases is with
          | nil =>
              obtain ⟨rfl, -⟩ := Prod.mk.inj (Except.ok.inj h)
              exact .nil
          | cons i is =>
              obtain ⟨first, rest, middle, hfirst, hrest, rfl⟩ := renderItems_cons h
              have hi : item i ∈ parts (items (i :: is)) := List.mem_cons_self
              have his : items is ∈ parts (items (i :: is)) :=
                List.mem_cons_of_mem _ List.mem_cons_self
              have hreads := ih (.item i) hi hfirst hframes (hlegible.part hi) (hlayered.part hi)
                hknown
              -- What the first item declares is known behind it.
              obtain ⟨frame, outer, rfl⟩ := List.exists_cons_of_ne_nil hframes
              have hmiddle := frames_eq (φ := .item i) hfirst []
              subst hmiddle
              have hknown' := List.forall_mem_append.mpr ⟨(hlegible.part hi).declared [], hknown⟩
              have hmore := ih (.items is) his hrest (List.cons_ne_nil _ _) (hlegible.part his)
                (hlayered.part his) (by
                  rw [List.flatten_cons, List.append_assoc]
                  exact hknown')
              rw [List.flatten_cons, List.append_assoc] at hmore
              exact hreads.append hmore
      | _ => exact absurd h id

/-! ## Programs -/

/-- Rendered text is scanned as the image of its tree. -/
theorem scans_of_renderProgram {text : String} {p : Parsed} (hp : parse text = .ok p)
    {output : String} (hout : renderProgram p.items = .ok output) :
    Scans output.toList (imageOf [] p.items) := by
  obtain ⟨⟨lines, _⟩, hitems, hrest⟩ := exists_of_bind_eq_ok hout
  obtain rfl := Except.ok.inj hrest
  have hreads := Phrase.Renders.reads (φ := .items p.items) hitems (List.cons_ne_nil _ _)
    (legible_of_parse hp) (layered_of_parse hp) fun _ hσ => absurd hσ List.not_mem_nil
  exact Reads.scans hreads trivial

/-- Scanning the rendered text of an accepted program yields the image of its tree, piece by
    piece: the lexemes of the tokens are those of the image, and the only errors are the
    braces around the blocks.  Each of these has its partner, and there is one pair for each
    class, condition, loop and body of a method. -/
theorem rendered_text_scans_as_image {text : String} {p : Parsed} (hp : parse text = .ok p)
    {output : String} (hout : renderProgram p.items = .ok output) :
    (lexItems output).map Piece.ofItem = imageOf [] p.items ++ [.ending] ∧
      (scan output).1.map (·.lexeme) = (imageOf [] p.items).filterMap Piece.lexeme? ++ [""] ∧
      (scan output).2.map (·.fault) = (bracesOf p.items).map .unexpectedCharacter ∧
      Balanced (bracesOf p.items) ∧
      (bracesOf p.items).count '{' = blockCountOf p.items ∧
      (bracesOf p.items).count '}' = blockCountOf p.items := by
  have hscans := scans_of_renderProgram hp hout
  refine ⟨hscans.map_lexItems, hscans.lexemes_scan, ?_, balanced_bracesOf p.items,
    count_bracesOf (.inl rfl) p.items, count_bracesOf (.inr rfl) p.items⟩
  rw [hscans.faults_scan, faults_imageOf]

/-- Blocks of all kinds, a type that is a reserved word in lower case, and a string over two
    lines. -/
def blocksText : String :=
  "class A\n  m :: Class <- Int\n  x :: Str\n  m(k) do\n    if k > -1 do\n      x = \"a\nb\"\n" ++
    "    end\n  end\nend\nwhile false do\n  print(1)\nend\n"

/-- What `blocksText` is rendered as. -/
def blocksOutput : String :=
  "class A " ++ openingBrace ++ "\n    class m(int);\n    str x;\n" ++
    "    class m(int k) " ++ openingBrace ++ "\n        if (k > -1) " ++ openingBrace ++
    "\n            x = \"a\nb\";\n        " ++ closingBrace ++ "\n    " ++ closingBrace ++ "\n" ++
    closingBrace ++ "\nwhile (false) " ++ openingBrace ++ "\n    print(1);\n" ++
    closingBrace ++ "\n"

/-- The braces of `blocksOutput`. -/
def blocksBraces : List Char := ['{', '{', '{', '}', '}', '}', '{', '}']

/-- The lexemes of `blocksOutput`. -/
def blocksLexemes : List String :=
  ["class", "A", "class", "m", "(", "int", ")", ";", "str", "x", ";", "class", "m", "(", "int",
    "k", ")", "if", "(", "k", ">", "-", "1", ")", "x", "=", "\"a\nb\"", ";", "while", "(",
    "false", ")", "print", "(", "1", ")", ";"]

theorem blocks_scan_as_image :
    ∃ p, parse blocksText = .ok p ∧ renderProgram p.items = .ok blocksOutput ∧
      blockCountOf p.items = 4 ∧ (scan blocksOutput).1.map (·.lexeme) = blocksLexemes ++ [""] ∧
      (scan blocksOutput).2.map (·.fault) =
        blocksBraces.map .unexpectedCharacter ∧
      Balanced blocksBraces := by
  have hall : ((parse blocksText).toOption.map fun p =>
      ((renderProgram p.items).toOption, (imageOf [] p.items).filterMap Piece.lexeme?,
        bracesOf p.items, blockCountOf p.items)) =
      some (some blocksOutput, blocksLexemes, blocksBraces, 4) := by
    decide +kernel
  obtain ⟨p, hp, hall⟩ := Option.map_eq_some_iff.mp hall
  obtain ⟨hout, hlexemes, hbraces, hcount⟩ := by simpa only [Prod.mk.injEq] using hall
  have hparse := eq_ok_of_toOption hp
  have hrender := eq_ok_of_toOption hout
  obtain ⟨-, hscan, hfaults, hbalanced, -⟩ := rendered_text_scans_as_image hparse hrender
  rw [hlexemes] at hscan
  rw [hbraces] at hfaults hbalanced
  exact ⟨p, hparse, hrender, hcount, hscan, hfaults, hbalanced⟩

end BlockLang
