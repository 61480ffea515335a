/-
  BlockLang.Proofs.StatementsReadBack

  Rendered declarations and assignments are read back.

  A rendered program without blocks consists of tokens alone, and its statements are what
  stands between the semicolons.  A declaration of a variable is read as its type in lower
  case and its name, an assignment of a literal as its target, the sign and a token of the
  same value.  Types are put in lower case without regard to reserved words, so a type such
  as `Class` is read as a reserved word.
-/
import BlockLang.Proofs.ExpressionRoundTrip
import BlockLang.Proofs.TokenImage

namespace BlockLang

/-- Whether an item declares a variable or assigns a literal. -/
def Item.isElementary : Item → Bool
  | .varDecl _ _ => true
  | .assign _ (.literal _) => true
  | _ => false

/-- A token of the lexeme `word` has the kind of this word in the table of reserved words,
    and is an identifier if the word is not in it. -/
structure Token.IsWord (t : Token) (word : String) : Prop where
  lexeme : t.lexeme = word
  kind : (t.kind = .identifier ∧ ∀ kind, (word, kind) ∉ keywords) ∨ (word, t.kind) ∈ keywords

/-- Some tokens say what an item says: that a variable of some type is declared, or that a
    literal is assigned to one. -/
inductive Item.ReadsAs : Item → List Token → Prop where
  | declaration {name : Ident} {type : String} {first second : Token} :
      first.IsWord (Text.lowercase type) →
      second.kind = .identifier → second.lexeme = name.name →
      ReadsAs (.varDecl name type) [first, second]
  | assignment {target : Ident} {value : Value} {first sign last : Token} :
      first.kind = .identifier → first.lexeme = target.name → sign.kind = .equal →
      last.kind ∈ literalKinds → last.literal = some value →
      ReadsAs (.assign target (.literal value)) [first, sign, last]

namespace Item

/-- There is no semicolon in a statement. -/
theorem ReadsAs.kind_ne_semicolon {i : Item} {ts : List Token} (h : i.ReadsAs ts) :
    ∀ t ∈ ts, (t.kind == .semicolon) = false := by
  have hkeywords : ∀ entry ∈ keywords, (entry.2 == .semicolon) = false := by decide
  have hliterals : ∀ kind ∈ literalKinds, (kind == .semicolon) = false := by decide
  cases h with
  | declaration hfirst hsecond _ =>
      refine List.forall_mem_cons.mpr ⟨?_, List.forall_mem_singleton.mpr ?_⟩
      · rcases hfirst.kind with ⟨hkind, -⟩ | hmem
        · rw [hkind]
          rfl
        · exact hkeywords _ hmem
      · rw [hsecond]
        rfl
  | assignment hfirst _ hsign hlast _ =>
      refine List.forall_mem_cons.mpr ⟨?_, List.forall_mem_cons.mpr ⟨?_, ?_⟩⟩
      · rw [hfirst]
        rfl
      · rw [hsign]
        rfl
      · exact List.forall_mem_singleton.mpr (hliterals _ hlast)

/-- The image of a statement is words that say what it says, and a semicolon. -/
theorem exists_statementImage {i : Item} (h : i.isElementary) (known : List Signature) :
    ∃ words, i.image known = statementImage words ∧
      ∀ ts : List Token, ts.map Token.piece = words.map Word.piece → i.ReadsAs ts := by
  cases i with
  | varDecl name type =>
      refine ⟨_, rfl, fun ts hts => ?_⟩
      obtain ⟨first, rest, rfl, hfirst, hrest⟩ := List.map_eq_cons_iff.mp hts
      obtain ⟨second, none, rfl, hsecond, hnone⟩ := List.map_eq_cons_iff.mp hrest
      obtain rfl := List.map_eq_nil_iff.mp hnone
      obtain ⟨hkind, hlexeme⟩ := Token.eq_of_piece_written hfirst
      obtain ⟨hidentifier, hname⟩ := Token.eq_of_piece_written hsecond
      exact .declaration ⟨hlexeme, hkind ▸ TokenKind.ofWord_cases _⟩ hidentifier hname
  | assign target e =>
      cases e with
      | literal value =>
          refine ⟨_, rfl, fun ts hts => ?_⟩
          obtain ⟨first, rest, rfl, hfirst, hrest⟩ := List.map_eq_cons_iff.mp hts
          obtain ⟨sign, rest, rfl, hsign, hrest⟩ := List.map_eq_cons_iff.mp hrest
          obtain ⟨last, none, rfl, hlast, hnone⟩ := List.map_eq_cons_iff.mp hrest
          obtain rfl := List.map_eq_nil_iff.mp hnone
          obtain ⟨hidentifier, hname⟩ := Token.eq_of_piece_written hfirst
          obtain ⟨hliteral, hvalue⟩ := Token.eq_of_piece_literal hlast
          exact .assignment hidentifier hname (Token.kind_of_piece_mark hsign) hliteral hvalue
      | _ => cases h
  | _ => cases h

/-- Such an item is rendered as one line, and no signature is added. -/
theorem exists_render {i : Item} (h : i.isElementary) (frames : Frames) :
    ∃ lines, i.render 0 frames = .ok (lines, frames) := by
  cases i with
  | varDecl name type => exact ⟨_, rfl⟩
  | assign target e => exact ⟨_, rfl⟩
  | _ => cases h

end Item

theorem exists_renderProgram {items : List Item} (h : ∀ i ∈ items, i.isElementary) :
    ∃ output, renderProgram items = .ok output := by
  have hlines (frames : Frames) : ∃ lines, renderItems 0 frames items = .ok (lines, frames) := by
    induction items with
    | nil => exact ⟨[], rfl⟩
    | cons i items ih =>
        obtain ⟨hi, hitems⟩ := List.forall_mem_cons.mp h
        obtain ⟨line, hline⟩ := i.exists_render hi frames
        obtain ⟨lines, hlines⟩ := ih hitems
        refine ⟨line ++ lines, ?_⟩
        rw [renderItems, hline]
        show (renderItems 0 frames items >>= _) = _
        rw [hlines]
        rfl
  obtain ⟨lines, hlines⟩ := hlines [[]]
  refine ⟨String.join (lines.map Line.render), ?_⟩
  rw [renderProgram, hlines]
  rfl

/-- Items without blocks have no braces around them. -/
theorem bracesOf_eq_nil {items : List Item} (h : ∀ i ∈ items, i.isElementary) :
    bracesOf items = [] := by
  induction items with
  | nil => rfl
  | cons i items ih =>
      obtain ⟨hi, hitems⟩ := List.forall_mem_cons.mp h
      rw [bracesOf, ih hitems, List.append_nil]
      cases i with
      | varDecl _ _ => rfl
      | assign _ _ => rfl
      | _ => cases hi

/-- Tokens that read as the image of statements are, between semicolons, those of one
    statement after the other. -/
theorem exists_statements {items : List Item} (h : ∀ i ∈ items, i.isElementary)
    {known : List Signature} {tokens : List Token}
    (htokens : tokens.map Token.piece = imageOf known items ++ [.ending]) :
    ∃ statements eof, tokens.splitOnP (·.kind == .semicolon) = statements ++ [[eof]] ∧
      eof.kind = .endOfInput ∧ List.Forall₂ Item.ReadsAs items statements := by
  induction items generalizing known tokens with
  | nil =>
      obtain ⟨eof, none, rfl, heof, hnone⟩ := List.map_eq_cons_iff.mp htokens
      obtain rfl := List.map_eq_nil_iff.mp hnone
      obtain ⟨hkind, -⟩ := Piece.token.inj heof
      refine ⟨[], eof, List.splitOnP_eq_singleton ?_, hkind, .nil⟩
      exact List.forall_mem_singleton.mpr (hkind ▸ rfl)
  | cons i items ih =>
      obtain ⟨hi, hitems⟩ := List.forall_mem_cons.mp h
      obtain ⟨words, himage, hreads⟩ := i.exists_statementImage hi known
      rw [imageOf, himage, statementImage, List.map_append, List.append_assoc,
        List.append_assoc] at htokens
      obtain ⟨statement, rest, rfl, hstatement, hrest⟩ := List.map_eq_append_iff.mp htokens
      obtain ⟨semicolon, rest, rfl, hsemicolon, hrest⟩ := List.map_eq_cons_iff.mp hrest
      obtain ⟨statements, eof, hsplit, heof, hall⟩ := ih hitems hrest
      have hread := hreads statement hstatement
      have hkind : (semicolon.kind == .semicolon) = true := by
        rw [(Token.eq_of_piece_written hsemicolon).1]
        rfl
      refine ⟨statement :: statements, eof, ?_, heof, .cons hread hall⟩
      rw [List.splitOnP_append_cons_of_forall_mem hread.kind_ne_semicolon _ hkind, hsplit]
      rfl

/-- Accepted programs of declarations of variables and assignments of literals are rendered,
    the rendered text is tokens only, and between its semicolons stand, in the order of the
    source and up to the end, the tokens of these declarations and assignments. -/
theorem statements_read_back {text : String} {p : Parsed} (hp : parse text = .ok p)
    (hitems : ∀ i ∈ p.items, i.isElementary) :
    ∃ output tokens statements eof,
      renderProgram p.items = .ok output ∧ tokenize output = .ok tokens ∧
      tokens.splitOnP (·.kind == .semicolon) = statements ++ [[eof]] ∧
      eof.kind = .endOfInput ∧ List.Forall₂ Item.ReadsAs p.items statements := by
  obtain ⟨output, hout⟩ := exists_renderProgram hitems
  have hscans := scans_of_renderProgram hp hout
  have hfaults : (imageOf [] p.items).filterMap Piece.fault? = [] := by
    rw [faults_imageOf, bracesOf_eq_nil hitems]
    rfl
  obtain ⟨tokens, htokens, hpieces⟩ := hscans.exists_tokenize hfaults
  obtain ⟨statements, eof, hsplit, heof, hall⟩ := exists_statements hitems hpieces
  exact ⟨output, tokens, statements, eof, hout, htokens, hsplit, heof, hall⟩

/-- Types that are words and reserved words in lower case, and a string in which there are
    semicolons, comments and line breaks. -/
def elementaryText : String :=
  "size :: Int\nkind :: Print\nsize = 007 kind = \"; # x\n;\"\nsize = 2.50\nkind = null\n"

/-- What `elementaryText` is rendered as. -/
def elementaryOutput : String :=
  "int size;\nprint kind;\nsize = 7;\nkind = \"; # x\n;\";\nsize = 2.5;\nkind = null;\n"

theorem quoted_semicolons_read_back :
    ∃ p tokens statements eof, parse elementaryText = .ok p ∧
      (∀ i ∈ p.items, i.isElementary) ∧ renderProgram p.items = .ok elementaryOutput ∧
      tokenize elementaryOutput = .ok tokens ∧
      tokens.splitOnP (·.kind == .semicolon) = statements ++ [[eof]] ∧
      eof.kind = .endOfInput ∧ List.Forall₂ Item.ReadsAs p.items statements := by
  have hall : ((parse elementaryText).toOption.map fun p =>
      (p.items.all Item.isElementary, (renderProgram p.items).toOption)) =
      some (true, some elementaryOutput) := by
    decide +kernel
  obtain ⟨p, hp, hall⟩ := Option.map_eq_some_iff.mp hall
  obtain ⟨hitems, hout⟩ := Prod.mk.inj hall
  have hparse := eq_ok_of_toOption hp
  have hrender := eq_ok_of_toOption hout
  have helementary := List.all_eq_true.mp hitems
  obtain ⟨output, tokens, statements, eof, hrender', htokens, hrest⟩ :=
    statements_read_back hparse helementary
  obtain rfl := Except.ok.inj (hrender.symm.trans hrender')
  exact ⟨p, tokens, statements, eof, hparse, helementary, hrender, htokens, hrest⟩

/-- The program `x :: Class`. -/
def classTyped : Parsed where
  items := [.varDecl ⟨"x", 1⟩ "Class"]
  scopes := { vars := #[⟨"x", none, none, none⟩], global := { vars := [0] } }

/-- A variable of the type `Class` is declared by the reserved word `class` in rendered text,
    so the first token of the statement is no identifier. -/
theorem class_type_read_as_reserved :
    parse "x :: Class\n" = .ok classTyped ∧ (∀ i ∈ classTyped.items, i.isElementary) ∧
      renderProgram classTyped.items = .ok "class x;\n" ∧
      (tokenize "class x;\n").map (fun tokens => tokens.map fun t => (t.kind, t.lexeme)) =
        .ok [(.kwClass, "class"), (.identifier, "x"), (.semicolon, ";"), (.endOfInput, "")] :=
  ⟨by cbv, by decide, by cbv, by cbv⟩

end BlockLang
