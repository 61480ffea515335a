/-
  BlockLang.Proofs.Rendering.Image

  The image of a tree in rendered text.

  The image says, node by node and in the order of the source, what a reader of rendered
  text comes across: the words of each declaration and statement, a semicolon behind those
  without a block, and a pair of braces around each block.  No token is a brace, so a scanner
  takes braces for errors.  Bodies of methods are headed by the types of the nearest
  declaration of their name in front of them.
-/
import BlockLang.Proofs.Rendering
import BlockLang.Proofs.Rendering.Words

namespace BlockLang

/-! ## Images -/

/-- The word of a type in lower case.  It may be a reserved word. -/
def Word.type (type : String) : Word :=
  .written (.ofWord (Text.lowercase type)) (Text.lowercase type)

/-- The words of a declared method. -/
def Signature.words (σ : Signature) : List Word :=
  .type σ.returnType :: .name σ.name ::
    parenthesized (commaed (σ.parameterTypes.map fun type => [.type type]))

/-- The words in front of a body of a method of some signature. -/
def BodyHead.words (head : BodyHead) (σ : Signature) : List Word :=
  .type σ.returnType :: .name head.name.name ::
    parenthesized (commaed (List.zipWith (fun type pattern => .type type :: Pattern.words pattern)
      σ.parameterTypes head.patterns))

/-- The brace that opens a block, as a piece of text. -/
def Piece.openBrace : Piece := .fault (.unexpectedCharacter '{')

/-- The brace that closes a block, as a piece of text. -/
def Piece.closeBrace : Piece := .fault (.unexpectedCharacter '}')

/-- A block behind the words that head it. -/
def blockImage (heading : List Word) (content : List Piece) : List Piece :=
  heading.map Word.piece ++ .openBrace :: (content ++ [.closeBrace])

/-- Words that a semicolon closes. -/
def statementImage (words : List Word) : List Piece := (words ++ [Word.semicolon]).map Word.piece

mutual

/-- The image of an item behind declarations with these signatures, the nearest first. -/
def Item.image (known : List Signature) : Item → List Piece
  | .classDecl name body => blockImage [.mark .kwClass, .name name.name] (imageOf known body)
  | .methodDecl name returnType parameterTypes =>
    statementImage (Signature.words ⟨name.name, returnType, parameterTypes⟩)
  | .varDecl name type => statementImage [.type type, .name name.name]
  | .assign target value => statementImage (.name target.name :: .mark .equal :: value.words)
  | .ifThen condition body _ =>
    blockImage (.mark .kwIf :: parenthesized condition.words) (imageOf known body)
  | .whileLoop condition body _ =>
    blockImage (.mark .kwWhile :: parenthesized condition.words) (imageOf known body)
  | .methodBody head body =>
    blockImage ((known.find? (·.name == head.name.name)).elim [] head.words) (imageOf known body)
  | .call callee arguments =>
    statementImage (callee.word :: parenthesized (commaed (wordsOfEach arguments)))
  | .expr e => statementImage e.words

/-- The image of items behind declarations with these signatures. -/
def imageOf (known : List Signature) : List Item → List Piece
  | [] => []
  | item :: items =>
    item.image known ++ imageOf ((item.declarations []).map (·.signature) ++ known) items

end

/-! ## Braces -/

mutual

/-- The braces around the blocks of an item. -/
def Item.braces : Item → List Char
  | .classDecl _ body => '{' :: (bracesOf body ++ ['}'])
  | .ifThen _ body _ => '{' :: (bracesOf body ++ ['}'])
  | .whileLoop _ body _ => '{' :: (bracesOf body ++ ['}'])
  | .methodBody _ body => '{' :: (bracesOf body ++ ['}'])
  | _ => []

/-- The braces around the blocks of items. -/
def bracesOf : List Item → List Char
  | [] => []
  | item :: items => item.braces ++ bracesOf items

end

mutual

/-- The number of classes, conditions, loops and bodies of methods in an item. -/
def Item.blockCount : Item → Nat
  | .classDecl _ body => blockCountOf body + 1
  | .ifThen _ body _ => blockCountOf body + 1
  | .whileLoop _ body _ => blockCountOf body + 1
  | .methodBody _ body => blockCountOf body + 1
  | _ => 0

/-- The number of classes, conditions, loops and bodies of methods in items. -/
def blockCountOf : List Item → Nat
  | [] => 0
  | item :: items => item.blockCount + blockCountOf items

end

/-- A sequence of braces in which each one has its partner. -/
inductive Balanced : List Char → Prop where
  | nil : Balanced []
  | pair {inner rest : List Char} : Balanced inner → Balanced rest →
      Balanced ('{' :: (inner ++ '}' :: rest))

theorem Balanced.append {cs ds : List Char} (h : Balanced cs) (h' : Balanced ds) :
    Balanced (cs ++ ds) := by
  induction h with
  | nil => exact h'
  | @pair inner rest hinner _ _ ih =>
      have hall := Balanced.pair hinner ih
      rwa [List.cons_append, List.append_assoc, List.cons_append]

theorem Balanced.enclose {cs : List Char} (h : Balanced cs) :
    Balanced ('{' :: (cs ++ ['}'])) :=
  .pair h .nil

mutual

theorem Item.balanced_braces : ∀ i : Item, Balanced i.braces
  | .classDecl _ body => (balanced_bracesOf body).enclose
  | .ifThen _ body _ => (balanced_bracesOf body).enclose
  | .whileLoop _ body _ => (balanced_bracesOf body).enclose
  | .methodBody _ body => (balanced_bracesOf body).enclose
  | .methodDecl _ _ _ => .nil
  | .varDecl _ _ => .nil
  | .assign _ _ => .nil
  | .call _ _ => .nil
  | .expr _ => .nil

/-- Braces open and close as the blocks around which they stand. -/
theorem balanced_bracesOf : ∀ is : List Item, Balanced (bracesOf is)
  | [] => .nil
  | i :: is => i.balanced_braces.append (balanced_bracesOf is)

end

/-- How often a brace stands around a block. -/
theorem count_enclose {c : Char} (hc : c = '{' ∨ c = '}') (cs : List Char) :
    ('{' :: (cs ++ ['}'])).count c = cs.count c + 1 := by
  rcases hc with rfl | rfl <;> simp

mutual

theorem Item.count_braces {c : Char} (hc : c = '{' ∨ c = '}') :
    ∀ i : Item, i.braces.count c = i.blockCount
  | .classDecl _ body => (count_enclose hc _).trans (congrArg (· + 1) (count_bracesOf hc body))
  | .ifThen _ body _ => (count_enclose hc _).trans (congrArg (· + 1) (count_bracesOf hc body))
  | .whileLoop _ body _ => (count_enclose hc _).trans (congrArg (· + 1) (count_bracesOf hc body))
  | .methodBody _ body => (count_enclose hc _).trans (congrArg (· + 1) (count_bracesOf hc body))
  | .methodDecl _ _ _ => rfl
  | .varDecl _ _ => rfl
  | .assign _ _ => rfl
  | .call _ _ => rfl
  | .expr _ => rfl

/-- There is one pair of braces for each block. -/
theorem count_bracesOf {c : Char} (hc : c = '{' ∨ c = '}') :
    ∀ is : List Item, (bracesOf is).count c = blockCountOf is
  | [] => rfl
  | i :: is => by
      rw [bracesOf, List.count_append, i.count_braces hc, count_bracesOf hc is]
      rfl

end

theorem faults_blockImage (heading : List Word) (content : List Piece) {braces : List Char}
    (h : content.filterMap Piece.fault? = braces.map .unexpectedCharacter) :
    (blockImage heading content).filterMap Piece.fault? =
      ('{' :: (braces ++ ['}'])).map .unexpectedCharacter := by
  rw [blockImage, List.filterMap_append, faults_words, List.map_cons, List.map_append, ← h]
  simp [Piece.openBrace, Piece.closeBrace, Piece.fault?]

mutual

theorem Item.faults_image : ∀ (known : List Signature) (i : Item),
    (i.image known).filterMap Piece.fault? = i.braces.map .unexpectedCharacter
  | known, .classDecl _ body => faults_blockImage _ _ (faults_imageOf known body)
  | known, .ifThen _ body _ => faults_blockImage _ _ (faults_imageOf known body)
  | known, .whileLoop _ body _ => faults_blockImage _ _ (faults_imageOf known body)
  | known, .methodBody _ body => faults_blockImage _ _ (faults_imageOf known body)
  | _, .methodDecl _ _ _ => faults_words _
  | _, .varDecl _ _ => faults_words _
  | _, .assign _ _ => faults_words _
  | _, .call _ _ => faults_words _
  | _, .expr _ => faults_words _

/-- Only braces are errors in an image. -/
theorem faults_imageOf : ∀ (known : List Signature) (is : List Item),
    (imageOf known is).filterMap Piece.fault? = (bracesOf is).map .unexpectedCharacter
  | _, [] => rfl
  | known, i :: is => by
      rw [imageOf, List.filterMap_append, bracesOf, List.map_append, i.faults_image known,
        faults_imageOf _ is]

end

end BlockLang
