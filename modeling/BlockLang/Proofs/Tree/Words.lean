/-
  BlockLang.Proofs.Tree.Words

  How a tree is written: the words that tokens and trees stand for.

  A word is all that matters of a token: the value of a literal, and kind and lexeme of
  every other token.  Marks and the keywords around blocks are spelled in one way only; the
  tree does not hold their spelling, so writing it down again gives the usual one.
-/
import BlockLang.Proofs.Tree.Phrase

namespace BlockLang

/-- What matters of a token: the value of a literal, or a kind and a lexeme. -/
inductive Word where
  | literal (value : Value)
  | written (kind : TokenKind) (lexeme : String)
  deriving DecidableEq

/-- The kinds of tokens that carry literals. -/
def literalKinds : List TokenKind := [.kwNull, .kwTrue, .kwFalse, .number, .string]

/-- The one spelling of marks and of the keywords around blocks. -/
def TokenKind.spelling? : TokenKind → Option String
  | leftParen => some "("
  | rightParen => some ")"
  | comma => some ","
  | equal => some "="
  | arrow => some "<-"
  | typeSeparator => some "::"
  | kwClass => some "class"
  | kwIf => some "if"
  | kwWhile => some "while"
  | kwEnd => some "end"
  | _ => none

theorem TokenKind.not_mem_literalKinds {kind : TokenKind} {spelling : String}
    (h : kind.spelling? = some spelling) : kind ∉ literalKinds := by
  intro hmem
  have hnone : ∀ kind ∈ literalKinds, kind.spelling? = none := by decide
  rw [hnone kind hmem] at h
  cases h

namespace Token

/-- The word of a token. -/
def word (t : Token) : Word :=
  if t.kind ∈ literalKinds then (t.literal.map .literal).getD (.written t.kind t.lexeme)
  else .written t.kind t.lexeme

/-- Whether a token is spelled as usual. -/
def Spelled (t : Token) : Prop := ∀ spelling, t.kind.spelling? = some spelling → t.lexeme = spelling

/-- A token in its usual spelling. -/
def respelled (t : Token) : Token := { t with lexeme := t.kind.spelling?.getD t.lexeme }

theorem word_respelled {t : Token} (h : t.kind ∉ literalKinds) :
    t.respelled.word = .written t.kind (t.kind.spelling?.getD t.lexeme) :=
  if_neg h

theorem word_respelled_of_literal {t : Token} {value : Value} (h : t.kind ∈ literalKinds)
    (hvalue : t.literal = some value) : t.respelled.word = .literal value := by
  have hword : t.respelled.word = (t.literal.map Word.literal).getD _ := if_pos h
  rw [hword, hvalue]
  rfl

end Token

/-! ## The words of a tree -/

/-- The word of a mark or of a keyword around a block. -/
def Word.mark (kind : TokenKind) : Word := .written kind (kind.spelling?.getD "")

/-- The word of a name. -/
def Word.name (name : String) : Word := .written .identifier name

/-- The word that opens a block. -/
def Word.blockStart : Word := .name "do"

/-- The word of an operator. -/
def Operator.word (op : Operator) : Word := .written op.kind op.lexeme

/-- The word of a callee: the name of a built-in method is a keyword. -/
def Callee.word : Callee → Word
  | ⟨name, .builtin _⟩ => .written .kwPrint name.name
  | ⟨name, .method _⟩ => .name name.name

/-- Words with commas between them. -/
def commaed (elements : List (List Word)) : List Word := [Word.mark .comma].intercalate elements

/-- Words in parentheses. -/
def parenthesized (inner : List Word) : List Word :=
  .mark .leftParen :: (inner ++ [.mark .rightParen])

/-- The words of a block whose content has these words. -/
def inBlock (content : List Word) : List Word := content ++ [.mark .kwEnd]

mutual

/-- The words of an expression. -/
def Expr.words : Expr → List Word
  | .assign target e => .name target.name :: .mark .equal :: e.words
  | .binary _ left op right => left.words ++ op.word :: right.words
  | .unary op e => op.word :: e.words
  | .grouping e => parenthesized e.words
  | .literal value => [.literal value]
  | .name id => [.name id.name]
  | .call callee args => callee.word :: parenthesized (commaed (wordsOfEach args))

/-- The words of each of some expressions. -/
def wordsOfEach : List Expr → List (List Word)
  | [] => []
  | e :: es => e.words :: wordsOfEach es

end

/-- The words of a parameter. -/
def Pattern.words : Pattern → List Word
  | .binding name => [.name name.name]
  | .value e => e.words

mutual

/-- The words of an item. -/
def Item.words : Item → List Word
  | .classDecl name body => .mark .kwClass :: .name name.name :: inBlock (wordsOfItems body)
  | .methodDecl name returnType parameterTypes =>
    .name name.name :: .mark .typeSeparator :: .name returnType :: .mark .arrow ::
      commaed (parameterTypes.map fun type => [.name type])
  | .varDecl name type => [.name name.name, .mark .typeSeparator, .name type]
  | .assign target e => .name target.name :: .mark .equal :: e.words
  | .ifThen e body _ => .mark .kwIf :: (e.words ++ .blockStart :: inBlock (wordsOfItems body))
  | .whileLoop e body _ =>
    .mark .kwWhile :: (e.words ++ .blockStart :: inBlock (wordsOfItems body))
  | .methodBody head body =>
    .name head.name.name :: (parenthesized (commaed (head.patterns.map Pattern.words)) ++
      .blockStart :: inBlock (wordsOfItems body))
  | .call callee args => callee.word :: parenthesized (commaed (wordsOfEach args))
  | .expr e => e.words

/-- The words of items. -/
def wordsOfItems : List Item → List Word
  | [] => []
  | item :: items => item.words ++ wordsOfItems items

end

/-- The words of a phrase. -/
def Phrase.words : Phrase → List Word
  | expr e => e.words
  | arguments es => commaed (wordsOfEach es)
  | types names => commaed (names.map fun type => [.name type])
  | pattern _ p => p.words
  | patterns _ ps => commaed (ps.map Pattern.words)
  | item i => i.words
  | items is => wordsOfItems is

@[simp] theorem commaed_nil : commaed [] = [] := rfl

@[simp] theorem commaed_singleton (element : List Word) : commaed [element] = element := by
  simp [commaed, List.intercalate]

@[simp] theorem commaed_cons_cons (element next : List Word) (more : List (List Word)) :
    commaed (element :: next :: more) = element ++ .mark .comma :: commaed (next :: more) := by
  simp [commaed, List.intercalate]

theorem Expr.words_ne_nil (e : Expr) : e.words ≠ [] := by
  cases e <;> simp [words, parenthesized]

end BlockLang
