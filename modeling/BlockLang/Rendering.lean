/-
  BlockLang.Rendering

  Programs as brace-style text.

  Blocks stand in braces, statements end in semicolons, and types are written in
  lower case in front of the names that they belong to.  A method body is written
  with the signature of the nearest declaration of its name that was rendered
  before it; every class and method body opens a frame of its own for signatures,
  the other blocks share the frame around them.
-/
import BlockLang.Tree
import BlockLang.Diagnostic
import BlockLang.Text.Lowercase

namespace BlockLang

/-! ## Errors -/

/-- What can be wrong with a method body. -/
inductive RenderFault where
  | missingSignature
  | literalPattern
  | parameterCount (expected found : Nat)
  deriving DecidableEq

/-- A method body that cannot be rendered. -/
structure RenderError where
  fault : RenderFault
  name : String
  line : Nat
  deriving DecidableEq

namespace RenderError

/-- The wording of an error. -/
def message (e : RenderError) : String :=
  let name := e.name
  let line := e.line
  match e.fault with
  | .missingSignature => s!"Method body '{name}' at line {line} has no visible declaration"
  | .literalPattern => s!"Method body '{name}' at line {line} matches on a literal value"
  | .parameterCount expected found =>
    s!"Method body '{name}' at line {line} has {found} parameters, expected {expected}"

/-- The diagnostic of an error. -/
def diagnostic (e : RenderError) : Diagnostic := ⟨.rendering, e.message, some e.line⟩

end RenderError

/-! ## Expressions -/

/-- The text of a sign in front of an operand.  A blank keeps two signs apart. -/
def renderSign (sign operand : String) : String :=
  match operand.toList.head? with
  | some '-' | some '!' => sign ++ " " ++ operand
  | _ => sign ++ operand

/-- The text of a call. -/
def renderCall (callee : Callee) (arguments : List String) : String :=
  let name := match callee.target with
    | .builtin f => f.name
    | .method _ => callee.name.name
  name ++ "(" ++ String.intercalate ", " arguments ++ ")"

/-- The text of an assignment. -/
def renderAssignment (target : Ident) (value : String) : String :=
  target.name ++ " = " ++ value

mutual

/-- The text of an expression. -/
def Expr.render : Expr → String
  | .assign target value => renderAssignment target value.render
  | .binary _ left op right => left.render ++ " " ++ op.lexeme ++ " " ++ right.render
  | .unary op operand => renderSign op.lexeme operand.render
  | .grouping inner => "(" ++ inner.render ++ ")"
  | .literal value => value.literalText
  | .name id => id.name
  | .call callee arguments => renderCall callee (renderExprs arguments)

/-- The texts of expressions. -/
def renderExprs : List Expr → List String
  | [] => []
  | e :: es => e.render :: renderExprs es

end

/-! ## Items -/

/-- A line of rendered text. -/
structure Line where
  indent : Nat
  text : String
  deriving DecidableEq

/-- A line with its indentation and its end. -/
def Line.render (l : Line) : String :=
  String.join (List.replicate l.indent "    ") ++ l.text ++ "\n"

/-- A declared method as rendering sees it. -/
structure Signature where
  name : String
  returnType : String
  parameterTypes : List String
  deriving DecidableEq

/-- The signatures rendered so far: the innermost frame first, and in each frame the
    latest first. -/
abbrev Frames := List (List Signature)

/-- The nearest signature of a name. -/
def findSignature? (frames : Frames) (name : String) : Option Signature :=
  frames.flatten.find? (·.name == name)

/-- Adds a signature to the innermost frame. -/
def addSignature (signature : Signature) : Frames → Frames
  | [] => []
  | frame :: frames => (signature :: frame) :: frames

/-- A type as it is rendered. -/
def renderType (type : String) : String := Text.lowercase type

/-- The parameters of a method body, all of which have to be names. -/
def renderParameters : List Pattern → List String → Option (List String)
  | .binding name :: patterns, type :: types =>
    (renderParameters patterns types).map ((renderType type ++ " " ++ name.name) :: ·)
  | .value _ :: _, _ :: _ => none
  | _, _ => some []

/-- What stands in front of the block of a method body. -/
def renderHead (frames : Frames) (head : BodyHead) : Except RenderError String :=
  let fault (f : RenderFault) : RenderError := ⟨f, head.name.name, head.name.line⟩
  match findSignature? frames head.name.name with
  | none => .error (fault .missingSignature)
  | some signature =>
    let expected := signature.parameterTypes.length
    let found := head.patterns.length
    if expected ≠ found then .error (fault (.parameterCount expected found))
    else match renderParameters head.patterns signature.parameterTypes with
      | none => .error (fault .literalPattern)
      | some parameters =>
        .ok (renderType signature.returnType ++ " " ++ head.name.name ++
          "(" ++ String.intercalate ", " parameters ++ ")")

/-- The text of a method declaration. -/
def renderSignature (s : Signature) : String :=
  renderType s.returnType ++ " " ++ s.name ++
    "(" ++ String.intercalate ", " (s.parameterTypes.map renderType) ++ ");"

/-- The brace in front of the content of a block. -/
def openingBrace : String := String.singleton '{'

/-- The brace behind the content of a block. -/
def closingBrace : String := String.singleton '}'

/-- Rendered content in braces behind a heading. -/
def bracedLines (indent : Nat) (heading : String) (content : List Line) : List Line :=
  ⟨indent, heading ++ " " ++ openingBrace⟩ :: content ++ [⟨indent, closingBrace⟩]

mutual

/-- The lines of an item, and the signatures known behind it. -/
def Item.render (indent : Nat) (frames : Frames) :
    Item → Except RenderError (List Line × Frames)
  | .classDecl name body => do
    let (content, _) ← renderItems (indent + 1) ([] :: frames) body
    return (bracedLines indent ("class " ++ name.name) content, frames)
  | .methodDecl name returnType parameterTypes =>
    let signature : Signature := ⟨name.name, returnType, parameterTypes⟩
    return ([⟨indent, renderSignature signature⟩], addSignature signature frames)
  | .varDecl name type =>
    return ([⟨indent, renderType type ++ " " ++ name.name ++ ";"⟩], frames)
  | .assign target value =>
    return ([⟨indent, renderAssignment target value.render ++ ";"⟩], frames)
  | .ifThen condition body _ => do
    let (content, frames) ← renderItems (indent + 1) frames body
    return (bracedLines indent ("if (" ++ condition.render ++ ")") content, frames)
  | .whileLoop condition body _ => do
    let (content, frames) ← renderItems (indent + 1) frames body
    return (bracedLines indent ("while (" ++ condition.render ++ ")") content, frames)
  | .methodBody head body => do
    let heading ← renderHead frames head
    let (content, _) ← renderItems (indent + 1) ([] :: frames) body
    return (bracedLines indent heading content, frames)
  | .call callee arguments =>
    return ([⟨indent, renderCall callee (renderExprs arguments) ++ ";"⟩], frames)
  | .expr e => return ([⟨indent, e.render ++ ";"⟩], frames)

/-- The lines of items, and the signatures known behind them. -/
def renderItems (indent : Nat) (frames : Frames) :
    List Item → Except RenderError (List Line × Frames)
  | [] => return ([], frames)
  | item :: items => do
    let (lines, frames) ← item.render indent frames
    let (more, frames) ← renderItems indent frames items
    return (lines ++ more, frames)

end

/-- The text of a program. -/
def renderProgram (items : List Item) : Except RenderError String := do
  let (lines, _) ← renderItems 0 [[]] items
  return String.join (lines.map Line.render)

end BlockLang
