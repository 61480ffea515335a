/-
  BlockLang.Tree

  The tree of a program.

  A program is a list of items: declarations and statements, which may be mixed
  freely in every block.  Bodies of methods are items of their own and stand apart
  from the declaration of the method; a method may have several.
-/
import BlockLang.Token.Basic
import BlockLang.Scope.Basic

namespace BlockLang

/-- A name and the line where it is written. -/
structure Ident where
  name : String
  line : Nat
  deriving DecidableEq, Inhabited

/-- The identifier that a token writes. -/
def Ident.ofToken (t : Token) : Ident := ⟨t.lexeme, t.line⟩

/-- An operator as it is written. -/
structure Operator where
  kind : TokenKind
  lexeme : String
  line : Nat
  deriving DecidableEq, Inhabited

/-- The operator that a token writes. -/
def Operator.ofToken (t : Token) : Operator := ⟨t.kind, t.lexeme, t.line⟩

/-- The levels of binary operators, from the loosest to the tightest. -/
inductive Level where
  | logic
  | equality
  | comparison
  | addition
  | multiplication
  deriving DecidableEq

/-- The operators of a level. -/
def Level.operators : Level → List TokenKind
  | logic => [.kwAnd, .kwOr]
  | equality => [.equalEqual, .bangEqual]
  | comparison => [.greater, .greaterEqual, .less, .lessEqual]
  | addition => [.plus, .minus]
  | multiplication => [.star, .slash]

/-- The methods that every program has. -/
inductive Builtin where
  | print
  deriving DecidableEq

/-- The name of a built-in method. -/
def Builtin.name : Builtin → String
  | print => "print"

/-- The number of arguments of a built-in method. -/
def Builtin.arity : Builtin → Nat
  | print => 1

/-- What a call invokes. -/
inductive CallTarget where
  | builtin (f : Builtin)
  | method (id : MethodId)
  deriving DecidableEq

/-- The name in front of the arguments of a call, and what it stands for. -/
structure Callee where
  name : Ident
  target : CallTarget
  deriving DecidableEq

/-- An expression. -/
inductive Expr where
  | assign (target : Ident) (value : Expr)
  | binary (level : Level) (left : Expr) (op : Operator) (right : Expr)
  | unary (op : Operator) (operand : Expr)
  | grouping (inner : Expr)
  | literal (value : Value)
  | name (id : Ident)
  | call (callee : Callee) (arguments : List Expr)
  deriving Inhabited

/-- Whether an expression is a literal under any number of signs and parentheses. -/
def Expr.isConstant : Expr → Bool
  | literal _ => true
  | unary _ operand => operand.isConstant
  | grouping inner => inner.isConstant
  | _ => false

/-- What a parameter of a body accepts. -/
inductive Pattern where
  /-- Accepts every argument and stores it in the method's variable of that name. -/
  | binding (name : Ident)
  /-- Accepts an argument that equals the value. -/
  | value (e : Expr)

/-- What stands in front of the block of a method body. -/
structure BodyHead where
  id : BodyId
  method : MethodId
  name : Ident
  patterns : List Pattern

/-- A declaration or a statement. -/
inductive Item where
  | classDecl (name : Ident) (body : List Item)
  | methodDecl (name : Ident) (returnType : String) (parameterTypes : List String)
  | varDecl (name : Ident) (type : String)
  | assign (target : Ident) (value : Expr)
  | ifThen (condition : Expr) (body : List Item) (line : Nat)
  | whileLoop (condition : Expr) (body : List Item) (line : Nat)
  | methodBody (head : BodyHead) (body : List Item)
  | call (callee : Callee) (arguments : List Expr)
  | expr (e : Expr)

/-- One way to carry out a method. -/
structure MethodBody where
  head : BodyHead
  block : List Item

mutual

/-- The method bodies in an item, each in front of those nested in it. -/
def Item.bodies : Item → List MethodBody
  | .classDecl _ body => bodiesOf body
  | .ifThen _ body _ => bodiesOf body
  | .whileLoop _ body _ => bodiesOf body
  | .methodBody head body => ⟨head, body⟩ :: bodiesOf body
  | _ => []

/-- The method bodies in a list of items. -/
def bodiesOf : List Item → List MethodBody
  | [] => []
  | item :: items => item.bodies ++ bodiesOf items

end

/-- A program: its tree and the table of all that it declares. -/
structure Parsed where
  items : List Item
  scopes : ScopeTable

end BlockLang
