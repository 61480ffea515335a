/-
  BlockLang.Proofs.Tree.Lines

  Trees without their lines.

  Names, operators and blocks remember the line where they are written, for messages only.
  Two trees are the same up to lines when they become equal once every line is set to zero.
-/
import BlockLang.Proofs.Tree.Words

namespace BlockLang

/-- All of a token but the place where it stands. -/
def Token.face (t : Token) : TokenKind × String × Option Value := (t.kind, t.lexeme, t.literal)

/-- A name without its line. -/
def Ident.unlined (id : Ident) : Ident := ⟨id.name, 0⟩

/-- An operator without its line. -/
def Operator.unlined (op : Operator) : Operator := ⟨op.kind, op.lexeme, 0⟩

/-- A callee without its line. -/
def Callee.unlined (callee : Callee) : Callee := ⟨callee.name.unlined, callee.target⟩

mutual

/-- An expression without its lines. -/
def Expr.unlined : Expr → Expr
  | .assign target value => .assign target.unlined value.unlined
  | .binary level left op right => .binary level left.unlined op.unlined right.unlined
  | .unary op operand => .unary op.unlined operand.unlined
  | .grouping inner => .grouping inner.unlined
  | .literal value => .literal value
  | .name id => .name id.unlined
  | .call callee arguments => .call callee.unlined (unlinedExprs arguments)

/-- Expressions without their lines. -/
def unlinedExprs : List Expr → List Expr
  | [] => []
  | e :: es => e.unlined :: unlinedExprs es

end

/-- A parameter without its lines. -/
def Pattern.unlined : Pattern → Pattern
  | .binding name => .binding name.unlined
  | .value e => .value e.unlined

/-- The head of a body without its lines. -/
def BodyHead.unlined (head : BodyHead) : BodyHead :=
  ⟨head.id, head.method, head.name.unlined, head.patterns.map Pattern.unlined⟩

mutual

/-- An item without its lines. -/
def Item.unlined : Item → Item
  | .classDecl name body => .classDecl name.unlined (unlinedItems body)
  | .methodDecl name returnType parameterTypes =>
    .methodDecl name.unlined returnType parameterTypes
  | .varDecl name type => .varDecl name.unlined type
  | .assign target value => .assign target.unlined value.unlined
  | .ifThen condition body _ => .ifThen condition.unlined (unlinedItems body) 0
  | .whileLoop condition body _ => .whileLoop condition.unlined (unlinedItems body) 0
  | .methodBody head body => .methodBody head.unlined (unlinedItems body)
  | .call callee arguments => .call callee.unlined (unlinedExprs arguments)
  | .expr e => .expr e.unlined

/-- Items without their lines. -/
def unlinedItems : List Item → List Item
  | [] => []
  | item :: items => item.unlined :: unlinedItems items

end

/-- A body of a method without its lines. -/
def MethodBody.unlined (body : MethodBody) : MethodBody :=
  ⟨body.head.unlined, unlinedItems body.block⟩

/-- A program without its lines. -/
def Parsed.unlined (p : Parsed) : Parsed := ⟨unlinedItems p.items, p.scopes⟩

@[simp] theorem Ident.unlined_name (id : Ident) : id.unlined.name = id.name := rfl

@[simp] theorem Operator.unlined_kind (op : Operator) : op.unlined.kind = op.kind := rfl

theorem unlinedExprs_eq_map (es : List Expr) : unlinedExprs es = es.map Expr.unlined := by
  induction es with
  | nil => rfl
  | cons e es ih => rw [unlinedExprs, ih, List.map_cons]

/-- Whether an expression is a constant does not depend on lines. -/
theorem Expr.isConstant_unlined (e : Expr) : e.unlined.isConstant = e.isConstant := by
  induction e using Expr.isConstant.induct with
  | case1 value => rfl
  | case2 op operand ih => rw [unlined, isConstant, isConstant, ih]
  | case3 inner ih => rw [unlined, isConstant, isConstant, ih]
  | case4 e hliteral hunary hgrouping =>
      cases e with
      | literal value => exact absurd rfl (hliteral value)
      | unary op operand => exact absurd rfl (hunary op operand)
      | grouping inner => exact absurd rfl (hgrouping inner)
      | _ => rfl

namespace Token

variable {t t' : Token}

theorem kind_eq (h : t.face = t'.face) : t.kind = t'.kind := congrArg Prod.fst h

theorem lexeme_eq (h : t.face = t'.face) : t.lexeme = t'.lexeme :=
  congrArg (fun face => face.2.1) h

theorem literal_eq (h : t.face = t'.face) : t.literal = t'.literal :=
  congrArg (fun face => face.2.2) h

theorem isDo_eq (h : t.face = t'.face) : t.isDo = t'.isDo := by
  rw [isDo, isDo, kind_eq h, lexeme_eq h]

theorem unlined_ident_eq (h : t.face = t'.face) :
    (Ident.ofToken t).unlined = (Ident.ofToken t').unlined := by
  simp only [Ident.unlined, Ident.ofToken, lexeme_eq h]

theorem unlined_operator_eq (h : t.face = t'.face) :
    (Operator.ofToken t).unlined = (Operator.ofToken t').unlined := by
  simp only [Operator.unlined, Operator.ofToken, lexeme_eq h, kind_eq h]

end Token

end BlockLang
