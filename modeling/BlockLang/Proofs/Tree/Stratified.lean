/-
  BlockLang.Proofs.Tree.Stratified

  The trees of the precedence grammar.

  Expressions are ordered by how tightly they hold together: assignments least, then
  operations by their level, then signs, and most of all what needs no operator.  An
  expression is stratified when every operand in it is tight enough for its place, so that
  no parentheses are needed.  Whether the names in it stand for something depends on the
  table and on the place where it is read.
-/
import BlockLang.Proofs.Tree.Words
import BlockLang.Scope.Lookup

namespace BlockLang

/-! ## Expressions everywhere in a phrase -/

namespace Phrase

/-- Whether `P` holds of every expression in a phrase, at whatever depth it stands. -/
def Each (P : Expr → Prop) (φ : Phrase) : Prop := ∀ path e, φ.at? path = some (expr e) → P e

variable {P : Expr → Prop} {φ ψ : Phrase}

theorem Each.part (h : φ.Each P) (hψ : ψ ∈ φ.parts) : ψ.Each P := by
  intro path e he
  obtain ⟨k, hk⟩ := List.getElem?_of_mem hψ
  refine h (k :: path) e ?_
  rw [at?, hk]
  exact he

theorem Each.here {e : Expr} (h : (expr e).Each P) : P e := h [] e rfl

theorem Each.at_path {path : Path} (h : φ.Each P) (hψ : φ.at? path = some ψ) :
    ψ.Each P := by
  intro path' e he
  refine h (path ++ path') e ?_
  rw [at?_append, hψ]
  exact he

/-- What holds of the expression that a phrase is, and of those in its parts, holds of each
    expression in it. -/
theorem each_of_parts (hhere : ∀ e, φ = expr e → P e) (hparts : ∀ part ∈ φ.parts, part.Each P) :
    φ.Each P := by
  intro path e he
  cases path with
  | nil => exact hhere e (Option.some.inj he)
  | cons k path =>
      rw [at?] at he
      obtain ⟨part, hk, hpart⟩ := Option.bind_eq_some_iff.mp he
      exact hparts part (List.mem_of_getElem? hk) path e hpart

theorem each_expr {e : Expr} (he : P e) (hparts : ∀ part ∈ (expr e).parts, part.Each P) :
    (expr e).Each P :=
  each_of_parts (fun _ h => Phrase.expr.inj h ▸ he) hparts

theorem each_expr_iff {e : Expr} :
    (expr e).Each P ↔ P e ∧ ∀ part ∈ (expr e).parts, part.Each P :=
  ⟨fun h => ⟨h.here, fun _ hpart => h.part hpart⟩, fun h => each_expr h.1 h.2⟩

/-- Where a phrase is no expression, only its parts matter. -/
theorem each_parts (hφ : ∀ e, φ ≠ expr e) (hparts : ∀ part ∈ φ.parts, part.Each P) : φ.Each P :=
  each_of_parts (fun e h => absurd h (hφ e)) hparts

theorem each_arguments {es : List Expr} :
    (arguments es).Each P ↔ ∀ e ∈ es, (expr e).Each P := by
  constructor
  · intro h
    induction es with
    | nil => exact fun _ he => absurd he List.not_mem_nil
    | cons e es ih =>
        refine List.forall_mem_cons.mpr ⟨h.part List.mem_cons_self, ih (h.part ?_)⟩
        exact List.mem_cons_of_mem _ List.mem_cons_self
  · intro h
    induction es with
    | nil => exact each_parts nofun fun _ hpart => absurd hpart List.not_mem_nil
    | cons e es ih =>
        obtain ⟨he, hes⟩ := List.forall_mem_cons.mp h
        refine each_parts nofun (List.forall_mem_cons.mpr ⟨he, ?_⟩)
        exact List.forall_mem_singleton.mpr (ih hes)

end Phrase

/-! ## Precedence -/

/-- How tightly the operators of a level bind. -/
def Level.tightness : Level → Nat
  | logic => 1
  | equality => 2
  | comparison => 3
  | addition => 4
  | multiplication => 5

/-- The tightness of signs and of what stands under them. -/
def signTightness : Nat := 6

theorem Level.tightness_pos (level : Level) : 0 < level.tightness := by
  cases level <;> decide

theorem Level.tightness_lt (level : Level) : level.tightness < signTightness := by
  cases level <;> decide

namespace Expr

/-- How tightly an expression holds together. -/
def tightness : Expr → Nat
  | assign _ _ => 0
  | binary level _ _ _ => level.tightness
  | unary _ _ => signTightness
  | _ => signTightness + 1

theorem tightness_le (e : Expr) : e.tightness ≤ signTightness + 1 := by
  cases e with
  | assign _ _ => exact Nat.zero_le _
  | binary level _ _ _ => exact Nat.le_succ_of_le (Nat.le_of_lt level.tightness_lt)
  | unary _ _ => exact Nat.le_succ _
  | _ => exact Nat.le_refl _

/-- Whether an operation has an operator of its own level and operands that hold together
    tightly enough for their places.  Operations of one level group to the left, so a right
    operand has to be tighter than a left one. -/
def Layered : Expr → Prop
  | binary level left op right =>
    op.kind ∈ level.operators ∧ level.tightness ≤ left.tightness ∧
      level.tightness < right.tightness
  | unary op operand => (op.kind = .bang ∨ op.kind = .minus) ∧ signTightness ≤ operand.tightness
  | _ => True

/-- An expression of the precedence grammar.  Assignments are the loosest expressions, so they
    stand only where no operand does: as the whole, as a value that is assigned, in parentheses
    and as arguments. -/
def Stratified (e : Expr) : Prop := (Phrase.expr e).Each Layered

/-- Whether what an expression itself names is found in a table from a place. -/
def Refers (t : ScopeTable) (c : Cursor) : Expr → Prop
  | name id => (t.resolve id.name c).isSome
  | assign target _ => ∃ v, t.resolve target.name c = some (.var v)
  | call ⟨callee, .method id⟩ _ => t.resolveMethod callee.name c = some id
  | _ => True

/-- Whether all names, call targets and assignment targets in an expression are found. -/
def Resolves (t : ScopeTable) (c : Cursor) (e : Expr) : Prop := (Phrase.expr e).Each (Refers t c)

end Expr

/-! ## The tokens of an expression -/

/-- A token that names a callee. -/
inductive Callee.WrittenBy : Callee → Token → Prop where
  | builtin {t : Token} : t.kind = .kwPrint → WrittenBy ⟨.ofToken t, .builtin .print⟩ t
  | method {t : Token} {id : MethodId} : t.kind = .identifier →
      WrittenBy ⟨.ofToken t, .method id⟩ t

/-- The tokens of expressions and arguments: names, operators and literals are those of the
    tree, and marks stand around and between the parts. -/
inductive Phrase.WrittenBy : Phrase → List Token → Prop where
  | name {t} : t.kind = .identifier → WrittenBy (.expr (.name (.ofToken t))) [t]
  | literal {t v} : t.kind ∈ literalKinds → t.literal = some v →
      WrittenBy (.expr (.literal v)) [t]
  | grouping {opening closing ts e} : opening.kind = .leftParen → closing.kind = .rightParen →
      WrittenBy (.expr e) ts →
      WrittenBy (.expr (.grouping e)) (opening :: (ts ++ [closing]))
  | unary {t ts e} : WrittenBy (.expr e) ts →
      WrittenBy (.expr (.unary (.ofToken t) e)) (t :: ts)
  | binary {t ls rs level left right} : WrittenBy (.expr left) ls → WrittenBy (.expr right) rs →
      WrittenBy (.expr (.binary level left (.ofToken t) right)) (ls ++ t :: rs)
  | assign {t equal ts e} : t.kind = .identifier → equal.kind = .equal →
      WrittenBy (.expr e) ts →
      WrittenBy (.expr (.assign (.ofToken t) e)) (t :: equal :: ts)
  | call {t opening closing ts callee args} : callee.WrittenBy t → opening.kind = .leftParen →
      closing.kind = .rightParen → WrittenBy (.arguments args) ts →
      WrittenBy (.expr (.call callee args)) (t :: opening :: (ts ++ [closing]))
  | noArguments : WrittenBy (.arguments []) []
  | lastArgument {ts e} : WrittenBy (.expr e) ts → WrittenBy (.arguments [e]) ts
  | argument {comma ts ts' e e' es} : comma.kind = .comma → WrittenBy (.expr e) ts →
      WrittenBy (.arguments (e' :: es)) ts' →
      WrittenBy (.arguments (e :: e' :: es)) (ts ++ comma :: ts')

/-- The tokens of an expression. -/
abbrev Expr.WrittenBy (e : Expr) (tokens : List Token) : Prop := (Phrase.expr e).WrittenBy tokens

/-- A kind of token behind which an expression does not go on: no binary operator, no opening
    parenthesis and no `=`. -/
def TokenKind.EndsExpression (kind : TokenKind) : Prop :=
  (∀ level : Level, kind ∉ level.operators) ∧ kind ≠ .leftParen ∧ kind ≠ .equal

instance (kind : TokenKind) : Decidable kind.EndsExpression :=
  decidable_of_iff
    ((∀ level ∈ ([.logic, .equality, .comparison, .addition, .multiplication] : List Level),
      kind ∉ level.operators) ∧ kind ≠ .leftParen ∧ kind ≠ .equal)
    (and_congr_left' ⟨fun h level => h level (by cases level <;> decide), fun h level _ => h level⟩)

end BlockLang
