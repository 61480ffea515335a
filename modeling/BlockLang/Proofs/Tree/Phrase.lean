/-
  BlockLang.Proofs.Tree.Phrase

  The places in the tree of a program.

  A phrase is a piece of a program that is read, and mostly carried out, on its own.
  Its parts stand in the order in which they are written, so a list of indices leads
  from a phrase to every phrase inside it.  Equal phrases at different places can
  stand for different things; a path tells them apart.
-/
import BlockLang.Tree

namespace BlockLang

/-- A piece of a program. -/
inductive Phrase where
  | expr (e : Expr)
  | arguments (es : List Expr)
  | types (names : List String)
  /-- A parameter of a body of a method. -/
  | pattern (method : MethodId) (p : Pattern)
  | patterns (method : MethodId) (ps : List Pattern)
  | item (i : Item)
  | items (is : List Item)

/-- The way from a phrase to one inside it: which part to take, step by step. -/
abbrev Path := List Nat

namespace Phrase

/-- The phrases that a phrase directly consists of. -/
def parts : Phrase → List Phrase
  | expr (.assign _ e) => [expr e]
  | expr (.binary _ left _ right) => [expr left, expr right]
  | expr (.unary _ e) => [expr e]
  | expr (.grouping e) => [expr e]
  | expr (.literal _) => []
  | expr (.name _) => []
  | expr (.call _ es) => [arguments es]
  | arguments [] => []
  | arguments (e :: es) => [expr e, arguments es]
  | types (_ :: name :: names) => [types (name :: names)]
  | types _ => []
  | pattern _ (.binding _) => []
  | pattern _ (.value e) => [expr e]
  | patterns _ [] => []
  | patterns m (p :: ps) => [pattern m p, patterns m ps]
  | item (.classDecl _ body) => [items body]
  | item (.methodDecl _ _ names) => [types names]
  | item (.varDecl _ _) => []
  | item (.assign _ e) => [expr e]
  | item (.ifThen e body _) => [expr e, items body]
  | item (.whileLoop e body _) => [expr e, items body]
  | item (.methodBody head body) => [patterns head.method head.patterns, items body]
  | item (.call _ es) => [arguments es]
  | item (.expr e) => [expr e]
  | items [] => []
  | items (i :: is) => [item i, items is]

theorem sizeOf_lt_of_mem_parts {φ part : Phrase} (h : part ∈ φ.parts) :
    sizeOf part < sizeOf φ := by
  revert part
  show ∀ part ∈ φ.parts, sizeOf part < sizeOf φ
  cases φ with
  | expr e => cases e <;> simp +arith [parts]
  | arguments es => cases es <;> simp +arith [parts]
  | types names => rcases names with _ | ⟨_, _ | ⟨_, _⟩⟩ <;> simp +arith [parts]
  | pattern m p => cases p <;> simp +arith [parts]
  | patterns m ps => cases ps <;> simp +arith [parts]
  | item i =>
      cases i with
      | methodBody head body =>
          obtain ⟨id, method, name, patterns⟩ := head
          simp +arith [parts]
      | _ => simp +arith [parts]
  | items is => cases is <;> simp +arith [parts]

/-- What holds of a phrase whenever it holds of its parts holds of every phrase. -/
theorem induction_on_parts {P : Phrase → Prop} (h : ∀ φ, (∀ part ∈ φ.parts, P part) → P φ)
    (φ : Phrase) : P φ :=
  h φ fun part hpart =>
    have := sizeOf_lt_of_mem_parts hpart
    induction_on_parts h part
  termination_by sizeOf φ

/-- The phrase at the end of a path. -/
def at? (φ : Phrase) : Path → Option Phrase
  | [] => some φ
  | k :: path => φ.parts[k]?.bind fun part => part.at? path

theorem at?_append (φ : Phrase) (path path' : Path) :
    φ.at? (path ++ path') = (φ.at? path).bind fun ψ => ψ.at? path' := by
  induction path generalizing φ with
  | nil => rfl
  | cons k path ih =>
      rw [List.cons_append, at?, at?]
      cases φ.parts[k]? with
      | none => rfl
      | some part => exact ih part

/-- One step further along a path. -/
theorem at?_part {φ ψ part : Phrase} {path : Path} {k : Nat} (h : φ.at? path = some ψ)
    (hpart : ψ.parts[k]? = some part) : φ.at? (path ++ [k]) = some part := by
  rw [at?_append, h, Option.bind_some, at?, hpart]
  rfl

end Phrase

/-! ## Bodies of methods -/

mutual

/-- The method bodies in an item in the order in which they end: each behind those nested
    in it. -/
def Item.bodiesByEnd : Item → List MethodBody
  | .classDecl _ body => bodiesByEndOf body
  | .ifThen _ body _ => bodiesByEndOf body
  | .whileLoop _ body _ => bodiesByEndOf body
  | .methodBody head body => bodiesByEndOf body ++ [⟨head, body⟩]
  | _ => []

/-- The method bodies in a list of items in the order in which they end. -/
def bodiesByEndOf : List Item → List MethodBody
  | [] => []
  | item :: items => item.bodiesByEnd ++ bodiesByEndOf items

end

namespace Phrase

/-- The bodies of methods in a phrase. -/
def bodies : Phrase → List MethodBody
  | item i => i.bodies
  | items is => bodiesOf is
  | _ => []

/-- The bodies of methods in a phrase in the order in which they end. -/
def bodiesByEnd : Phrase → List MethodBody
  | item i => i.bodiesByEnd
  | items is => bodiesByEndOf is
  | _ => []

/-- The body that a phrase itself is. -/
def ownBody : Phrase → List MethodBody
  | item (.methodBody head body) => [⟨head, body⟩]
  | _ => []

/-- The bodies in a phrase are the one that it is and those in its parts. -/
theorem bodies_eq (φ : Phrase) : φ.bodies = φ.ownBody ++ φ.parts.flatMap bodies := by
  cases φ with
  | expr e => cases e <;> rfl
  | arguments es => cases es <;> rfl
  | types names => rcases names with _ | ⟨_, _ | ⟨_, _⟩⟩ <;> rfl
  | pattern m p => cases p <;> rfl
  | patterns m ps => cases ps <;> rfl
  | item i => cases i <;> simp [bodies, ownBody, parts, Item.bodies]
  | items is => cases is <;> simp [bodies, ownBody, parts, bodiesOf]

/-- A body ends behind those in its parts. -/
theorem bodiesByEnd_eq (φ : Phrase) :
    φ.bodiesByEnd = φ.parts.flatMap bodiesByEnd ++ φ.ownBody := by
  cases φ with
  | expr e => cases e <;> rfl
  | arguments es => cases es <;> rfl
  | types names => rcases names with _ | ⟨_, _ | ⟨_, _⟩⟩ <;> rfl
  | pattern m p => cases p <;> rfl
  | patterns m ps => cases ps <;> rfl
  | item i => cases i <;> simp [bodiesByEnd, ownBody, parts, Item.bodiesByEnd]
  | items is => cases is <;> simp [bodiesByEnd, ownBody, parts, bodiesByEndOf]

/-- Every body in a phrase stands somewhere in it. -/
theorem exists_at_of_mem_bodies {b : MethodBody} (φ : Phrase) (h : b ∈ φ.bodies) :
    ∃ path, φ.at? path = some (item (.methodBody b.head b.block)) := by
  induction φ using induction_on_parts with
  | _ φ ih =>
      rw [bodies_eq, List.mem_append] at h
      rcases h with h | h
      · refine ⟨[], ?_⟩
        cases φ with
        | item i => cases i <;> simp_all [ownBody, at?]
        | _ => simp [ownBody] at h
      · obtain ⟨part, hpart, hb⟩ := List.mem_flatMap.mp h
        obtain ⟨path, hpath⟩ := ih part hpart hb
        obtain ⟨k, hk⟩ := List.getElem?_of_mem hpart
        exact ⟨k :: path, by rw [at?, hk]; exact hpath⟩

end Phrase

end BlockLang
