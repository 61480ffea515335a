/-
  BlockLang.Scope.Lookup

  Finding what a name stands for.

  The table is a map from owner, kind and name to ids (`find?`).  A name is looked
  up in the method around it, in the methods around that one, then in the class,
  then in the global scope; the first owner that knows the name decides.
-/
import BlockLang.Scope.Basic

namespace BlockLang.ScopeTable

/-- The member of an owner with this kind and name. -/
def find? (t : ScopeTable) (owner : Owner) (kind : EntityKind) (name : String) : Option Nat :=
  ((t.members owner).ofKind kind).find? fun id => t.name? (kind.entity id) == some name

/-- What a name stands for among the members of one owner: variables come before
    methods and methods before classes. -/
def entityIn? (t : ScopeTable) (name : String) (owner : Owner) : Option Entity :=
  ([.var, .method, .cls] : List EntityKind).findSome? fun kind =>
    (t.find? owner kind name).map kind.entity

/-- A method and the methods around it, the innermost first, at most `budget` many. -/
def methodsAround (t : ScopeTable) : Nat → Option MethodId → List MethodId
  | 0, _ => []
  | _ + 1, none => []
  | budget + 1, some id =>
    id :: t.methodsAround budget (t.methods[id]?.bind (·.parentMethod))

/-- The owners in which a name at a place is looked up, in this order. -/
def lookupChain (t : ScopeTable) (c : Cursor) : List Owner :=
  (t.methodsAround t.methods.size c.method).map .method ++ c.cls.toList.map .cls ++ [.global]

/-- What a name at a place stands for. -/
def resolve (t : ScopeTable) (name : String) (c : Cursor) : Option Entity :=
  (t.lookupChain c).findSome? (t.entityIn? name)

/-- The method that a name at a place stands for; other entities of that name do not
    hide it. -/
def resolveMethod (t : ScopeTable) (name : String) (c : Cursor) : Option MethodId :=
  (t.lookupChain c).findSome? fun owner => t.find? owner .method name

/-- The entity of a kind that a declaration at this very place has made. -/
def findDeclared (t : ScopeTable) (kind : EntityKind) (name : String) (c : Cursor) : Option Nat :=
  t.find? (c.owner kind) kind name

end BlockLang.ScopeTable
