/-
  BlockLang.Scope.Declare

  Adding declarations to a scope table.

  A declaration at a place goes to the owner of that place.  It fails exactly when
  the owner has a member of the same kind and name already; otherwise the new
  entity takes the next id of its kind.
-/
import BlockLang.Scope.Lookup

namespace BlockLang.ScopeTable

/-- Fails when the owner has a member of this kind and name. -/
def requireFresh (t : ScopeTable) (owner : Owner) (kind : EntityKind) (name : String) :
    Except ScopeError Unit :=
  if (t.find? owner kind name).isSome then .error (.duplicate kind name) else .ok ()

/-- Declares a class. -/
def declareClass (t : ScopeTable) (name : String) (c : Cursor) :
    Except ScopeError (ClassId × ScopeTable) := do
  t.requireFresh c.classOwner .cls name
  let id := t.classes.size
  let t := { t with classes := t.classes.push { name, parent := c.cls } }
  return (id, t.modifyMembers (·.add (.cls id)) c.classOwner)

/-- Declares a method. -/
def declareMethod (t : ScopeTable) (name returnType : String) (parameterTypes : List String)
    (c : Cursor) : Except ScopeError (MethodId × ScopeTable) := do
  t.requireFresh c.memberOwner .method name
  let id := t.methods.size
  let entry : MethodEntry :=
    { name, returnType, parameterTypes, parentClass := c.cls, parentMethod := c.method }
  let t := { t with methods := t.methods.push entry }
  return (id, t.modifyMembers (·.add (.method id)) c.memberOwner)

/-- Adds a variable to an owner. -/
def addVariable (t : ScopeTable) (owner : Owner) (name : String) (c : Cursor) :
    VariableId × ScopeTable :=
  let id := t.vars.size
  let entry : VariableEntry :=
    { name, value := none, parentClass := c.cls, parentMethod := c.method }
  let t := { t with vars := t.vars.push entry }
  (id, t.modifyMembers (·.add (.var id)) owner)

/-- Declares a variable. -/
def declareVariable (t : ScopeTable) (name : String) (c : Cursor) :
    Except ScopeError (VariableId × ScopeTable) := do
  t.requireFresh c.memberOwner .var name
  return t.addVariable c.memberOwner name c

/-- The variable of a method that holds the parameter of this name.  It is made on
    first use and shared by all bodies of the method. -/
def bindParameter (t : ScopeTable) (method : MethodId) (name : String) :
    VariableId × ScopeTable :=
  match t.find? (.method method) .var name with
  | some id => (id, t)
  | none => t.addVariable (.method method) name (t.bodyCursor method)

/-- Numbers a new body of a method. -/
def addImplementation (t : ScopeTable) (method : MethodId) : BodyId × ScopeTable :=
  let id := t.bodyCount
  (id, { t with
    bodyCount := id + 1
    methods := t.methods.modify method fun m =>
      { m with implementations := m.implementations ++ [id] } })

end BlockLang.ScopeTable
