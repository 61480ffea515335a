/-
  BlockLang.Scope.Basic

  The scope table: every class, method and variable that a program declares.

  Each kind of entity has its own numbering from zero in order of declaration.
  An owner (the global scope, a class or a method) lists the ids of its members.
  Parents are plain ids and serve lookup only.  The operations that add to a table
  are in `BlockLang.Scope.Declare`, lookup is in `BlockLang.Scope.Lookup`.
-/
import BlockLang.Value

namespace BlockLang

abbrev ClassId := Nat
abbrev MethodId := Nat
abbrev VariableId := Nat

/-- The number of a method body; bodies are counted over the whole program. -/
abbrev BodyId := Nat

/-- What a name can stand for. -/
inductive EntityKind where
  | cls
  | method
  | var
  deriving DecidableEq

/-- The word for a kind of entity in messages. -/
def EntityKind.label : EntityKind → String
  | cls => "class"
  | method => "method"
  | var => "variable"

/-- A declared entity. -/
inductive Entity where
  | cls (id : ClassId)
  | method (id : MethodId)
  | var (id : VariableId)
  deriving DecidableEq

/-- The kind of an entity. -/
def Entity.kind : Entity → EntityKind
  | cls _ => .cls
  | method _ => .method
  | var _ => .var

/-- The entity of a kind with an id. -/
def EntityKind.entity : EntityKind → Nat → Entity
  | cls, id => .cls id
  | method, id => .method id
  | var, id => .var id

/-- A place in the nesting of scopes: the innermost class and the innermost method. -/
structure Cursor where
  cls : Option ClassId
  method : Option MethodId
  deriving DecidableEq

namespace Cursor

/-- Outside of every class and method. -/
def global : Cursor := ⟨none, none⟩

/-- Directly inside a class. -/
def inClass (id : ClassId) : Cursor := ⟨some id, none⟩

end Cursor

/-- What can hold declarations. -/
inductive Owner where
  | global
  | cls (id : ClassId)
  | method (id : MethodId)
  deriving DecidableEq

namespace Cursor

/-- The owner of a class that is declared at a place: methods own no classes. -/
def classOwner (c : Cursor) : Owner :=
  match c.cls with
  | some id => .cls id
  | none => .global

/-- The owner of a method or variable that is declared at a place. -/
def memberOwner (c : Cursor) : Owner :=
  match c.method with
  | some id => .method id
  | none => c.classOwner

/-- The owner of an entity of a kind that is declared at a place. -/
def owner (c : Cursor) : EntityKind → Owner
  | .cls => c.classOwner
  | .method => c.memberOwner
  | .var => c.memberOwner

end Cursor

/-- The ids of an owner's members, in order of declaration. -/
structure Members where
  classes : List ClassId := []
  methods : List MethodId := []
  vars : List VariableId := []
  deriving DecidableEq

namespace Members

/-- The ids of the members of one kind. -/
def ofKind (m : Members) : EntityKind → List Nat
  | .cls => m.classes
  | .method => m.methods
  | .var => m.vars

/-- Adds a member behind the others of its kind. -/
def add (m : Members) : Entity → Members
  | .cls id => { m with classes := m.classes ++ [id] }
  | .method id => { m with methods := m.methods ++ [id] }
  | .var id => { m with vars := m.vars ++ [id] }

theorem ofKind_add_entity (m : Members) (new kind : EntityKind) (id : Nat) :
    (m.add (new.entity id)).ofKind kind =
      m.ofKind kind ++ if new = kind then [id] else [] := by
  cases new <;> cases kind <;> simp [add, ofKind, EntityKind.entity]

end Members

/-- A declared class. -/
structure ClassEntry where
  name : String
  parent : Option ClassId
  members : Members := {}
  deriving DecidableEq

/-- A declared method.  Its bodies are tried in the order of `implementations`. -/
structure MethodEntry where
  name : String
  returnType : String
  parameterTypes : List String
  parentClass : Option ClassId
  parentMethod : Option MethodId
  members : Members := {}
  implementations : List BodyId := []
  deriving DecidableEq

/-- A declared variable with the value it holds, if it has been assigned one. -/
structure VariableEntry where
  name : String
  value : Option Value
  parentClass : Option ClassId
  parentMethod : Option MethodId
  deriving DecidableEq

/-- All entities of a program. -/
structure ScopeTable where
  classes : Array ClassEntry := #[]
  methods : Array MethodEntry := #[]
  vars : Array VariableEntry := #[]
  global : Members := {}
  bodyCount : Nat := 0
  deriving DecidableEq

namespace ScopeTable

/-- The table of a program without declarations. -/
def empty : ScopeTable := {}

/-- The members of an owner. -/
def members (t : ScopeTable) : Owner → Members
  | .global => t.global
  | .cls id => (t.classes[id]?.map (·.members)).getD {}
  | .method id => (t.methods[id]?.map (·.members)).getD {}

/-- Changes the members of an owner. -/
def modifyMembers (t : ScopeTable) (f : Members → Members) : Owner → ScopeTable
  | .global => { t with global := f t.global }
  | .cls id =>
    { t with classes := t.classes.modify id fun c => { c with members := f c.members } }
  | .method id =>
    { t with methods := t.methods.modify id fun m => { m with members := f m.members } }

/-- The name of an entity. -/
def name? (t : ScopeTable) : Entity → Option String
  | .cls id => t.classes[id]?.map (·.name)
  | .method id => t.methods[id]?.map (·.name)
  | .var id => t.vars[id]?.map (·.name)

/-- The bodies of a method, in the order in which they are tried. -/
def implementations (t : ScopeTable) (id : MethodId) : List BodyId :=
  (t.methods[id]?.map (·.implementations)).getD []

/-- The place inside a body of a method. -/
def bodyCursor (t : ScopeTable) (id : MethodId) : Cursor :=
  ⟨t.methods[id]?.bind (·.parentClass), some id⟩

/-- The value that a variable holds. -/
def value? (t : ScopeTable) (id : VariableId) : Option Value :=
  t.vars[id]?.bind (·.value)

/-- Gives a variable a value, or takes its value away. -/
def setValue (t : ScopeTable) (id : VariableId) (value : Option Value) : ScopeTable :=
  { t with vars := t.vars.modify id fun v => { v with value } }

end ScopeTable

/-! ## Errors -/

/-- What can be wrong with the use or the declaration of a name. -/
inductive ScopeError where
  | undeclaredName (name : String)
  | undeclared (kind : EntityKind) (name : String)
  | duplicate (kind : EntityKind) (name : String)
  | notAssignable (found : EntityKind) (name : String)
  deriving DecidableEq

/-- The wording of a scope error. -/
def ScopeError.message : ScopeError → String
  | undeclaredName name => s!"Undeclared name '{name}'"
  | undeclared kind name =>
    let label := kind.label
    s!"Undeclared {label} '{name}'"
  | duplicate kind name =>
    let label := kind.label
    s!"Duplicate {label} declaration '{name}' in this scope"
  | notAssignable found name =>
    let label := found.label
    s!"Cannot assign to {label} '{name}'"

end BlockLang
