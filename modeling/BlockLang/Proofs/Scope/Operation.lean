/-
  BlockLang.Proofs.Scope.Operation

  The operations on a scope table, and the tables that they build.

  An operation uses some ids: that of the owner to which a declaration goes, of the
  method whose parameter is bound or whose body is numbered, of the variable whose
  value is set.  When these are in the table, there are four things that it can do
  (`Change`), and what is known about tables built by operations follows from them.
-/
import BlockLang.Proofs.Scope.Registration
import BlockLang.Proofs.Scope.Valuation

namespace BlockLang.ScopeTable

/-- An operation that changes a scope table. -/
inductive Operation where
  | declareClass (name : String) (c : Cursor)
  | declareMethod (name returnType : String) (parameterTypes : List String) (c : Cursor)
  | declareVariable (name : String) (c : Cursor)
  | bindParameter (m : MethodId) (name : String)
  | addImplementation (m : MethodId)
  | setValue (v : VariableId) (value : Option Value)

/-- What entities are told apart by: owner, kind and name. -/
structure Key where
  owner : Owner
  kind : EntityKind
  name : String
  deriving DecidableEq

/-- The id under a key. -/
def lookup? (t : ScopeTable) (k : Key) : Option Nat := t.find? k.owner k.kind k.name

instance (t : ScopeTable) (owner : Owner) : Decidable (t.HasOwner owner) :=
  match owner with
  | .global => .isTrue trivial
  | .cls id => inferInstanceAs (Decidable (id < t.classes.size))
  | .method id => inferInstanceAs (Decidable (id < t.methods.size))

namespace Operation

/-- The id that an operation is about, and the table that it makes. -/
def apply (t : ScopeTable) : Operation → Except ScopeError (Nat × ScopeTable)
  | declareClass name c => t.declareClass name c
  | declareMethod name returnType parameterTypes c =>
    t.declareMethod name returnType parameterTypes c
  | declareVariable name c => t.declareVariable name c
  | bindParameter m name => .ok (t.bindParameter m name)
  | addImplementation m => .ok (t.addImplementation m)
  | setValue v value => .ok (v, t.setValue v value)

/-- The key that an operation declares. -/
def declared? : Operation → Option Key
  | declareClass name c => some ⟨c.owner .cls, .cls, name⟩
  | declareMethod name _ _ c => some ⟨c.owner .method, .method, name⟩
  | declareVariable name c => some ⟨c.owner .var, .var, name⟩
  | _ => none

/-- The key that an operation declares or binds. -/
def key? : Operation → Option Key
  | bindParameter m name => some ⟨.method m, .var, name⟩
  | op => op.declared?

/-- Whether the ids that an operation uses are in a table.  A declaration inside a method
    uses the method only: the class at its place is recorded and may be any. -/
def InRange (t : ScopeTable) : Operation → Prop
  | declareClass _ c => t.HasOwner (c.owner .cls)
  | declareMethod _ _ _ c => t.HasOwner (c.owner .method)
  | declareVariable _ c => t.HasOwner (c.owner .var)
  | bindParameter m _ => t.HasOwner (.method m)
  | addImplementation m => m < t.methods.size
  | setValue v _ => v < t.vars.size

instance (t : ScopeTable) : (op : Operation) → Decidable (op.InRange t)
  | declareClass _ c => inferInstanceAs (Decidable (t.HasOwner (c.owner .cls)))
  | declareMethod _ _ _ c => inferInstanceAs (Decidable (t.HasOwner (c.owner .method)))
  | declareVariable _ c => inferInstanceAs (Decidable (t.HasOwner (c.owner .var)))
  | bindParameter m _ => inferInstanceAs (Decidable (t.HasOwner (.method m)))
  | addImplementation m => inferInstanceAs (Decidable (m < t.methods.size))
  | setValue v _ => inferInstanceAs (Decidable (v < t.vars.size))

end Operation

/-- The table after an operation.  One that fails leaves the table as it is. -/
def after (t : ScopeTable) (op : Operation) : ScopeTable :=
  match op.apply t with
  | .ok (_, t') => t'
  | .error _ => t

/-- The table after some operations, one behind the other. -/
def afterAll (t : ScopeTable) (ops : List Operation) : ScopeTable := ops.foldl after t

/-- Whether each of some operations finds the ids that it uses in the table. -/
def InRangeAll (t : ScopeTable) : List Operation → Prop
  | [] => True
  | op :: ops => op.InRange t ∧ (t.after op).InRangeAll ops

instance decidableInRangeAll (t : ScopeTable) :
    (ops : List Operation) → Decidable (t.InRangeAll ops)
  | [] => .isTrue trivial
  | op :: ops => @instDecidableAnd _ _ _ (decidableInRangeAll (t.after op) ops)

/-- What each operation keeps, a sequence of operations keeps. -/
theorem afterAll_induction {P : ScopeTable → Prop}
    (hstep : ∀ t op, P t → op.InRange t → P (t.after op)) {t : ScopeTable} (ht : P t)
    {ops : List Operation} (hops : t.InRangeAll ops) : P (t.afterAll ops) := by
  induction ops generalizing t with
  | nil => exact ht
  | cons op ops ih => exact ih (hstep t op ht hops.1) hops.2

/-! ## What an operation does -/

theorem after_of_ok {t t' : ScopeTable} {op : Operation} {id : Nat}
    (h : op.apply t = .ok (id, t')) : t.after op = t' := by
  rw [after, h]

theorem after_of_error {t : ScopeTable} {op : Operation} {e : ScopeError}
    (h : op.apply t = .error e) : t.after op = t := by
  rw [after, h]

theorem requireFresh_of_some {t : ScopeTable} {owner : Owner} {kind : EntityKind} {name : String}
    {id : Nat} (h : t.find? owner kind name = some id) :
    t.requireFresh owner kind name = .error (.duplicate kind name) := by
  rw [requireFresh, h]
  rfl

theorem requireFresh_of_none {t : ScopeTable} {owner : Owner} {kind : EntityKind} {name : String}
    (h : t.find? owner kind name = none) : t.requireFresh owner kind name = .ok () := by
  rw [requireFresh, h]
  rfl

namespace Operation

theorem key?_of_declared? {op : Operation} {k : Key} (h : op.declared? = some k) :
    op.key? = some k := by
  cases op with
  | bindParameter m name => cases h
  | _ => exact h

/-- A declaration of a key that is taken fails. -/
theorem apply_of_some {t : ScopeTable} {op : Operation} {k : Key} {id : Nat}
    (hk : op.declared? = some k) (hid : t.lookup? k = some id) :
    op.apply t = .error (.duplicate k.kind k.name) := by
  cases op with
  | declareClass name c =>
      cases hk
      have hf : t.find? c.classOwner .cls name = some id := hid
      rw [apply, ScopeTable.declareClass, requireFresh_of_some hf]
      rfl
  | declareMethod name returnType parameterTypes c =>
      cases hk
      have hf : t.find? c.memberOwner .method name = some id := hid
      rw [apply, ScopeTable.declareMethod, requireFresh_of_some hf]
      rfl
  | declareVariable name c =>
      cases hk
      have hf : t.find? c.memberOwner .var name = some id := hid
      rw [apply, ScopeTable.declareVariable, requireFresh_of_some hf]
      rfl
  | _ => cases hk

/-- A declaration of a key that is not taken registers a new entity. -/
theorem apply_of_none {t : ScopeTable} {op : Operation} {k : Key} (hk : op.declared? = some k)
    (hop : op.InRange t) (hid : t.lookup? k = none) :
    ∃ new t', k = ⟨new.place.owner k.kind, k.kind, new.name⟩ ∧ t.HasOwner k.owner ∧
      op.apply t = .ok (t.count k.kind, t') ∧ t.Registers k.kind new t' := by
  cases op with
  | declareClass name c =>
      cases hk
      obtain ⟨t', ht'⟩ : ∃ t', t.declareClass name c = .ok (t.count .cls, t') := by
        have hf : t.find? c.classOwner .cls name = none := hid
        rw [ScopeTable.declareClass, requireFresh_of_none hf]
        exact ⟨_, rfl⟩
      exact ⟨_, t', rfl, hop, ht', (registers_declareClass hop ht').2.2⟩
  | declareMethod name returnType parameterTypes c =>
      cases hk
      obtain ⟨t', ht'⟩ :
          ∃ t', t.declareMethod name returnType parameterTypes c = .ok (t.count .method, t') := by
        have hf : t.find? c.memberOwner .method name = none := hid
        rw [ScopeTable.declareMethod, requireFresh_of_none hf]
        exact ⟨_, rfl⟩
      exact ⟨_, t', rfl, hop, ht', (registers_declareMethod hop ht').2.2⟩
  | declareVariable name c =>
      cases hk
      obtain ⟨t', ht'⟩ : ∃ t', t.declareVariable name c = .ok (t.count .var, t') := by
        have hf : t.find? c.memberOwner .var name = none := hid
        rw [ScopeTable.declareVariable, requireFresh_of_none hf]
        exact ⟨_, rfl⟩
      exact ⟨_, t', rfl, hop, ht', (registers_declareVariable hop ht').2.2⟩
  | _ => cases hk

end Operation

/-- What an operation can make of a table: an entity that is there already is left alone,
    a new entity is registered, a body is numbered or a value is set. -/
inductive Change (t : ScopeTable) : Operation → ScopeTable → Prop where
  | known {op : Operation} {k : Key} {id : Nat} : op.key? = some k → t.lookup? k = some id →
      Change t op t
  | registered {op : Operation} {k : Key} {new : Heading} {t' : ScopeTable} :
      op.key? = some k → t.lookup? k = none → k = ⟨new.place.owner k.kind, k.kind, new.name⟩ →
      t.HasOwner k.owner → op.apply t = .ok (t.count k.kind, t') →
      t.Registers k.kind new t' → Change t op t'
  | numbered {m : MethodId} : m < t.methods.size →
      Change t (.addImplementation m) (t.addImplementation m).2
  | valued (v : VariableId) (value : Option Value) :
      Change t (.setValue v value) (t.setValue v value)

theorem change_of_declared? {t : ScopeTable} {op : Operation} {k : Key}
    (hk : op.declared? = some k) (hop : op.InRange t) : t.Change op (t.after op) := by
  have hkey := Operation.key?_of_declared? hk
  cases hid : t.lookup? k with
  | some id =>
      rw [after_of_error (Operation.apply_of_some hk hid)]
      exact .known hkey hid
  | none =>
      obtain ⟨new, t', hnew, howner, hok, hreg⟩ := Operation.apply_of_none hk hop hid
      rw [after_of_ok hok]
      exact .registered hkey hid hnew howner hok hreg

theorem change_after {t : ScopeTable} {op : Operation} (hop : op.InRange t) :
    t.Change op (t.after op) := by
  cases op with
  | declareClass name c => exact change_of_declared? rfl hop
  | declareMethod name returnType parameterTypes c => exact change_of_declared? rfl hop
  | declareVariable name c => exact change_of_declared? rfl hop
  | bindParameter m name =>
      rcases bindParameter_cases hop name with ⟨hold, hsame⟩ | ⟨hfresh, hreg⟩
      · obtain ⟨id, hid⟩ := Option.isSome_iff_exists.mp hold
        have hafter : t.after (.bindParameter m name) = t := hsame
        rw [hafter]
        exact .known (k := ⟨.method m, .var, name⟩) rfl hid
      · have hid : (t.bindParameter m name).1 = t.count .var := by
          rw [bindParameter, hfresh]
          rfl
        exact .registered (k := ⟨.method m, .var, name⟩) rfl hfresh rfl hop
          (congrArg Except.ok (Prod.ext hid rfl)) hreg
  | addImplementation m => exact .numbered hop
  | setValue v value => exact .valued v value

end BlockLang.ScopeTable
