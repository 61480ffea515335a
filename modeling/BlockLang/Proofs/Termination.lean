/-
  BlockLang.Proofs.Termination

  Runs that end.

  Only loops and calls want fuel.  A limit bounds the rounds of each loop, however often it
  is carried out.  Methods whose bodies do not call them again, directly or through others,
  bound how deep calls stand inside one another: the methods that are being carried out at
  one time call one another in turn, so they are all different.  Where both bounds hold,
  every run ends, and it is known beforehand how much fuel suffices for it.
-/
import BlockLang.Proofs.Eval.Fuel
import BlockLang.Proofs.OverloadSelection
import BlockLang.Backend

namespace BlockLang

/-! ## Which methods call which -/

/-- The method that a callee stands for, unless it is a built-in one. -/
def Callee.method? (callee : Callee) : Option MethodId :=
  match callee.target with
  | .method id => some id
  | .builtin _ => none

mutual

/-- The targets of the calls in an expression. -/
def Expr.targets : Expr → List MethodId
  | .assign _ e => e.targets
  | .binary _ left _ right => left.targets ++ right.targets
  | .unary _ e => e.targets
  | .grouping e => e.targets
  | .literal _ => []
  | .name _ => []
  | .call callee es => callee.method?.toList ++ targetsOfEach es

/-- The targets of the calls in expressions. -/
def targetsOfEach : List Expr → List MethodId
  | [] => []
  | e :: es => e.targets ++ targetsOfEach es

end

/-- The targets of the calls in a parameter. -/
def Pattern.targets : Pattern → List MethodId
  | .binding _ => []
  | .value e => e.targets

mutual

/-- The targets of the calls in an item, those in method bodies inside it included. -/
def Item.targets : Item → List MethodId
  | .classDecl _ body => targetsOf body
  | .methodDecl _ _ _ => []
  | .varDecl _ _ => []
  | .assign _ e => e.targets
  | .ifThen e body _ => e.targets ++ targetsOf body
  | .whileLoop e body _ => e.targets ++ targetsOf body
  | .methodBody head body => head.patterns.flatMap Pattern.targets ++ targetsOf body
  | .call callee es => callee.method?.toList ++ targetsOfEach es
  | .expr e => e.targets

/-- The targets of the calls in items. -/
def targetsOf : List Item → List MethodId
  | [] => []
  | item :: items => item.targets ++ targetsOf items

end

/-- Some body of the method `m` has a call of the method `n` anywhere inside it. -/
def MayCall (items : List Item) (m n : MethodId) : Prop :=
  ∃ b ∈ bodiesOf items, b.head.method = m ∧ n ∈ targetsOf b.block

namespace Phrase

/-- The targets of the calls in a phrase. -/
def targets : Phrase → List MethodId
  | expr e => e.targets
  | arguments es => targetsOfEach es
  | types _ => []
  | pattern _ p => p.targets
  | patterns _ ps => ps.flatMap Pattern.targets
  | item i => i.targets
  | items is => targetsOf is

/-- The calls in a phrase are the one that it is and those in its parts. -/
theorem targets_eq (φ : Phrase) :
    φ.targets = (φ.call?.bind (·.1.method?)).toList ++ φ.parts.flatMap targets := by
  cases φ with
  | expr e => cases e <;> simp [targets, call?, parts, Expr.targets]
  | arguments es => cases es <;> simp [targets, call?, parts, targetsOfEach]
  | types names => rcases names with _ | ⟨_, _ | ⟨_, _⟩⟩ <;> rfl
  | pattern m p => cases p <;> simp [targets, call?, parts, Pattern.targets]
  | patterns m ps => cases ps <;> simp [targets, call?, parts]
  | item i => cases i <;> simp [targets, call?, parts, Item.targets]
  | items is => cases is <;> simp [targets, call?, parts, targetsOf]

theorem targets_subset {φ ψ : Phrase} (h : ψ ∈ φ.parts) : ψ.targets ⊆ φ.targets := by
  intro m hm
  rw [targets_eq, List.mem_append]
  exact .inr (List.mem_flatMap.mpr ⟨ψ, h, hm⟩)

theorem mem_targets {φ : Phrase} {callee : Callee} {es : List Expr} {m : MethodId}
    (hcall : φ.call? = some (callee, es)) (htarget : callee.target = .method m) :
    m ∈ φ.targets := by
  rw [targets_eq, hcall]
  simp [Callee.method?, htarget]

/-- A body that stands somewhere in a phrase is one of its bodies. -/
theorem mem_bodies_of_at? {b : MethodBody} {path : Path} {φ : Phrase}
    (h : φ.at? path = some (item (.methodBody b.head b.block))) : b ∈ φ.bodies := by
  induction path generalizing φ with
  | nil =>
      obtain rfl := Option.some.inj h
      exact List.mem_cons_self
  | cons k path ih =>
      obtain ⟨part, hk, hpart⟩ := Option.bind_eq_some_iff.mp h
      rw [bodies_eq, List.mem_append]
      exact .inr (List.mem_flatMap.mpr ⟨part, List.mem_of_getElem? hk, ih hpart⟩)

end Phrase

/-! ## Calls inside one another -/

/-- While a phrase is carried out, the methods of `stack` are being called, the innermost
    first: each is called in a body of the next, and the phrase stands in a body of the
    innermost one. -/
structure Executable.CallStack (x : Executable) (stack : List MethodId) (φ : Phrase) : Prop where
  chain : stack.IsChain fun callee caller => MayCall x.items caller callee
  declared : ∀ m ∈ stack, m < x.scopes.methods.size
  inside : ∀ m ∈ stack.head?, ∃ b ∈ bodiesOf x.items, b.head.method = m ∧
    φ.targets ⊆ targetsOf b.block

namespace Executable

variable {x : Executable}

/-- No method is called inside itself, so there are no more calls than methods. -/
theorem CallStack.length_le {stack : List MethodId} {φ : Phrase} (h : x.CallStack stack φ)
    (hcalls : ∀ m, ¬Relation.TransGen (MayCall x.items) m m) :
    stack.length ≤ x.scopes.methods.size := by
  let Above (callee caller : MethodId) : Prop := Relation.TransGen (MayCall x.items) caller callee
  have htrans : IsTrans MethodId Above := ⟨fun _ _ _ h h' => h'.trans h⟩
  have hpairs : stack.Pairwise Above :=
    List.isChain_iff_pairwise.mp (h.chain.imp fun _ _ => .single)
  have hnodup : stack.Nodup := by
    refine hpairs.imp ?_
    rintro m _ hm rfl
    exact hcalls m hm
  have hrange : stack ⊆ List.range x.scopes.methods.size := fun m hm =>
    List.mem_range.mpr (h.declared m hm)
  simpa using (hnodup.subperm hrange).length_le

variable (hx : x.WellScoped)
include hx

/-- The body that a call comes to is one of the method that is called. -/
theorem Invokes.called {n : Nat} {c : Cursor} (hc : x.scopes.Within c) {φ : Phrase}
    {r r' : RunState} {b : MethodBody} (hs : φ.Scoped x.scopes c) (h : x.Invokes n φ r b r')
    (hr : r.Stands x.scopes c) :
    b.head.method ∈ φ.targets ∧ b.head.method < x.scopes.methods.size := by
  cases h with
  | @intro callee es m vs r₁ r₂ r₃ hcall htarget hargs hselect hbind =>
      have hr₁ := (safe_arguments_of_call hx hc hs hcall).stands hr hargs
      have hchosen := (hx.safe_select (c := c) (x.dispatch n) vs (r₁.scopes.implementations m) r₁
        hr₁.table hr₁.cursor).2
      rw [hselect] at hchosen
      obtain ⟨id, hid, hb⟩ := hchosen b rfl
      rw [← ScopeTable.implementations_withoutValues, hr₁.table] at hid
      refine ⟨?_, (hx.body_scoped hb).1⟩
      rw [hx.method_of_implementation hb hid]
      exact Phrase.mem_targets hcall htarget

/-- Each call takes one unit of fuel, so a run has as much of it left as it had at the start
    less the calls that it is in. -/
theorem Visits.exists_callStack {start n : Nat} {path : Path} {φ : Phrase} {r : RunState}
    (h : x.Visits start n path φ r) :
    ∃ stack, stack.length + n = start ∧ x.CallStack stack φ := by
  induction h with
  | start =>
      exact ⟨[], Nat.zero_add _, .nil, fun _ hm => absurd hm List.not_mem_nil, nofun⟩
  | part _ _ hpart ih =>
      obtain ⟨stack, hlength, hstack⟩ := ih
      refine ⟨stack, hlength, hstack.chain, hstack.declared, fun m hm => ?_⟩
      obtain ⟨b, hb, hmethod, htargets⟩ := hstack.inside m hm
      have hsubset := Phrase.targets_subset (List.mem_of_getElem? hpart)
      exact ⟨b, hb, hmethod, fun _ ht => htargets (hsubset ht)⟩
  | @body n path φ r b r' path' hvisit hinvoke hat ih =>
      obtain ⟨stack, hlength, hstack⟩ := ih
      obtain ⟨hφ, hstands⟩ := hvisit.placed hx
      have hwithin := hx.tree.within_at_path hx.coherent (ScopeTable.within_global _) hφ
      obtain ⟨htarget, hdeclared⟩ := hinvoke.called hx hwithin (hx.tree.at_path hφ) hstands
      refine ⟨b.head.method :: stack, by simp only [List.length_cons]; omega, ?_, ?_, ?_⟩
      · refine List.isChain_cons.mpr ⟨fun caller hcaller => ?_, hstack.chain⟩
        obtain ⟨b', hb', rfl, htargets⟩ := hstack.inside caller hcaller
        exact ⟨b', hb', rfl, htargets htarget⟩
      · exact List.forall_mem_cons.mpr ⟨hdeclared, hstack.declared⟩
      · rintro m ⟨⟩
        exact ⟨b, Phrase.mem_bodies_of_at? hat, rfl, List.Subset.refl _⟩

end Executable

/-! ## What wants fuel -/

/-- The computation does not want fuel. -/
def EvalM.Frugal {α : Type} (y : EvalM α) : Prop := ∀ r, (y.outcome r).1 ≠ .error .outOfFuel

namespace EvalM

theorem frugal_pure {α : Type} (a : α) : (pure a : EvalM α).Frugal := by
  intro r h
  cases h

/-- What fails for a cause of its own does not fail for want of fuel. -/
theorem frugal_fail {α : Type} (cause : EvalError) : (fail cause : EvalM α).Frugal := by
  intro r h
  cases h

theorem frugal_readName (id : Ident) : (readName id).Frugal := by
  intro r
  rw [readName, outcome_get_bind]
  split
  · split
    · exact frugal_pure _ r
    · exact frugal_fail _ r
  · exact frugal_pure _ r
  · exact frugal_fail _ r

theorem frugal_assign (target : Ident) (value : Value) : (assign target value).Frugal := by
  intro r
  rw [assign, outcome_get_bind]
  split
  · rw [outcome_bind_of_ok (outcome_set _ r)]
    exact frugal_pure _ _
  · exact frugal_fail _ r
  · exact frugal_fail _ r

theorem frugal_requireDeclared (kind : EntityKind) (name : Ident) :
    (requireDeclared kind name).Frugal := by
  intro r
  rw [requireDeclared, outcome_get_bind]
  split
  · exact frugal_pure _ r
  · exact frugal_fail _ r

theorem frugal_bindParameters (frame : Cursor) (patterns : List Pattern) (values : List Value) :
    (bindParameters frame patterns values).Frugal := by
  induction patterns generalizing values with
  | nil => exact frugal_pure ()
  | cons p patterns ih =>
      cases values with
      | nil =>
          cases p with
          | value e => exact frugal_pure ()
          | binding name => exact frugal_pure ()
      | cons value values =>
          cases p with
          | value e => exact ih values
          | binding name =>
              intro r
              rw [bindParameters, outcome_get_bind]
              split
              · rw [outcome_bind_of_ok (outcome_set _ r)]
                exact ih values _
              · exact frugal_fail _ r

end EvalM

namespace Executable

variable {x : Executable}

/-- A loop comes to no more rounds than its limit allows. -/
theorem Round.le_limit {n : Nat} {e : Expr} {body : List Item} {line k : Nat} {r r' : RunState}
    (h : x.Round n e body line r k r') {most : Nat} (hlimit : x.limit = some most) : k ≤ most := by
  cases h with
  | first => exact Nat.zero_le _
  | next _ _ _ hbelow _ => exact hbelow most hlimit

/-- Under a limit, only little fuel does not suffice. -/
theorem Stops.fuel_le (hx : x.WellScoped) {most : Nat} (hlimit : x.limit = some most) {n : Nat}
    {φ : Phrase} {r : RunState} {c : Cursor} (hc : x.scopes.Within c) (hs : φ.Scoped x.scopes c)
    (hr : r.Stands x.scopes c) (h : x.Stops n φ r .outOfFuel) : n ≤ most := by
  cases h with
  | name _ hstop => exact absurd hstop (EvalM.frugal_readName _ r)
  | assign _ _ hstop => exact absurd hstop (EvalM.frugal_assign _ _ _)
  | declaration _ hstop => exact absurd hstop (EvalM.frugal_requireDeclared _ _ r)
  | loopFuel _ hround => exact hround.le_limit hlimit
  | callFuel _ _ _ hzero => exact hzero ▸ Nat.zero_le most
  | @select callee es vs r₁ m n' _ hcall _ hargs _ hstop =>
      -- Patterns are names and constants, so choosing a body calls nothing.
      have hr₁ := (safe_arguments_of_call hx hc hs hcall).stands hr hargs
      obtain ⟨result, hresult, -⟩ := exists_selects
        (fun b (hb : b ∈ x.candidates m) => x.constants_of_mem_candidates hx hb) vs
      rw [← ScopeTable.implementations_withoutValues, hr₁.table,
        hresult (x.dispatch n') r₁] at hstop
      cases result <;> exact absurd hstop nofun
  | parameters _ _ _ _ _ hstop => exact absurd hstop (EvalM.frugal_bindParameters _ _ _ _)

/-- Under a limit and without recursion, a run gets by with fuel for one round more than the
    limit in the innermost of as many calls as there are methods. -/
theorem run_ends (hx : x.WellScoped) {most : Nat} (hlimit : x.limit = some most)
    (hcalls : ∀ m, ¬Relation.TransGen (MayCall x.items) m m) {fuel : Nat}
    (hfuel : x.scopes.methods.size + most < fuel) : (x.run fuel).1 ≠ .error .outOfFuel := by
  intro hrun
  obtain ⟨n, path, φ, r, hvisit, hstops⟩ := Visits.stops hx .start hrun
  obtain ⟨hat, hstands⟩ := hvisit.placed hx
  have hwithin := hx.tree.within_at_path hx.coherent (ScopeTable.within_global _) hat
  have hleft : n ≤ most := hstops.fuel_le hx hlimit hwithin (hx.tree.at_path hat) hstands
  obtain ⟨stack, hlength, hstack⟩ := hvisit.exists_callStack hx
  have hdepth := hstack.length_le hcalls
  omega

end Executable

/-! ## Runs that end -/

theorem Outcome.of_eq_outOfFuel {result : Except Stop Unit} {lines : List String}
    (h : Outcome.of result lines = .outOfFuel) : result = .error .outOfFuel := by
  rcases result with (_ | _) | _
  · cases h
  · rfl
  · cases h

/-- For every accepted program in which no method calls itself, directly or through others,
    and for every limit on the rounds of loops: the run under the limit ends, with output or
    with an error.  It ends in the same way with all fuel above the number of methods and the
    limit together. -/
theorem runs_end_without_recursion {text : String} {p : Parsed} (hp : parse text = .ok p)
    (hcalls : ∀ m, ¬Relation.TransGen (MayCall p.items) m m) (most : Nat) :
    ∃ response, (∀ fuel, p.scopes.methods.size + most < fuel →
        p.interpret (some most) fuel = response) ∧
      ((∃ output, response = .output output) ∨
        ∃ error output, response = .runFailure error output) := by
  obtain ⟨root, hroot⟩ := exists_readsText hp
  obtain ⟨x, hprepare⟩ := hroot.wellScoped.exists_prepare (some most)
  obtain ⟨hitems, hscopes, hlimit, hx⟩ := hroot.wellScoped.prepare hprepare
  have hends (fuel : Nat) (hfuel : p.scopes.methods.size + most < fuel) :
      (x.run fuel).1 ≠ .error .outOfFuel :=
    Executable.run_ends hx hlimit (hitems ▸ hcalls) (hscopes ▸ hfuel)
  refine ⟨p.interpret (some most) (p.scopes.methods.size + most + 1), fun fuel hfuel => ?_, ?_⟩
  · -- More fuel than what suffices changes nothing.
    have hrun : x.run fuel = x.run (p.scopes.methods.size + most + 1) :=
      (x.records_items x.items).outcome_of_le hfuel (hends _ (Nat.lt_succ_self _))
    have houtcome : x.outcome fuel = x.outcome (p.scopes.methods.size + most + 1) := by
      rw [x.outcome_eq_run, x.outcome_eq_run, hrun]
    simp only [Parsed.interpret, hprepare, houtcome]
  · have hend := hends _ (Nat.lt_succ_self _)
    simp only [Parsed.interpret, hprepare]
    cases houtcome : x.outcome (p.scopes.methods.size + most + 1) with
    | finished output => exact .inl ⟨output, rfl⟩
    | failed error output => exact .inr ⟨error, output, rfl⟩
    | outOfFuel =>
        rw [x.outcome_eq_run] at houtcome
        exact absurd (Outcome.of_eq_outOfFuel houtcome) hend

/-- A method with an endless loop that calls another method. -/
def endlessText : String :=
  "show :: Int <- Int\nshow(n) do\n  print(n)\nend\nwork :: Int <- Int\nwork(n) do\n" ++
    "  while true do\n    show(n)\n  end\nend\nwork(7)\n"

/-- The tree of `endlessText`. -/
def endlessItems : List Item :=
  [ .methodDecl ⟨"show", 1⟩ "Int" ["Int"],
    .methodBody ⟨0, 0, ⟨"show", 2⟩, [.binding ⟨"n", 2⟩]⟩
      [.call ⟨⟨"print", 3⟩, .builtin .print⟩ [.name ⟨"n", 3⟩]],
    .methodDecl ⟨"work", 5⟩ "Int" ["Int"],
    .methodBody ⟨1, 1, ⟨"work", 6⟩, [.binding ⟨"n", 6⟩]⟩
      [.whileLoop (.literal (.boolean true))
        [.call ⟨⟨"show", 8⟩, .method 0⟩ [.name ⟨"n", 8⟩]] 7],
    .call ⟨⟨"work", 11⟩, .method 1⟩ [.literal (.integer 7)] ]

/-- The table of `endlessText`. -/
def endlessTable : ScopeTable where
  methods := #[⟨"show", "Int", ["Int"], none, none, { vars := [0] }, [0]⟩,
    ⟨"work", "Int", ["Int"], none, none, { vars := [1] }, [1]⟩]
  vars := #[⟨"n", none, none, some 0⟩, ⟨"n", none, none, some 1⟩]
  global := { methods := [0, 1] }
  bodyCount := 2

theorem parse_endlessText : parse endlessText = .ok ⟨endlessItems, endlessTable⟩ := by cbv

theorem endless_loop_ends_at_limit :
    parse endlessText = .ok ⟨endlessItems, endlessTable⟩ ∧ MayCall endlessItems 1 0 ∧
      (∀ m, ¬Relation.TransGen (MayCall endlessItems) m m) ∧
      ∀ fuel, 4 < fuel → (Parsed.mk endlessItems endlessTable).interpret (some 2) fuel =
        .runFailure (.loopLimitExceeded 2 7) "7\n7" := by
  -- Bodies call only methods that are declared in front of their own.
  have hearlier : ∀ b ∈ bodiesOf endlessItems, ∀ n ∈ targetsOf b.block, n < b.head.method := by
    decide
  have hcalls (m : MethodId) : ¬Relation.TransGen (MayCall endlessItems) m m := by
    intro hm
    have hless {m n : MethodId} (h : Relation.TransGen (MayCall endlessItems) m n) : n < m := by
      induction h with
      | single hmay =>
        obtain ⟨b, hb, rfl, hn⟩ := hmay
        exact hearlier b hb _ hn
      | tail _ hmay ih =>
        obtain ⟨b, hb, rfl, hn⟩ := hmay
        exact Nat.lt_trans (hearlier b hb _ hn) ih
    exact Nat.lt_irrefl m (hless hm)
  have hfive : (Parsed.mk endlessItems endlessTable).interpret (some 2) 5 =
      .runFailure (.loopLimitExceeded 2 7) "7\n7" := by
    decide +kernel
  obtain ⟨response, hresponse, -⟩ := runs_end_without_recursion parse_endlessText hcalls 2
  refine ⟨parse_endlessText, ⟨_, List.mem_cons_of_mem _ List.mem_cons_self, rfl, by decide⟩, hcalls,
    fun fuel hfuel => ?_⟩
  exact (hresponse fuel hfuel).trans ((hresponse 5 (by decide)).symm.trans hfive)

end BlockLang
