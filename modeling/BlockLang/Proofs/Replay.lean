/-
  BlockLang.Proofs.Replay

  The tree of an accepted program makes its table again.

  A replay goes through a tree in the order in which it is written and declares what it
  says in a table of its own.  It takes names and types from the tree and no ids: classes
  and bodies are entered by what the replay itself has declared or found.  For an accepted
  program every step of the replay succeeds, the replay ends in the table of the program,
  and the ids that stand in the tree are those that it finds on the way.
-/
import BlockLang.Proofs.Parser.Acceptance
import BlockLang.Proofs.Parser.Passage

namespace BlockLang

/-! ## Replaying a tree -/

/-- A replay so far: its table, and the methods that it has found, each with the name for
    which it was found. -/
structure Replay where
  scopes : ScopeTable := .empty
  found : List (Ident × MethodId) := []

namespace Replay

/-- Finds the method that a name stands for. -/
def find (c : Cursor) (name : Ident) (r : Replay) : Except ScopeError (MethodId × Replay) :=
  match r.scopes.resolveMethod name.name c with
  | some m => .ok (m, { r with found := r.found ++ [(name, m)] })
  | none => .error (.undeclared .method name.name)

/-- Finds what a call invokes, unless that is built in. -/
def findCallee (c : Cursor) (callee : Callee) (r : Replay) : Except ScopeError Replay :=
  match callee.target with
  | .builtin _ => .ok r
  | .method _ => do
    let (_, r) ← r.find c callee.name
    return r

/-- Makes a declaration. -/
def declare {α : Type} (add : ScopeTable → Except ScopeError (α × ScopeTable)) (r : Replay) :
    Except ScopeError (α × Replay) := do
  let (id, scopes) ← add r.scopes
  return (id, { r with scopes })

end Replay

mutual

/-- Replays an expression at a place. -/
def Expr.replay (c : Cursor) : Expr → Replay → Except ScopeError Replay
  | .assign _ e, r => e.replay c r
  | .binary _ left _ right, r => do
    let r ← left.replay c r
    right.replay c r
  | .unary _ e, r => e.replay c r
  | .grouping e, r => e.replay c r
  | .literal _, r => .ok r
  | .name _, r => .ok r
  | .call callee args, r => do
    let r ← r.findCallee c callee
    replayArguments c args r

/-- Replays arguments at a place. -/
def replayArguments (c : Cursor) : List Expr → Replay → Except ScopeError Replay
  | [], r => .ok r
  | e :: es, r => do
    let r ← e.replay c r
    replayArguments c es r

end

/-- Replays a parameter of a body of a method. -/
def Pattern.replay (c : Cursor) (m : MethodId) : Pattern → Replay → Except ScopeError Replay
  | .binding name, r => .ok { r with scopes := (r.scopes.bindParameter m name.name).2 }
  | .value e, r => e.replay c r

/-- Replays the parameters of a body of a method. -/
def replayPatterns (c : Cursor) (m : MethodId) : List Pattern → Replay → Except ScopeError Replay
  | [], r => .ok r
  | p :: ps, r => do
    let r ← p.replay c m r
    replayPatterns c m ps r

mutual

/-- Replays an item at a place. -/
def Item.replay (c : Cursor) : Item → Replay → Except ScopeError Replay
  | .classDecl name body, r => do
    let (id, r) ← r.declare fun t => t.declareClass name.name c
    replayItems (.inClass id) body r
  | .methodDecl name returnType parameterTypes, r => do
    let (_, r) ← r.declare fun t => t.declareMethod name.name returnType parameterTypes c
    return r
  | .varDecl name _, r => do
    let (_, r) ← r.declare fun t => t.declareVariable name.name c
    return r
  | .assign _ e, r => e.replay c r
  | .ifThen e body _, r => do
    let r ← e.replay c r
    replayItems c body r
  | .whileLoop e body _, r => do
    let r ← e.replay c r
    replayItems c body r
  | .methodBody head body, r => do
    let (m, r) ← r.find c head.name
    let inside := r.scopes.bodyCursor m
    let r ← replayPatterns inside m head.patterns r
    let r ← replayItems inside body r
    return { r with scopes := (r.scopes.addImplementation m).2 }
  | .call callee args, r => do
    let r ← r.findCallee c callee
    replayArguments c args r
  | .expr e, r => e.replay c r

/-- Replays items at a place, one after the other. -/
def replayItems (c : Cursor) : List Item → Replay → Except ScopeError Replay
  | [], r => .ok r
  | item :: items, r => do
    let r ← item.replay c r
    replayItems c items r

end

/-! ## The ids in a tree -/

/-- The method that a callee holds, with its name. -/
def Callee.methods : Callee → List (Ident × MethodId)
  | ⟨name, .method m⟩ => [(name, m)]
  | ⟨_, .builtin _⟩ => []

mutual

/-- The methods that the calls of an expression hold, in the order of their names. -/
def Expr.methods : Expr → List (Ident × MethodId)
  | .assign _ e => e.methods
  | .binary _ left _ right => left.methods ++ right.methods
  | .unary _ e => e.methods
  | .grouping e => e.methods
  | .literal _ => []
  | .name _ => []
  | .call callee args => callee.methods ++ argumentMethods args

/-- The methods that the calls of arguments hold. -/
def argumentMethods : List Expr → List (Ident × MethodId)
  | [] => []
  | e :: es => e.methods ++ argumentMethods es

end

/-- The methods that the calls of a parameter hold. -/
def Pattern.methods : Pattern → List (Ident × MethodId)
  | .binding _ => []
  | .value e => e.methods

mutual

/-- The methods that the calls and bodies of an item hold, in the order of their names. -/
def Item.methods : Item → List (Ident × MethodId)
  | .classDecl _ body => methodsOf body
  | .methodDecl _ _ _ => []
  | .varDecl _ _ => []
  | .assign _ e => e.methods
  | .ifThen e body _ => e.methods ++ methodsOf body
  | .whileLoop e body _ => e.methods ++ methodsOf body
  | .methodBody head body =>
    (head.name, head.method) :: (head.patterns.flatMap Pattern.methods ++ methodsOf body)
  | .call callee args => callee.methods ++ argumentMethods args
  | .expr e => e.methods

/-- The methods that the calls and bodies of items hold. -/
def methodsOf : List Item → List (Ident × MethodId)
  | [] => []
  | item :: items => item.methods ++ methodsOf items

end

namespace Phrase

/-- Replays a phrase at a place. -/
def replay (c : Cursor) : Phrase → Replay → Except ScopeError Replay
  | expr e => e.replay c
  | arguments es => replayArguments c es
  | types _ => .ok
  | pattern m p => p.replay c m
  | patterns m ps => replayPatterns c m ps
  | item i => i.replay c
  | items is => replayItems c is

/-- The methods that the calls and bodies of a phrase hold. -/
def methods : Phrase → List (Ident × MethodId)
  | expr e => e.methods
  | arguments es => argumentMethods es
  | types _ => []
  | pattern _ p => p.methods
  | patterns _ ps => ps.flatMap Pattern.methods
  | item i => i.methods
  | items is => methodsOf is

end Phrase

/-! ## Replaying what was read -/

namespace Replay

variable {t u : ScopeTable} (found : List (Ident × MethodId))

theorem find_eq_ok {c : Cursor} (name : Ident) {m : MethodId}
    (h : t.resolveMethod name.name c = some m) :
    find c name ⟨t, found⟩ = .ok (m, ⟨t, found ++ [(name, m)]⟩) := by
  simp only [find, h]

theorem declare_eq_ok {α : Type} (add : ScopeTable → Except ScopeError (α × ScopeTable)) {id : α}
    (h : add t = .ok (id, u)) : declare add ⟨t, found⟩ = .ok (id, ⟨u, found⟩) := by
  simp only [declare, h]
  rfl

/-- A callee that was read is found again. -/
theorem findCallee_eq_ok {s : ParseState} {callee : Callee} (h : s.AtCallee callee) :
    findCallee s.cursor callee ⟨s.scopes, found⟩ =
      .ok ⟨s.scopes, found ++ callee.methods⟩ := by
  cases h with
  | builtin _ => simp only [findCallee, Callee.methods, List.append_nil]
  | method _ hm =>
      simp only [findCallee, find_eq_ok found (.ofToken s.current) hm]
      rfl

/-- The parameters and the block of a body are replayed inside the method that is found. -/
theorem methodBody_eq_ok {c : Cursor} (head : BodyHead) {m : MethodId} {body : List Item}
    {r r' : Replay} (hm : t.resolveMethod head.name.name c = some m)
    (hpatterns : replayPatterns (t.bodyCursor m) m head.patterns
      ⟨t, found ++ [(head.name, m)]⟩ = .ok r)
    (hbody : replayItems (t.bodyCursor m) body r = .ok r') :
    (Item.methodBody head body).replay c ⟨t, found⟩ =
      .ok { r' with scopes := (r'.scopes.addImplementation m).2 } := by
  simp only [Item.replay, find_eq_ok found head.name hm, bind, Except.bind, hpatterns, hbody]
  rfl

end Replay

/-- Replaying the phrase of a passage leads from the table in front of it to the one behind
    it and finds the methods that it holds. -/
def Passage.Replays (ρ : Passage) : Prop :=
  ∀ found, ρ.phrase.replay ρ.before.cursor ⟨ρ.before.scopes, found⟩ =
    .ok ⟨ρ.after.scopes, found ++ ρ.phrase.methods⟩

namespace Passage.Replays

variable {φ : Phrase} {s s' : ParseState} {σ τ : Passage}

/-- A phrase without parts that touches no table and holds no method. -/
theorem of_none (hs : s.Beside s') (hreplay : ∀ r, φ.replay s.cursor r = .ok r)
    (hmethods : φ.methods = []) : Replays ⟨φ, s, s'⟩ := by
  intro found
  rw [hreplay, hmethods, List.append_nil]
  show _ = Except.ok (Replay.mk s'.scopes found)
  rw [hs.scopes]

/-- A phrase whose replay is that of its part. -/
theorem around_one (hσ : σ.Replays) (hbefore : s.Beside σ.before) (hafter : σ.after.Beside s')
    (hreplay : ∀ r, φ.replay s.cursor r = σ.phrase.replay s.cursor r)
    (hmethods : φ.methods = σ.phrase.methods) : Replays ⟨φ, s, s'⟩ := by
  intro found
  have hpart := hσ found
  rw [hbefore.scopes, hbefore.cursor, ← hafter.scopes, ← hmethods, ← hreplay] at hpart
  exact hpart

/-- A phrase whose replay is that of its two parts in a row. -/
theorem around_two (hσ : σ.Replays) (hτ : τ.Replays) (hcursor : σ.after.cursor = σ.before.cursor)
    (hbefore : s.Beside σ.before) (hmid : σ.after.Beside τ.before) (hafter : τ.after.Beside s')
    (hreplay : ∀ r, φ.replay s.cursor r = do
      let r ← σ.phrase.replay s.cursor r
      τ.phrase.replay s.cursor r)
    (hmethods : φ.methods = σ.phrase.methods ++ τ.phrase.methods) : Replays ⟨φ, s, s'⟩ := by
  intro found
  have hfirst := hσ found
  rw [hbefore.scopes, hbefore.cursor] at hfirst
  have hsecond := hτ (found ++ σ.phrase.methods)
  rw [hmid.scopes, hmid.cursor, hcursor, hbefore.cursor, ← hafter.scopes, List.append_assoc,
    ← hmethods] at hsecond
  rw [hreplay, hfirst]
  exact hsecond

end Passage.Replays

/-- The replay of a phrase is made of the replays of its parts. -/
theorem Production.replays {φ : Phrase} {s s' : ParseState} {parts : List Passage}
    (h : Production φ s parts s') (hparts : ∀ σ ∈ parts, σ.Read)
    (hreplays : ∀ σ ∈ parts, σ.Replays) : Passage.Replays ⟨φ, s, s'⟩ := by
  have hcursor (σ : Passage) (hσ : σ ∈ parts) : σ.after.cursor = σ.before.cursor :=
    (hparts σ hσ).cursor
  clear hparts
  have hfirst {σ : Passage} {rest : List Passage} : σ ∈ σ :: rest := List.mem_cons_self
  have hlast {σ τ : Passage} : τ ∈ [σ, τ] := List.mem_cons_of_mem σ List.mem_cons_self
  -- Calls, declarations, parameters and bodies ask or change the table; all else replays its
  -- parts one after the other.
  induction h with
  | @name s _ _ => exact .of_none (.advance s) (fun _ => rfl) rfl
  | @literal s _ _ _ => exact .of_none (.advance s) (fun _ => rfl) rfl
  | @grouping s s₁ _ _ _ =>
      exact .around_one (hreplays _ hfirst) (.advance s) (.advance s₁) (fun _ => rfl) rfl
  | @unary s s₁ _ _ =>
      exact .around_one (hreplays _ hfirst) (.advance s) (.refl s₁) (fun _ => rfl) rfl
  | @binary s s₁ s₂ _ _ _ _ =>
      exact .around_two (hreplays _ hfirst) (hreplays _ hlast) (hcursor _ hfirst) (.refl s)
        (.advance s₁) (.refl s₂) (fun _ => rfl) rfl
  | @assign s s₁ _ _ _ _ _ =>
      exact .around_one (hreplays _ hfirst) ((ParseState.Beside.advance s).trans (.advance _))
        (.refl s₁) (fun _ => rfl) rfl
  | @call s s₁ callee args hcallee _ _ =>
      intro found
      have hargs := hreplays _ hfirst (found ++ callee.methods)
      simp only [ParseState.advance_scopes, ParseState.advance_cursor, List.append_assoc] at hargs
      simp only [Phrase.replay, Expr.replay, Replay.findCallee_eq_ok found hcallee,
        ParseState.advance_scopes]
      exact hargs
  | @noArguments s => exact .of_none (.refl s) (fun _ => rfl) rfl
  | @lastArgument s s₁ _ =>
      exact .around_two (hreplays _ hfirst) (hreplays _ hlast) (hcursor _ hfirst) (.refl s)
        (.refl s₁) (.refl s₁) (fun _ => rfl) rfl
  | @argument s s₁ s₂ _ _ _ _ =>
      exact .around_two (hreplays _ hfirst) (hreplays _ hlast) (hcursor _ hfirst) (.refl s)
        (.advance s₁) (.refl s₂) (fun _ => rfl) rfl
  | @lastType s _ => exact .of_none (.advance s) (fun _ => rfl) rfl
  | @type s s₁ _ _ _ _ =>
      exact .around_one (hreplays _ hfirst) ((ParseState.Beside.advance s).trans (.advance _))
        (.refl s₁) (fun _ => rfl) rfl
  | binding _ =>
      intro found
      exact congrArg _ (congrArg _ (List.append_nil found).symm)
  | @value s s₁ _ _ _ =>
      exact .around_one (hreplays _ hfirst) (.refl s) (.refl s₁) (fun _ => rfl) rfl
  | @noPatterns s _ => exact .of_none (.refl s) (fun _ => rfl) rfl
  | @lastPattern s s₁ _ _ =>
      exact .around_two (hreplays _ hfirst) (hreplays _ hlast) (hcursor _ hfirst) (.refl s)
        (.refl s₁) (.refl s₁) (fun _ => rfl) rfl
  | @pattern s s₁ s₂ _ _ _ _ _ =>
      exact .around_two (hreplays _ hfirst) (hreplays _ hlast) (hcursor _ hfirst) (.refl s)
        (.advance s₁) (.refl s₂) (fun _ => rfl) rfl
  | @classDecl s s₁ id scopes body _ _ hadd _ =>
      intro found
      have hdecl := Replay.declare_eq_ok found
        (fun t => t.declareClass s.advance.current.lexeme s.cursor) hadd
      -- The block is replayed in the class that the declaration has just made.
      have hbody := hreplays _ hfirst found
      rw [← s₁.advance_scopes] at hbody
      simp only [Phrase.replay, Item.replay, Ident.ofToken, hdecl]
      exact hbody
  | @methodDecl s s₁ id scopes types _ _ _ _ hadd =>
      intro found
      -- Types touch nothing, so the method is declared where the item starts.
      have htypes : s₁.scopes = s.scopes := by
        have h := Except.ok.inj (hreplays _ hfirst found)
        simpa using (congrArg Replay.scopes h).symm
      have hplace : s₁.cursor = s.cursor := by simpa using hcursor _ hfirst
      rw [htypes, hplace] at hadd
      have hdecl := Replay.declare_eq_ok found (fun t => t.declareMethod
        s.current.lexeme s.advance.advance.current.lexeme types s.cursor) hadd
      simp only [Phrase.replay, Item.replay, Ident.ofToken, hdecl, Phrase.methods, Item.methods,
        List.append_nil, ParseState.pass_scopes]
      rfl
  | @varDecl s id scopes _ _ _ hadd =>
      intro found
      have hdecl := Replay.declare_eq_ok found
        (fun t => t.declareVariable s.current.lexeme s.cursor) hadd
      simp only [Phrase.replay, Item.replay, Ident.ofToken, hdecl, Phrase.methods, Item.methods,
        List.append_nil, ParseState.pass_scopes]
      rfl
  | @assignItem _ s₁ _ _ _ _ ih =>
      intro found
      rw [ParseState.pass_scopes]
      exact ih hreplays hcursor found
  | @callItem _ s₁ _ _ _ _ ih =>
      intro found
      rw [ParseState.pass_scopes]
      exact ih hreplays hcursor found
  | @exprItem s s₁ _ =>
      exact .around_one (hreplays _ hfirst) (.refl s) (.pass s₁ .semicolon) (fun _ => rfl) rfl
  | @ifThen s s₁ s₂ _ _ _ _ _ =>
      exact .around_two (hreplays _ hfirst) (hreplays _ hlast) (hcursor _ hfirst) (.advance s)
        (.advance s₁) ((ParseState.Beside.advance s₂).trans (.pass _ .semicolon)) (fun _ => rfl) rfl
  | @whileLoop s s₁ s₂ _ _ _ _ _ =>
      exact .around_two (hreplays _ hfirst) (hreplays _ hlast) (hcursor _ hfirst) (.advance s)
        (.advance s₁) ((ParseState.Beside.advance s₂).trans (.pass _ .semicolon)) (fun _ => rfl) rfl
  | @methodBody s s₁ s₂ m ps body _ hm _ _ _ _ =>
      intro found
      have hpatterns := hreplays _ hfirst (found ++ [(.ofToken s.current, m)])
      have hbody := hreplays _ hlast
        ((found ++ [(.ofToken s.current, m)]) ++ ps.flatMap Pattern.methods)
      -- The block is read at the place of the parameters, which is inside the method.
      have hplace : s₁.cursor = s.scopes.bodyCursor m := by simpa using hcursor _ hfirst
      simp only [ParseState.advance_scopes, ParseState.advance_cursor, hplace]
        at hpatterns hbody
      have hitem := Replay.methodBody_eq_ok found
        ⟨(s₂.scopes.addImplementation m).1, m, .ofToken s.current, ps⟩ hm hpatterns hbody
      simp only [List.append_assoc] at hitem
      rw [ParseState.pass_scopes]
      exact hitem
  | @noItems s => exact .of_none (.refl s) (fun _ => rfl) rfl
  | @items s s₁ s₂ _ _ =>
      exact .around_two (hreplays _ hfirst) (hreplays _ hlast) (hcursor _ hfirst) (.refl s)
        (.refl s₁) (.refl s₂) (fun _ => rfl) rfl

/-- What was read can be replayed. -/
theorem Passage.Read.replays {ρ : Passage} (h : ρ.Read) : ρ.Replays := by
  induction h with
  | intro hprod hparts ih => exact hprod.replays hparts ih

/-! ## Accepted programs -/

/-! ### A program with nested bodies -/

/-- A method with two bodies, one of them in a class and with a method of its own. -/
def nestedText : String :=
  "m :: Int <- Int\nclass A\nm(i) do\nk :: Int <- Int\nk(0) do\nend\nk(i)\nend\nend\nm(1) do\nend\n"

/-- The tokens of `nestedText`. -/
def nestedTokens : List Token := (scan nestedText).1

/-- The tree of `nestedText`. -/
def nestedItems : List Item :=
  [ .methodDecl ⟨"m", 1⟩ "Int" ["Int"],
    .classDecl ⟨"A", 2⟩
      [ .methodBody ⟨1, 0, ⟨"m", 3⟩, [.binding ⟨"i", 3⟩]⟩
          [ .methodDecl ⟨"k", 4⟩ "Int" ["Int"],
            .methodBody ⟨0, 1, ⟨"k", 5⟩, [.value (.literal (.integer 0))]⟩ [],
            .call ⟨⟨"k", 7⟩, .method 1⟩ [.name ⟨"i", 7⟩] ] ],
    .methodBody ⟨2, 0, ⟨"m", 10⟩, [.value (.literal (.integer 1))]⟩ [] ]

/-- The table of `nestedText`. -/
def nestedTable : ScopeTable where
  classes := #[⟨"A", none, {}⟩]
  methods := #[⟨"m", "Int", ["Int"], none, none, { methods := [1], vars := [0] }, [1, 2]⟩,
    ⟨"k", "Int", ["Int"], none, some 0, {}, [0]⟩]
  vars := #[⟨"i", none, none, some 0⟩]
  global := { classes := [0], methods := [0] }
  bodyCount := 3

theorem parseTokens_nested : parseTokens nestedTokens = .ok ⟨nestedItems, nestedTable⟩ := by cbv

/-! ### The theorem -/

/-- A replay of the tree of an accepted program succeeds at every step.  It ends in the
    table of the program, and for the name of every call and every body it finds the method
    whose id stands in the tree. -/
theorem replay_makes_table {tokens : List Token} {p : Parsed} (h : parseTokens tokens = .ok p) :
    replayItems .global p.items {} = .ok ⟨p.scopes, methodsOf p.items⟩ := by
  obtain ⟨s', -, hscopes, hread⟩ := read_parseTokens h
  have hreplay := hread.replays []
  rw [ParseState.ofTokens_scopes, ParseState.ofTokens_cursor, hscopes, List.nil_append] at hreplay
  exact hreplay

theorem nested_replay :
    parseTokens nestedTokens = .ok ⟨nestedItems, nestedTable⟩ ∧
      replayItems .global nestedItems {} =
        .ok ⟨nestedTable, [(⟨"m", 3⟩, 0), (⟨"k", 5⟩, 1), (⟨"k", 7⟩, 1), (⟨"m", 10⟩, 0)]⟩ :=
  ⟨parseTokens_nested, replay_makes_table parseTokens_nested⟩

end BlockLang
