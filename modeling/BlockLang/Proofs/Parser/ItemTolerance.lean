/-
  BlockLang.Proofs.Parser.ItemTolerance

  One more semicolon behind an item.

  An item up to its own semicolon tolerates another one right behind it.  It is decided by
  tokens up to three places ahead, or by a scan behind parentheses, which may all lie behind
  the item: but an arrow comes with its `::`, and no semicolon stands between a parenthesis
  and `do`.  Behind an item and its semicolon, a second one is no part of it, so items
  tolerate one that has a token in front of it.
-/
import BlockLang.Proofs.Parser.Tolerance
import BlockLang.Proofs.Parser.Nesting
import BlockLang.Proofs.Parser.Words
import BlockLang.Proofs.Parser.Acceptance

namespace BlockLang

namespace ParseM

variable {α β : Type} {n : Nat}

/-! ## Declarations -/

theorem tolerates_declare (line : Nat)
    (add : ScopeTable → Cursor → Except ScopeError (α × ScopeTable)) :
    Tolerates n (declare line add) := by
  refine tolerates_of_blind (keeps_declare line trivial add) (fun s => ?_) fun s us line' => ?_
  · rw [declare, outcome_bind, outcome_get]
    dsimp only
    split <;> rfl
  · rw [declare, outcome_bind, outcome_get, outcome_bind, outcome_get]
    dsimp only [ParseState.inFrontOf]
    cases add s.scopes s.cursor <;> rfl

theorem withCursor_inFrontOf {c : Cursor} {x : ParseM α} {s t : ParseState} {us : List Token}
    {line : Nat} {a : α}
    (h : x.outcome (({ s with cursor := c } : ParseState).inFrontOf us line) = (.ok a, t)) :
    (withCursor c x).outcome (s.inFrontOf us line) = (.ok a, { t with cursor := s.cursor }) := by
  have hcursor : ({ s.inFrontOf us line with cursor := c } : ParseState) =
      ({ s with cursor := c } : ParseState).inFrontOf us line := rfl
  rw [outcome_withCursor, hcursor, h]
  rfl

theorem tolerates_withCursor (c : Cursor) {x : ParseM α} (h : Tolerates n x) :
    Tolerates n (withCursor c x) := by
  refine ⟨keeps_withCursor c h.goesOn, fun s hs htyped => ?_⟩
  intro a s' read us hout hread herrors hus line
  obtain ⟨s₁, hx, rfl⟩ := withCursor_ok hout
  have hread₁ : ParseState.Passes { s with cursor := c } read s₁ :=
    ⟨hread.rest, hread.noEnd, hread.closing⟩
  obtain ⟨line', hx'⟩ := h.tolerates { s with cursor := c } hs htyped hx hread₁ herrors hus line
  exact ⟨line', withCursor_inFrontOf hx'⟩

/-- A parameter.  What follows it decides whether it is a name. -/
theorem tolerates_pattern (budget : Nat) (m : MethodId) : Tolerates 1 (pattern budget m) := by
  have hbinding (t : Token) : Tolerates 1 (do
      modify fun s => { s with scopes := (s.scopes.bindParameter m (Ident.ofToken t).name).2 }
      return Pattern.binding (.ofToken t) : ParseM Pattern) := by
    refine tolerates_bind (tolerates_of_blind ?_ (fun _ => rfl) fun _ _ _ => rfl) fun _ =>
      tolerates_pure _
    exact fun s _ => ⟨(Onward.refl s).withScopes _, trivial⟩
  have hvalue := (tolerates_unary (tolerates_expression budget) (keeps_expression budget) budget
    budget).mono (Nat.zero_le 1)
  refine ⟨keeps_pattern budget m, fun s hs htyped => (ProceedsAt.get ?_ ?_).tolerates⟩
  · dsimp only
    split
    · rename_i hname
      simp only [Bool.and_eq_true] at hname
      exact .next hs htyped (ParseState.atEnd_of_check hname.1 (by decide)) hbinding
    · refine (hvalue.proceedsAt (moves_unary (keeps_expression budget) budget budget) hs
        htyped).bind hs htyped fun _ => ?_
      exact tolerates_ite (tolerates_pure _) (tolerates_throw _)
  · rintro c read s' us line hread - - hus
    have hcurrent : (s.inFrontOf (c :: read ++ us) line).current = s.current :=
      hread.current_inFrontOf
    have hcheck : (s.inFrontOf (c :: read ++ us) line).check .identifier = s.check .identifier := by
      rw [ParseState.check, hcurrent, ParseState.check]
    have hbehind : ((s.inFrontOf (c :: read ++ us) line).peekAt 1).kind = (s.peekAt 1).kind := by
      rcases ParseState.kind_peekAt_one hread hus with hsame | ⟨⟨hzero, -⟩, -⟩
      · exact hsame
      · cases hzero
    dsimp only
    rw [hcheck, hbehind, hcurrent]

/-! ## Blocks -/

/-- Reads the `end` of a block with these items. -/
def blockEnd (construct : Construct) (line : Nat) (body : List Item) : ParseM (List Item) := do
  if ← accept .kwEnd then
    return body
  else
    throw (.unterminatedBlock construct line)

theorem block_eq (construct : Construct) (line : Nat) (content : StateM ParseState (List Item)) :
    block construct line content = liftM content >>= blockEnd construct line := rfl

theorem tolerates_blockEnd (construct : Construct) (line : Nat) (body : List Item) :
    Tolerates n (blockEnd construct line body) :=
  tolerates_bind (tolerates_accept (by decide) fun h => absurd h (by decide)) fun _ =>
    tolerates_ite (tolerates_pure _) (tolerates_throw _)

theorem blockEnd_ok {construct : Construct} {line : Nat} {body body' : List Item}
    {s s' : ParseState} (hs : s.Closed)
    (hout : (blockEnd construct line body).outcome s = (.ok body', s')) :
    body' = body ∧ ∃ last, last.kind = .kwEnd ∧ s.Passes [last] s' := by
  simp only [blockEnd, outcome_bind, outcome_accept] at hout
  split at hout
  · rename_i hend
    cases hout
    obtain ⟨hkind, hpass, -⟩ := ParseState.passes_checked hs hend (by decide)
    rw [ParseState.pass, if_pos hend]
    exact ⟨rfl, s.current, hkind, hpass⟩
  · cases hout

/-- Reads the block of a class of this name.  When its name is taken, the block is passed over. -/
def classBody (keyword : Token) (name : Ident) (content : StateM ParseState (List Item)) :
    ParseM Item := do
  let s ← get
  match s.scopes.declareClass name.name s.cursor with
  | .ok (id, scopes) =>
    set { s with scopes }
    let body ← withCursor (.inClass id) (block .classDecl keyword.line content)
    return .classDecl name body
  | .error cause =>
    set (s.skipBlock 0 s.rest)
    throw (.scope cause name.line)

theorem classDeclaration_eq (content : StateM ParseState (List Item)) :
    classDeclaration content = (do
      let keyword ← next
      let name ← expect .className
      classBody keyword (.ofToken name) content) := rfl

/-- Reads a body of the method of this name.  When there is none, the body is passed over. -/
def namedBody (budget : Nat) (name : Ident) (content : StateM ParseState (List Item)) :
    ParseM Item := do
  let s ← get
  match s.scopes.resolveMethod name.name s.cursor with
  | some m => withCursor (s.scopes.bodyCursor m) (methodBodyRest budget name m content)
  | none =>
    set s.skipMethodBody
    throw (.scope (.undeclared .method name.name) name.line)

theorem methodBody_eq (budget : Nat) (content : StateM ParseState (List Item)) :
    methodBody budget content = (do
      let name ← next
      namedBody budget (.ofToken name) content) := rfl

section Blocks

variable {content : StateM ParseState (List Item)}

theorem outcome_classBody {keyword : Token} {name : Ident} {s : ParseState} {id : ClassId}
    {scopes : ScopeTable} (h : s.scopes.declareClass name.name s.cursor = .ok (id, scopes)) :
    (classBody keyword name content).outcome s = (do
      let body ← withCursor (.inClass id) (block .classDecl keyword.line content)
      return Item.classDecl name body : ParseM Item).outcome { s with scopes } := by
  rw [classBody, outcome_bind, outcome_get]
  simp only [h]
  rfl

theorem classBody_ok {keyword : Token} {name : Ident} {s s' : ParseState} {i : Item}
    (hout : (classBody keyword name content).outcome s = (.ok i, s')) :
    ∃ id scopes, s.scopes.declareClass name.name s.cursor = .ok (id, scopes) := by
  rw [classBody, outcome_bind, outcome_get] at hout
  dsimp only at hout
  split at hout
  · exact ⟨_, _, ‹_›⟩
  · cases hout

theorem outcome_namedBody {budget : Nat} {name : Ident} {s : ParseState} {m : MethodId}
    (h : s.scopes.resolveMethod name.name s.cursor = some m) :
    (namedBody budget name content).outcome s =
      (withCursor (s.scopes.bodyCursor m) (methodBodyRest budget name m content)).outcome s := by
  rw [namedBody, outcome_bind, outcome_get]
  simp only [h]

theorem namedBody_ok {budget : Nat} {name : Ident} {s s' : ParseState} {i : Item}
    (hout : (namedBody budget name content).outcome s = (.ok i, s')) :
    ∃ m, s.scopes.resolveMethod name.name s.cursor = some m := by
  rw [namedBody, outcome_bind, outcome_get] at hout
  dsimp only at hout
  split at hout
  · exact ⟨_, ‹_›⟩
  · cases hout

variable (h : Tolerates 1 (liftM content : ParseM (List Item)))
include h

theorem tolerates_block (construct : Construct) (line : Nat) :
    Tolerates 0 (block construct line content) := by
  refine ⟨keeps_block (fun s hs => (h.goesOn s hs).1) construct line trivial, fun s hs htyped => ?_⟩
  rw [block_eq]
  refine toleratesAt_bind_of_consumes (k := 1) hs htyped (h.goesOn s (.trivial s)).1
    (h.tolerates s hs htyped) (tolerates_blockEnd construct line) fun body s a s' hs hout => ?_
  -- A block that is read has been closed.
  obtain ⟨-, last, -, hpass⟩ := blockEnd_ok hs hout
  have hlen := hpass.length_eq
  rw [List.length_singleton] at hlen
  exact ⟨hpass.closed hs, by omega⟩

theorem proceedsAt_conditional {s : ParseState} (hs : s.Closed) (htyped : ArrowsTyped s.rest)
    (hend : s.atEnd = false) (budget : Nat) (construct : Construct)
    (make : Expr → List Item → Nat → Item) :
    ProceedsAt 0 (conditional budget construct make content) s := by
  refine .next hs htyped hend fun keyword => ?_
  refine tolerates_bind (tolerates_expression budget) fun _ => ?_
  refine tolerates_bind tolerates_expectDo fun _ => ?_
  exact tolerates_bind (tolerates_block h construct _) fun _ => tolerates_pure _

theorem tolerates_classBody (keyword : Token) (name : Ident) :
    Tolerates 0 (classBody keyword name content) := by
  have hbody (id : ClassId) : Tolerates 0 (do
      let body ← withCursor (.inClass id) (block .classDecl keyword.line content)
      return Item.classDecl name body) :=
    tolerates_bind (tolerates_withCursor _ (tolerates_block h .classDecl _))
      fun _ => tolerates_pure _
  refine ⟨keeps_get fun s hs => ?_, fun s hs htyped => ?_⟩
  · split
    · rename_i id scopes _
      refine keepsAt_bind hs (V := fun _ => True) ?_ fun _ _ => (hbody id).goesOn
      exact ⟨(Onward.refl s).withScopes scopes, trivial⟩
    · refine keepsAt_bind hs (V := fun _ => True) ?_ fun _ _ => keeps_throw trivial
      exact ⟨(Plain.skipBlock s).onward, trivial⟩
  · intro i s' read us hout hread herrors hus line
    obtain ⟨id, scopes, hadd⟩ := classBody_ok hout
    rw [outcome_classBody hadd] at hout
    have hread' : ParseState.Passes { s with scopes } read s' :=
      ⟨hread.rest, hread.noEnd, hread.closing⟩
    obtain ⟨line', hout'⟩ := (hbody id).tolerates { s with scopes } hs htyped hout hread' herrors
      hus line
    exact ⟨line', (outcome_classBody (s := s.inFrontOf (read ++ us) line) hadd).trans hout'⟩

theorem proceedsAt_classDeclaration {s : ParseState} (hs : s.Closed) (htyped : ArrowsTyped s.rest)
    (hend : s.atEnd = false) : ProceedsAt 0 (classDeclaration content) s := by
  rw [classDeclaration_eq]
  refine .next hs htyped hend fun keyword => ?_
  exact tolerates_bind (tolerates_expect _) fun name => tolerates_classBody h keyword _

theorem tolerates_methodBodyRest (budget : Nat) (name : Ident) (m : MethodId) :
    Tolerates 0 (methodBodyRest budget name m content) := by
  have hblock (ps : List Pattern) : Tolerates 0 (do
      expectDo
      let body ← block .methodBody name.line content
      let s ← get
      set { s with scopes := (s.scopes.addImplementation m).2 }
      return Item.methodBody ⟨(s.scopes.addImplementation m).1, m, name, ps⟩ body :
        ParseM Item) := by
    refine tolerates_bind tolerates_expectDo fun _ => ?_
    refine tolerates_bind (tolerates_block h .methodBody _) fun body => ?_
    exact tolerates_of_blind (fun s _ => ⟨(Onward.refl s).withScopes _, trivial⟩) (fun _ => rfl)
      fun _ _ _ => rfl
  refine tolerates_bind (tolerates_expect _) fun _ => ?_
  refine tolerates_list (tolerates_pattern budget m) (fun ps => ?_) (fun ps => ?_) budget
  · exact tolerates_bind (tolerates_expect _) fun _ => hblock ps
  · exact consumes_bind (consumes_expect _) fun _ => consumes_of_goesOn (hblock ps).goesOn

theorem tolerates_namedBody (budget : Nat) (name : Ident) :
    Tolerates 0 (namedBody budget name content) := by
  have hbody (c : Cursor) (m : MethodId) :
      Tolerates 0 (withCursor c (methodBodyRest budget name m content)) :=
    tolerates_withCursor c (tolerates_methodBodyRest h budget name m)
  refine ⟨keeps_get fun s hs => ?_, fun s hs htyped => ?_⟩
  · split
    · exact (hbody _ _).goesOn s hs
    · refine keepsAt_bind hs (V := fun _ => True) ?_ fun _ _ => keeps_throw trivial
      exact ⟨(Plain.skipMethodBody s).onward, trivial⟩
  · intro i s' read us hout hread herrors hus line
    obtain ⟨m, hm⟩ := namedBody_ok hout
    rw [outcome_namedBody hm] at hout
    obtain ⟨line', hout'⟩ := (hbody _ m).tolerates s hs htyped hout hread herrors hus line
    exact ⟨line', (outcome_namedBody (s := s.inFrontOf (read ++ us) line) hm).trans hout'⟩

theorem proceedsAt_methodBody {s : ParseState} (hs : s.Closed) (htyped : ArrowsTyped s.rest)
    (hend : s.atEnd = false) (budget : Nat) : ProceedsAt 0 (methodBody budget content) s := by
  rw [methodBody_eq]
  exact .next hs htyped hend fun name => tolerates_namedBody h budget _

end Blocks

end ParseM

/-! ## Looking ahead -/

namespace ParseState

/-- A semicolon does not make a call a method body: the parenthesis that closes the call
    would have to stand before `do` already. -/
theorem closesBeforeDo_of_semicolon {front back : List Token} {semi : Token}
    (hsemi : semi.kind = .semicolon) (depth : Nat)
    (h : closesBeforeDo depth (front ++ semi :: back)) : closesBeforeDo depth (front ++ back) := by
  induction front generalizing depth with
  | nil => simpa [closesBeforeDo, hsemi] using h
  | cons t front ih =>
      simp only [List.cons_append, closesBeforeDo] at h ⊢
      split_ifs at h ⊢ with hend hopen hclose
      · exact ih _ h
      · have hhead (h : startsWithDo (front ++ semi :: back)) : startsWithDo (front ++ back) := by
          cases front with
          | nil => simp [startsWithDo, Token.isDo, hsemi] at h
          | cons u front => exact h
        split at h
        · exact hhead h
        · exact hhead h
        · exact ih _ h
      · exact ih _ h

variable {s s' : ParseState} {n : Nat} {c : Token} {read us : List Token} {line : Nat}

theorem atMethodBody_of_inFrontOf (hread : s.Passes (c :: read) s')
    (hus : AddsSemicolon n s'.rest us)
    (h : (s.inFrontOf (c :: read ++ us) line).atMethodBody) : s.atMethodBody := by
  have hrest : s.rest = c :: (read ++ s'.rest) := hread.rest
  have hbehind := hus.append read
  rw [atMethodBody, hrest]
  rw [atMethodBody, inFrontOf] at h
  simp only [List.cons_append, List.drop_one, List.tail_cons] at h ⊢
  generalize read ++ s'.rest = ts at hbehind ⊢
  generalize read ++ us = us' at hbehind h
  cases hbehind with
  | none => exact h
  | one _ hsemi => exact closesBeforeDo_of_semicolon hsemi 0 h

/-- An arrow three places ahead of a name: it is passed, or it is not there with the semicolon
    either, since an arrow two places ahead would follow a `::` and not a name. -/
theorem peekAt_three_iff (hs : s.Closed) (htyped : ArrowsTyped s.rest) (hname : s.check .identifier)
    (hread : s.Passes (c :: read) s') (hus : AddsSemicolon n s'.rest us)
    (hmore : (s.peekAt 3).kind = .arrow → 3 ≤ read.length) :
    ((s.inFrontOf (c :: read ++ us) line).peekAt 3).kind = .arrow ↔
      (s.peekAt 3).kind = .arrow := by
  have hall := hus.append (c :: read)
  rw [← hread.rest, List.length_cons] at hall
  rw [peekAt, inFrontOf]
  generalize hwhole : c :: read ++ us = whole at hall
  generalize hrest : s.rest = rest at hall htyped
  cases hall with
  | none => rw [peekAt, hrest]
  | @one front back semi hlen hsemi =>
      by_cases hfar : 3 < front.length
      · rw [peekAt, hrest, List.getElem?_append_left hfar, List.getElem?_append_left hfar]
      · refine iff_of_false (fun harrow => ?_) fun harrow => absurd (hmore harrow) (by omega)
        rcases Nat.lt_or_eq_of_le (Nat.le_of_not_lt hfar) with hnear | hthree
        · -- The token three places ahead was two places ahead before.
          have hshift : (front ++ semi :: back)[3]? = (front ++ back)[2]? := by
            rw [List.getElem?_append_right (by omega), List.getElem?_append_right (by omega),
              show 3 - front.length = 2 - front.length + 1 by omega, List.getElem?_cons_succ]
          rw [hshift] at harrow
          cases htwo : (front ++ back)[2]? with
          | none =>
              rw [htwo] at harrow
              exact absurd (hs.symm.trans harrow) (by decide)
          | some arrow =>
              rw [htwo] at harrow
              obtain ⟨separator, hzero, hkind⟩ := htyped 0 arrow htwo harrow
              have hcurrent : s.current = separator := by rw [current, peekAt, hrest, hzero]; rfl
              rw [check, hcurrent, hkind] at hname
              exact absurd hname (by decide)
        · rw [← hthree, List.getElem?_append_right (Nat.le_refl _), Nat.sub_self] at harrow
          exact absurd (hsemi.symm.trans harrow) (by decide)

end ParseState

/-! ## The head of a method body -/

/-- The tokens in front of the block of a method body: a name, parameters in parentheses and
    `do`. -/
inductive BodyOpening : List Token → Prop where
  | intro {name opening closing start params} : opening.kind = .leftParen →
      Brackets.parens.Lifts 0 params → closing.kind = .rightParen → start.isDo →
      BodyOpening (name :: opening :: (params ++ [closing, start]))

namespace BodyOpening

variable {opening : List Token}

theorem four_le (h : BodyOpening opening) : 4 ≤ opening.length := by
  cases h with
  | intro => simp

/-- The tokens that decide what stands here are part of it. -/
theorem peekAt_eq (h : BodyOpening opening) {s t : ParseState} {rest rest' : List Token}
    (hs : s.rest = opening ++ rest) (ht : t.rest = opening ++ rest') {k : Nat} (hk : k < 4) :
    t.peekAt k = s.peekAt k := by
  have hlt : k < opening.length := hk.trans_le h.four_le
  rw [ParseState.peekAt, ParseState.peekAt, hs, ht, List.getElem?_append_left hlt,
    List.getElem?_append_left hlt, List.getElem?_eq_getElem hlt]
  rfl

theorem atMethodBody (h : BodyOpening opening) {s : ParseState} (hs : s.Closed) {rest : List Token}
    (hrest : s.rest = opening ++ rest) : s.atMethodBody := by
  cases h with
  | @intro name paren closing start params hopen hparams hclose hstart =>
      have hrest' : s.rest = name :: paren :: (params ++ closing :: start :: rest) := by
        rw [hrest]
        simp
      exact ParseState.atMethodBody_of_params hs hrest' hopen hparams hclose hstart

end BodyOpening

namespace ParseM

/-- A method body that is read: its head, and its block, which has as many words as its items
    and `end`. -/
theorem methodBody_ok {content : StateM ParseState (List Item)} (hc : ReadsItems content)
    {budget : Nat} {s s' : ParseState} (hs : s.Closed) (hname : s.check .identifier) {i : Item}
    (hout : (methodBody budget content).outcome s = (.ok i, s')) (herrors : s'.errors = []) :
    ∃ opening block head body, BodyOpening opening ∧ s.Passes (opening ++ block) s' ∧
      i = .methodBody head body ∧ (wordsRead block).length = (wordsOfItems body).length + 1 := by
  obtain ⟨-, hpass, hs₁⟩ := ParseState.passes_checked hs hname (by decide)
  rw [methodBody_eq, outcome_bind, outcome_next] at hout
  dsimp only at hout
  obtain ⟨m, hm⟩ := namedBody_ok hout
  rw [outcome_namedBody hm] at hout
  obtain ⟨t, hrest, rfl⟩ := withCursor_ok hout
  obtain ⟨ps, body, s₂, s₃, rfl, hopen, hps, hclose, hdo, hbody, hend, rfl⟩ :=
    read_methodBodyRest hc hrest herrors
  have hs₁' : ParseState.Closed { s.advance with cursor := s.advance.scopes.bodyCursor m } := hs₁
  obtain ⟨hopenKind, hopenPass, hs₂⟩ := ParseState.passes_checked hs₁' hopen (by decide)
  obtain ⟨params, hparamsPass, hparams⟩ := hps.spells hs₂
  have hs₃ := hparamsPass.closed hs₂
  obtain ⟨hcloseKind, hclosePass, hs₄⟩ := ParseState.passes_checked hs₃ hclose (by decide)
  obtain ⟨hdoPass, hs₅⟩ := ParseState.passes_do hs₄ hdo
  obtain ⟨block, hblock, hwords⟩ := (hbody.writes.append (ParseState.writes_mark hend rfl)) hs₅
  obtain ⟨_, hnested, -⟩ := hparams.wellNested
  have hhead : BodyOpening (s.current :: s.advance.current :: (params ++
      [s₂.current, s₂.advance.current])) :=
    .intro hopenKind hnested.lifts_parens hcloseKind hdo
  have hall := hopenPass.trans (hparamsPass.trans (hclosePass.trans (hdoPass.trans hblock)))
  refine ⟨_, block, _, body, hhead, ?_, rfl, ?_⟩
  · -- The table and the place that the body changes are no matter of the tokens.
    have hbehind : s.advance.Passes _ s₃.advance := ⟨hall.rest, hall.noEnd, hall.closing⟩
    have hpasses := hpass.trans hbehind
    simp only [List.cons_append, List.nil_append, List.append_assoc]
    exact ⟨hpasses.rest, hpasses.noEnd, hpasses.closing⟩
  · rw [hwords, List.length_append]
    rfl

/-! ## Items -/

/-- Reads an item and the semicolon that may follow it. -/
def terminated (bare : ParseM Item) : ParseM Item := do
  let i ← bare
  let _ ← accept .semicolon
  return i

/-- Reads the declaration of a method up to the semicolon that may follow it. -/
def bareMethodDeclaration (budget : Nat) : ParseM Item := do
  let name := Ident.ofToken (← next)
  let _ ← expect .typeSeparator
  let returnType ← expectType
  let _ ← expect .arrow
  let parameterTypes ← separated expectType budget
  let _ ← declare name.line fun t c => t.declareMethod name.name returnType parameterTypes c
  return .methodDecl name returnType parameterTypes

/-- Reads the declaration of a variable up to the semicolon that may follow it. -/
def bareVarDeclaration : ParseM Item := do
  let name := Ident.ofToken (← next)
  let _ ← expect .typeSeparator
  let type ← expectType
  let _ ← declare name.line fun t c => t.declareVariable name.name c
  return .varDecl name type

/-- Reads an item that is no class up to the semicolon that may follow it. -/
def bareItem (budget : Nat) (content : StateM ParseState (List Item)) : ParseM Item := do
  let s ← get
  if s.check .identifier && (s.peekAt 3).kind = .arrow then
    bareMethodDeclaration budget
  else if s.check .identifier && (s.peekAt 1).kind = .typeSeparator then
    bareVarDeclaration
  else
    bareStatement budget content

/-- Every item but a class may have a semicolon behind it. -/
theorem item_eq (budget : Nat) (content : StateM ParseState (List Item)) :
    item budget content = (do
      let s ← get
      if s.check .kwClass then classDeclaration content
      else terminated (bareItem budget content)) := by
  have hmethod : methodDeclaration budget = terminated (bareMethodDeclaration budget) := by
    simp only [methodDeclaration, terminated, bareMethodDeclaration, bind_assoc, pure_bind]
  have hvar : varDeclaration = terminated bareVarDeclaration := by
    simp only [varDeclaration, terminated, bareVarDeclaration, bind_assoc, pure_bind]
  have hstatement : statement budget content = terminated (bareStatement budget content) := rfl
  rw [item, hmethod, hvar, hstatement]
  funext s
  have hget (f : ParseState → ParseM Item) : (get >>= f) s = f s s := rfl
  have hterminated (f : ParseState → ParseM Item) :
      terminated (get >>= f) s = terminated (f s) s := rfl
  rw [hget, hget]
  split
  · rfl
  · rw [bareItem, hterminated]
    split
    · rfl
    · split <;> rfl

/-- The parameter types of a method. -/
theorem tolerates_signature (budget : Nat) (name : Ident) (returnType : String) :
    Tolerates n (do
      let parameterTypes ← separated expectType budget
      let _ ← declare name.line fun t c => t.declareMethod name.name returnType parameterTypes c
      return Item.methodDecl name returnType parameterTypes) :=
  tolerates_bind (tolerates_separated tolerates_expectType budget) fun _ =>
    tolerates_bind (tolerates_declare _ _) fun _ => tolerates_pure _

/-- The type of a variable. -/
theorem tolerates_variableType (name : Ident) :
    Tolerates n (do
      let type ← expectType
      let _ ← declare name.line fun t c => t.declareVariable name.name c
      return Item.varDecl name type) :=
  tolerates_bind tolerates_expectType fun _ =>
    tolerates_bind (tolerates_declare _ _) fun _ => tolerates_pure _

section Declarations

variable {s : ParseState} (hs : s.Closed) (htyped : ArrowsTyped s.rest) (hend : s.atEnd = false)
include hs htyped hend

theorem proceedsAt_bareMethodDeclaration (budget : Nat) :
    ProceedsAt n (bareMethodDeclaration budget) s := by
  refine .next hs htyped hend fun t => ?_
  refine tolerates_bind (tolerates_expect _) fun _ => ?_
  refine tolerates_bind tolerates_expectType fun _ => ?_
  exact tolerates_bind (tolerates_expect _) fun _ => tolerates_signature budget _ _

theorem proceedsAt_bareVarDeclaration : ProceedsAt n bareVarDeclaration s := by
  refine .next hs htyped hend fun t => ?_
  exact tolerates_bind (tolerates_expect _) fun _ => tolerates_variableType _

theorem proceedsAt_callStatement (budget : Nat) : ProceedsAt 0 (callStatement budget) s :=
  (proceedsAt_call (tolerates_expression budget) hs htyped hend budget).bind hs htyped fun _ =>
    tolerates_pure _

end Declarations

section Lengths

variable {s s' : ParseState} (hs : s.Closed) {c : Token} {read : List Token}
  (hread : s.Passes (c :: read) s') {i : Item}
include hs hread

/-- The declaration of a method passes its arrow. -/
theorem three_le_of_methodDeclaration {budget : Nat}
    (hout : (bareMethodDeclaration budget).outcome s = (.ok i, s')) : 3 ≤ read.length := by
  have htype : Consumes 1 expectType :=
    consumes_bind (consumes_expect _) fun _ => consumes_of_goesOn (keeps_pure trivial)
  refine le_length_of_next (fun t => ?_) hs hout hread
  refine consumes_bind (k := 1) (m := 2) (consumes_expect _) fun _ => ?_
  refine consumes_bind (k := 1) (m := 1) htype fun type => ?_
  exact consumes_bind (k := 1) (m := 0) (consumes_expect _) fun _ =>
    consumes_of_goesOn (tolerates_signature (n := 0) budget _ _).goesOn

/-- The declaration of a variable passes `::`. -/
theorem one_le_of_varDeclaration (hout : bareVarDeclaration.outcome s = (.ok i, s')) :
    1 ≤ read.length := by
  refine le_length_of_next (fun t => ?_) hs hout hread
  exact consumes_bind (k := 1) (m := 0) (consumes_expect _) fun _ =>
    consumes_of_goesOn (tolerates_variableType (n := 0) _).goesOn

theorem one_le_of_callStatement {budget : Nat}
    (hout : (callStatement budget).outcome s = (.ok i, s')) : 1 ≤ read.length := by
  obtain ⟨r, s₁, hcall, hpure⟩ := outcome_bind_ok.mp hout
  cases hpure
  exact one_le_of_call (tolerates_expression budget) hs hread hcall

/-- A name with a parenthesis behind it.  A method body passes its head, which decides that it
    is one, and a semicolon behind a call does not make it one. -/
theorem atMethodBody_inFrontOf {content : StateM ParseState (List Item)} (hc : ReadsItems content)
    {budget : Nat} (hname : s.check .identifier)
    (hout : (if s.atMethodBody then methodBody budget content else callStatement budget).outcome s =
      (.ok i, s')) (herrors : s'.errors = []) {us : List Token} (hus : AddsSemicolon n s'.rest us)
    (line : Nat) :
    1 ≤ read.length ∧ (s.inFrontOf (c :: read ++ us) line).atMethodBody = s.atMethodBody := by
  cases hbody : s.atMethodBody with
  | true =>
      rw [hbody, if_pos rfl] at hout
      obtain ⟨opening, block, -, -, hopening, hpass, -⟩ := methodBody_ok hc hs hname hout herrors
      have hread' : c :: read = opening ++ block := hread.eq hpass
      have hrest : (s.inFrontOf (c :: read ++ us) line).rest = opening ++ (block ++ us) := by
        rw [hread', List.append_assoc]
        rfl
      have hfour := hopening.four_le
      have hlen := congrArg List.length hread'
      rw [List.length_cons, List.length_append] at hlen
      exact ⟨by omega, hopening.atMethodBody hs hrest⟩
  | false =>
      rw [hbody, if_neg Bool.false_ne_true] at hout
      refine ⟨one_le_of_callStatement hs hread hout, Bool.eq_false_iff.mpr fun hbody' => ?_⟩
      rw [ParseState.atMethodBody_of_inFrontOf hread hus hbody'] at hbody
      cases hbody

end Lengths

section Statements

variable {content : StateM ParseState (List Item)} {s : ParseState}
  (h : Tolerates 1 (liftM content : ParseM (List Item))) (hc : ReadsItems content)
  (hs : s.Closed) (htyped : ArrowsTyped s.rest)
include h hc hs htyped

theorem proceedsAt_bareStatement (budget : Nat) :
    ProceedsAt 0 (bareStatement budget content) s := by
  have hexpr : ProceedsAt 0 (do return Item.expr (← expression budget)) s :=
    ((tolerates_expression budget).proceedsAt (moves_expression budget) hs htyped).bind hs htyped
      fun _ => tolerates_pure _
  refine .get ?_ ?_
  -- First every branch on its own, and then that the added semicolon does not lead into another.
  · dsimp only
    split
    · rename_i hkind
      exact proceedsAt_conditional h hs htyped (ParseState.atEnd_of_kind hkind (by decide)) budget
        _ _
    · rename_i hkind
      exact proceedsAt_conditional h hs htyped (ParseState.atEnd_of_kind hkind (by decide)) budget
        _ _
    · rename_i hkind
      have hend := ParseState.atEnd_of_kind hkind (by decide)
      split
      · split
        · exact proceedsAt_methodBody h hs htyped hend budget
        · exact proceedsAt_callStatement hs htyped hend budget
      · split
        · exact (proceedsAt_assignment hs htyped hend (tolerates_expression budget)).bind hs htyped
            fun _ => tolerates_pure _
        · exact hexpr
    · rename_i hkind
      split
      · exact proceedsAt_callStatement hs htyped (ParseState.atEnd_of_kind hkind (by decide)) budget
      · exact hexpr
    · exact hexpr
  · rintro c read s' us line hread ⟨i, hout⟩ herrors hus
    have hcurrent : (s.inFrontOf (c :: read ++ us) line).current = s.current :=
      hread.current_inFrontOf
    dsimp only at hout ⊢
    rw [hcurrent]
    split
    · rfl
    · rfl
    · rename_i hkind
      have hname : s.check .identifier := by simp [ParseState.check, hkind]
      simp only [hkind] at hout
      by_cases hparen : (s.peekAt 1).kind = .leftParen
      · rw [if_pos hparen] at hout
        obtain ⟨hone, hbody⟩ := atMethodBody_inFrontOf hs hread hc hname hout herrors hus line
        have hsame : ((s.inFrontOf (c :: read ++ us) line).peekAt 1).kind = .leftParen ↔ _ :=
          peekAt_one_iff hread hus (by decide) fun _ => hone
        rw [if_pos hparen, if_pos (hsame.mpr hparen), hbody]
      · have hsame : ((s.inFrontOf (c :: read ++ us) line).peekAt 1).kind = .leftParen ↔ _ :=
          peekAt_one_iff hread hus (by decide) fun h => absurd h hparen
        rw [if_neg hparen] at hout
        rw [if_neg hparen, if_neg (mt hsame.mp hparen)]
        refine if_congr (peekAt_one_iff hread hus (by decide) fun hequal => ?_) rfl rfl
        rw [if_pos hequal] at hout
        obtain ⟨r, s₁, hassign, hpure⟩ := outcome_bind_ok.mp hout
        cases hpure
        exact one_le_of_assignment (tolerates_expression budget) hs hread hassign
    · rename_i hkind
      refine if_congr (peekAt_one_iff hread hus (by decide) fun hopen => ?_) rfl rfl
      simp only [hkind, hopen, if_true] at hout
      exact one_le_of_callStatement hs hread hout
    · rfl

theorem proceedsAt_bareItem (budget : Nat) : ProceedsAt 0 (bareItem budget content) s := by
  refine .get ?_ ?_
  · split
    · rename_i hname
      simp only [Bool.and_eq_true] at hname
      exact proceedsAt_bareMethodDeclaration hs htyped
        (ParseState.atEnd_of_check hname.1 (by decide)) budget
    · split
      · rename_i hname
        simp only [Bool.and_eq_true] at hname
        exact proceedsAt_bareVarDeclaration hs htyped
          (ParseState.atEnd_of_check hname.1 (by decide))
      · exact proceedsAt_bareStatement h hc hs htyped budget
  · rintro c read s' us line hread ⟨i, hout⟩ - hus
    have hcheck : (s.inFrontOf (c :: read ++ us) line).check .identifier = s.check .identifier := by
      rw [ParseState.check, ParseState.check, hread.cons.1]
      rfl
    cases hname : s.check .identifier with
    | false => simp only [hcheck, hname, Bool.false_and]
    | true =>
        simp only [hname, Bool.true_and, decide_eq_true_eq] at hout
        have hthree (harrow : (s.peekAt 3).kind = .arrow) : 3 ≤ read.length := by
          rw [if_pos harrow] at hout
          exact three_le_of_methodDeclaration hs hread hout
        have hone (hsep : (s.peekAt 1).kind = .typeSeparator) : 1 ≤ read.length := by
          rw [if_pos hsep] at hout
          split at hout
          · exact (hthree ‹_›).trans' (by decide)
          · exact one_le_of_varDeclaration hs hread hout
        have harrow : ((s.inFrontOf (c :: read ++ us) line).peekAt 3).kind = .arrow ↔ _ :=
          ParseState.peekAt_three_iff hs htyped hname hread hus hthree
        have hsep : ((s.inFrontOf (c :: read ++ us) line).peekAt 1).kind = .typeSeparator ↔ _ :=
          peekAt_one_iff hread hus (by decide) hone
        simp only [hcheck, hname, harrow, hsep]

/-- Behind an item and its semicolon, one token must come before another one. -/
theorem proceedsAt_item (budget : Nat) : ProceedsAt 1 (item budget content) s := by
  rw [item_eq]
  refine .get_current ?_ fun t ht => by rw [ParseState.check, ht, ParseState.check]
  split
  · rename_i hclass
    exact (proceedsAt_classDeclaration h hs htyped
      (ParseState.atEnd_of_check hclass (by decide))).mono (Nat.zero_le 1)
  · refine ((proceedsAt_bareItem h hc hs htyped budget).mono (Nat.zero_le 1)).bind hs htyped
      fun i => ?_
    exact tolerates_bind (tolerates_accept (by decide) fun _ => Nat.one_pos)
      fun _ => tolerates_pure i

end Statements

/-! ## Programs -/

/-- A reader that goes by the kind of the next token, if the semicolon is not that token. -/
theorem toleratesAt_get_kind {f : ParseState → ParseM β} {s : ParseState}
    (hf : ∀ t : ParseState, t.current.kind = s.current.kind → f t = f s)
    (h : ToleratesAt (n + 1) (f s) s) : ToleratesAt (n + 1) (get >>= f) s := by
  intro b s' read us hout hread herrors hus line
  have hwhole : AddsSemicolon (n + 1) s.rest (read ++ us) := by
    rw [hread.rest]
    exact (hus.append read).mono (by omega)
  rw [outcome_bind, outcome_get] at hout ⊢
  dsimp only
  rcases ParseState.kind_current_inFrontOf hwhole line with hkind | ⟨hzero, -⟩
  · rw [hf _ hkind]
    exact h hout hread herrors hus line
  · cases hzero

/-- Reads items as far as all of them can be read. -/
def itemsOnward (budget : Nat) (inBlock : Bool) : ParseM (List Item) := do
  let s ← get
  if s.atEnd || (inBlock && s.check .kwEnd) then
    return []
  else
    let i ← item (budget + 1) (parseItems budget true)
    return i :: (← parseItems budget inBlock)

theorem outcome_lift_ok {x : StateM ParseState α} {s s' : ParseState} {a : α} :
    (liftM x : ParseM α).outcome s = (.ok a, s') ↔ x.run s = (a, s') := by
  rw [outcome_lift]
  constructor
  · intro h
    obtain ⟨hresult, hstate⟩ := Prod.mk.inj h
    exact Prod.ext (Except.ok.inj hresult) hstate
  · intro h
    rw [h]

section Programs

variable {budget : Nat} {inBlock : Bool} {s s' : ParseState} {is : List Item}

theorem outcome_itemsOnward
    (h : (liftM (parseItems (budget + 1) inBlock) : ParseM (List Item)).outcome s = (.ok is, s'))
    (herrors : s'.errors = []) : (itemsOnward budget inBlock).outcome s = (.ok is, s') := by
  rw [outcome_lift_ok] at h
  rw [itemsOnward, outcome_bind, outcome_get]
  dsimp only
  by_cases hgo : s.atEnd || (inBlock && s.check .kwEnd)
  · rw [parseItems_succ, if_pos hgo] at h
    cases h
    rw [if_pos hgo]
    rfl
  · obtain ⟨i, s₁, hitem, -, hrun⟩ := parseItems_round_ok hgo (by rw [h]; exact herrors)
    cases hrun.symm.trans h
    rw [if_neg hgo, outcome_bind, hitem]
    rfl

theorem outcome_parseItems (h : (itemsOnward budget inBlock).outcome s = (.ok is, s')) :
    (liftM (parseItems (budget + 1) inBlock) : ParseM (List Item)).outcome s = (.ok is, s') := by
  rw [itemsOnward, outcome_bind, outcome_get] at h
  dsimp only at h
  rw [outcome_lift_ok, parseItems_succ]
  split at h
  · rename_i hstop
    cases h
    rw [if_pos hstop]
  · rename_i hgo
    obtain ⟨i, s₁, hitem, h⟩ := outcome_bind_ok.mp h
    obtain ⟨others, s₂, hothers, hpure⟩ := outcome_bind_ok.mp h
    cases hpure
    rw [if_neg hgo, hitem]
    dsimp only
    rw [outcome_lift_ok.mp hothers]

/-- Where items are read, a semicolon may be added behind the token that ends them. -/
theorem tolerates_parseItems (budget : Nat) (inBlock : Bool) :
    Tolerates 1 (liftM (parseItems budget inBlock) : ParseM (List Item)) := by
  have hgoes (budget : Nat) (inBlock : Bool) :
      GoesOn (fun _ => True) (liftM (parseItems budget inBlock) : ParseM (List Item)) :=
    fun s hs => ⟨onward_parseItems budget inBlock s hs, trivial⟩
  induction budget generalizing inBlock with
  | zero => exact ⟨hgoes 0 inBlock, fun s _ _ => toleratesAt_pure []⟩
  | succ budget ih =>
      refine ⟨hgoes (budget + 1) inBlock, fun s hs htyped => ?_⟩
      have hitem := proceedsAt_item (ih true) (read_parseItems budget true) hs htyped (budget + 1)
      have honward : ToleratesAt 1 (itemsOnward budget inBlock) s := by
        refine toleratesAt_get_kind (fun t ht => ?_) ?_
        · rw [ParseState.atEnd, ParseState.check, ParseState.check, ht]
          rfl
        · split
          · exact toleratesAt_pure []
          · refine (hitem.bind hs htyped fun i => ?_).tolerates
            exact tolerates_bind (ih inBlock) fun _ => tolerates_pure _
      intro is s' read us hout hread herrors hus line
      obtain ⟨line', hout'⟩ := honward (outcome_itemsOnward hout herrors) hread herrors hus line
      exact ⟨line', outcome_parseItems hout'⟩

end Programs

end ParseM

end BlockLang
