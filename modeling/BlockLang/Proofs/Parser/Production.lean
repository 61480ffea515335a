/-
  BlockLang.Proofs.Parser.Production

  How the parser reads what it accepts, as a relation.

  A passage is a piece of the tree with the states in front of it and behind it.  A
  production says how one piece is read when its parts have been read: which tokens
  stand around the parts, what is looked up or declared on the way, and in which
  states the parts start and end.  A passage that is read is one that productions
  build up; all that holds of accepted programs follows by induction over them.
-/
import BlockLang.Proofs.Parser.Outcome
import BlockLang.Proofs.Tree.Words

namespace BlockLang

/-- A phrase with the states between which it is read. -/
structure Passage where
  phrase : Phrase
  before : ParseState
  after : ParseState

/-- Whether the next token names this callee. -/
inductive ParseState.AtCallee (s : ParseState) : Callee → Prop where
  | builtin : s.check .kwPrint → AtCallee s ⟨.ofToken s.current, .builtin .print⟩
  | method {id : MethodId} : s.check .identifier →
      s.scopes.resolveMethod s.current.lexeme s.cursor = some id →
      AtCallee s ⟨.ofToken s.current, .method id⟩

/-- How a phrase is read from its parts: `Production p s parts s'` says that reading
    `p` from `s` to `s'` consists of reading the parts. -/
inductive Production : Phrase → ParseState → List Passage → ParseState → Prop where
  | name {s} : s.check .identifier → (s.scopes.resolve s.current.lexeme s.cursor).isSome →
      Production (.expr (.name (.ofToken s.current))) s [] s.advance
  | literal {s v} : s.current.kind ∈ literalKinds → s.current.literal = some v →
      Production (.expr (.literal v)) s [] s.advance
  | grouping {s s₁ e} : s.check .leftParen → s₁.check .rightParen →
      Production (.expr (.grouping e)) s [⟨.expr e, s.advance, s₁⟩] s₁.advance
  | unary {s s₁ e} : s.check .bang ∨ s.check .minus →
      Production (.expr (.unary (.ofToken s.current) e)) s [⟨.expr e, s.advance, s₁⟩] s₁
  | binary {s s₁ s₂ level left right} : s₁.current.kind ∈ level.operators →
      Production (.expr (.binary level left (.ofToken s₁.current) right)) s
        [⟨.expr left, s, s₁⟩, ⟨.expr right, s₁.advance, s₂⟩] s₂
  | assign {s s₁ e v} : s.check .identifier →
      s.scopes.resolve s.current.lexeme s.cursor = some (.var v) → s.advance.check .equal →
      Production (.expr (.assign (.ofToken s.current) e)) s
        [⟨.expr e, s.advance.advance, s₁⟩] s₁
  | call {s s₁ callee args} : s.AtCallee callee → s.advance.check .leftParen →
      s₁.check .rightParen →
      Production (.expr (.call callee args)) s [⟨.arguments args, s.advance.advance, s₁⟩]
        s₁.advance
  | noArguments {s} : Production (.arguments []) s [] s
  | lastArgument {s s₁ e} :
      Production (.arguments [e]) s [⟨.expr e, s, s₁⟩, ⟨.arguments [], s₁, s₁⟩] s₁
  | argument {s s₁ s₂ e e' es} : s₁.check .comma →
      Production (.arguments (e :: e' :: es)) s
        [⟨.expr e, s, s₁⟩, ⟨.arguments (e' :: es), s₁.advance, s₂⟩] s₂
  | lastType {s} : s.check .identifier →
      Production (.types [s.current.lexeme]) s [] s.advance
  | type {s s₁ name names} : s.check .identifier → s.advance.check .comma →
      Production (.types (s.current.lexeme :: name :: names)) s
        [⟨.types (name :: names), s.advance.advance, s₁⟩] s₁
  | binding {s m} : s.check .identifier →
      Production (.pattern m (.binding (.ofToken s.current))) s []
        { s.advance with scopes := (s.scopes.bindParameter m s.current.lexeme).2 }
  | value {s s₁ m e} : e.isConstant →
      Production (.pattern m (.value e)) s [⟨.expr e, s, s₁⟩] s₁
  | noPatterns {s m} : Production (.patterns m []) s [] s
  | lastPattern {s s₁ m p} :
      Production (.patterns m [p]) s [⟨.pattern m p, s, s₁⟩, ⟨.patterns m [], s₁, s₁⟩] s₁
  | pattern {s s₁ s₂ m p p' ps} : s₁.check .comma →
      Production (.patterns m (p :: p' :: ps)) s
        [⟨.pattern m p, s, s₁⟩, ⟨.patterns m (p' :: ps), s₁.advance, s₂⟩] s₂
  | classDecl {s s₁ id scopes body} : s.check .kwClass → s.advance.check .identifier →
      s.scopes.declareClass s.advance.current.lexeme s.cursor = .ok (id, scopes) →
      s₁.check .kwEnd →
      Production (.item (.classDecl (.ofToken s.advance.current) body)) s
        [⟨.items body, { s.advance.advance with scopes, cursor := .inClass id }, s₁⟩]
        { s₁.advance with cursor := s.cursor }
  | methodDecl {s s₁ id scopes types} : s.check .identifier → s.advance.check .typeSeparator →
      s.advance.advance.check .identifier → s.advance.advance.advance.check .arrow →
      s₁.scopes.declareMethod s.current.lexeme s.advance.advance.current.lexeme types s₁.cursor =
        .ok (id, scopes) →
      Production
        (.item (.methodDecl (.ofToken s.current) s.advance.advance.current.lexeme types)) s
        [⟨.types types, s.advance.advance.advance.advance, s₁⟩]
        (({ s₁ with scopes } : ParseState).pass .semicolon)
  | varDecl {s id scopes} : s.check .identifier → s.advance.check .typeSeparator →
      s.advance.advance.check .identifier →
      s.scopes.declareVariable s.current.lexeme s.cursor = .ok (id, scopes) →
      Production (.item (.varDecl (.ofToken s.current) s.advance.advance.current.lexeme)) s []
        (({ s.advance.advance.advance with scopes } : ParseState).pass .semicolon)
  | assignItem {s s₁ target e parts} : Production (.expr (.assign target e)) s parts s₁ →
      Production (.item (.assign target e)) s parts (s₁.pass .semicolon)
  | callItem {s s₁ callee args parts} : Production (.expr (.call callee args)) s parts s₁ →
      Production (.item (.call callee args)) s parts (s₁.pass .semicolon)
  | exprItem {s s₁ e} :
      Production (.item (.expr e)) s [⟨.expr e, s, s₁⟩] (s₁.pass .semicolon)
  | ifThen {s s₁ s₂ e body} : s.check .kwIf → s₁.current.isDo → s₂.check .kwEnd →
      Production (.item (.ifThen e body s.current.line)) s
        [⟨.expr e, s.advance, s₁⟩, ⟨.items body, s₁.advance, s₂⟩] (s₂.advance.pass .semicolon)
  | whileLoop {s s₁ s₂ e body} : s.check .kwWhile → s₁.current.isDo → s₂.check .kwEnd →
      Production (.item (.whileLoop e body s.current.line)) s
        [⟨.expr e, s.advance, s₁⟩, ⟨.items body, s₁.advance, s₂⟩] (s₂.advance.pass .semicolon)
  | methodBody {s s₁ s₂ m ps body} : s.check .identifier →
      s.scopes.resolveMethod s.current.lexeme s.cursor = some m →
      s.advance.check .leftParen → s₁.check .rightParen → s₁.advance.current.isDo →
      s₂.check .kwEnd →
      Production
        (.item (.methodBody
          ⟨(s₂.scopes.addImplementation m).1, m, .ofToken s.current, ps⟩ body)) s
        [⟨.patterns m ps,
            ({ s.advance with cursor := s.scopes.bodyCursor m } : ParseState).advance, s₁⟩,
          ⟨.items body, s₁.advance.advance, s₂⟩]
        (({ s₂.advance with
          scopes := (s₂.scopes.addImplementation m).2, cursor := s.cursor } :
            ParseState).pass .semicolon)
  | noItems {s} : Production (.items []) s [] s
  | items {s s₁ s₂ i is} :
      Production (.items (i :: is)) s [⟨.item i, s, s₁⟩, ⟨.items is, s₁, s₂⟩] s₂

namespace Production

variable {s s' : ParseState} {parts : List Passage}

theorem items_inv {i : Item} {is : List Item} (h : Production (.items (i :: is)) s parts s') :
    ∃ s₁, parts = [⟨.item i, s, s₁⟩, ⟨.items is, s₁, s'⟩] := by
  cases h
  exact ⟨_, rfl⟩

theorem classDecl_inv {name : Ident} {body : List Item}
    (h : Production (.item (.classDecl name body)) s parts s') :
    ∃ id scopes s₁, s.scopes.declareClass name.name s.cursor = .ok (id, scopes) ∧
      parts = [⟨.items body, { s.advance.advance with scopes, cursor := .inClass id }, s₁⟩] := by
  cases h with
  | classDecl _ _ hadd _ => exact ⟨_, _, _, hadd, rfl⟩

theorem varDecl_inv {name : Ident} {type : String}
    (h : Production (.item (.varDecl name type)) s parts s') :
    ∃ id, s.scopes.declareVariable name.name s.cursor = .ok (id, s'.scopes) := by
  cases h with
  | varDecl _ _ _ hadd => exact ⟨_, by simpa [Ident.ofToken] using hadd⟩

end Production

/-- A passage that productions build up. -/
inductive Passage.Read : Passage → Prop where
  | intro {phrase : Phrase} {s s' : ParseState} {parts : List Passage} :
      Production phrase s parts s' → (∀ ρ ∈ parts, Read ρ) → Read ⟨phrase, s, s'⟩

namespace Passage.Read

variable {phrase : Phrase} {s s' : ParseState}

theorem of_none (h : Production phrase s [] s') : Read ⟨phrase, s, s'⟩ :=
  .intro h fun _ hρ => absurd hρ List.not_mem_nil

theorem of_one {ρ : Passage} (h : Production phrase s [ρ] s') (hρ : ρ.Read) :
    Read ⟨phrase, s, s'⟩ :=
  .intro h fun _ hmem => List.mem_singleton.mp hmem ▸ hρ

theorem of_two {ρ₁ ρ₂ : Passage} (h : Production phrase s [ρ₁, ρ₂] s') (h₁ : ρ₁.Read)
    (h₂ : ρ₂.Read) : Read ⟨phrase, s, s'⟩ := by
  refine .intro h fun ρ hmem => ?_
  rcases List.mem_cons.mp hmem with rfl | hmem
  · exact h₁
  · exact List.mem_singleton.mp hmem ▸ h₂

/-- A passage that is read comes back to the place at which it started. -/
theorem cursor {ρ : Passage} (h : ρ.Read) : ρ.after.cursor = ρ.before.cursor := by
  induction h with
  | intro hprod _ ih =>
      induction hprod with
      | _ => simp_all

end Passage.Read

end BlockLang
