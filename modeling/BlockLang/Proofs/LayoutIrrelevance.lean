/-
  BlockLang.Proofs.LayoutIrrelevance

  How a program is laid out makes no difference.

  Blanks, comments and line breaks decide where tokens stand.  Texts with the same tokens up
  to their places are both rejected, or they are both accepted with the same table and with
  trees that are the same up to lines.  Rendering and running such trees give the same up to
  the line in an error.
-/
import BlockLang.Backend
import BlockLang.Proofs.Parser.Layout
import BlockLang.Proofs.Eval.Layout

namespace BlockLang

/-! ## Rendering -/

/-- An error without its line. -/
def RenderError.unlined (e : RenderError) : RenderError := ⟨e.fault, e.name, 0⟩

theorem mapError_bind {ε ε' α β : Type} (f : ε → ε') (x : Except ε α) (g : α → Except ε β) :
    (x >>= g).mapError f = x.mapError f >>= fun a => (g a).mapError f := by
  cases x <;> rfl

theorem renderCall_unlined (callee : Callee) (arguments : List String) :
    renderCall callee.unlined arguments = renderCall callee arguments := rfl

mutual

theorem Expr.render_unlined : ∀ e : Expr, e.unlined.render = e.render
  | .assign target value => by
      rw [Expr.unlined, Expr.render, Expr.render, Expr.render_unlined value]
      rfl
  | .binary _ left op right => by
      rw [Expr.unlined, Expr.render, Expr.render, Expr.render_unlined left,
        Expr.render_unlined right]
      rfl
  | .unary op operand => by
      rw [Expr.unlined, Expr.render, Expr.render, Expr.render_unlined operand]
      rfl
  | .grouping inner => by
      rw [Expr.unlined, Expr.render, Expr.render, Expr.render_unlined inner]
  | .literal _ => rfl
  | .name _ => rfl
  | .call callee arguments => by
      rw [Expr.unlined, Expr.render, Expr.render, renderExprs_unlined arguments,
        renderCall_unlined]

theorem renderExprs_unlined : ∀ es : List Expr, renderExprs (unlinedExprs es) = renderExprs es
  | [] => rfl
  | e :: es => by
      rw [unlinedExprs, renderExprs, renderExprs, Expr.render_unlined e, renderExprs_unlined es]

end

theorem renderParameters_unlined (patterns : List Pattern) (types : List String) :
    renderParameters (patterns.map Pattern.unlined) types = renderParameters patterns types := by
  induction patterns generalizing types with
  | nil => rfl
  | cons p patterns ih =>
      cases types with
      | nil => cases p <;> rfl
      | cons type types =>
          cases p with
          | value e => rfl
          | binding name =>
              rw [List.map_cons, Pattern.unlined, renderParameters, renderParameters, ih]
              rfl

theorem renderHead_unlined (frames : Frames) (head : BodyHead) :
    renderHead frames head.unlined = (renderHead frames head).mapError RenderError.unlined := by
  have hparameters (types : List String) :
      renderParameters head.unlined.patterns types = renderParameters head.patterns types :=
    renderParameters_unlined head.patterns types
  have hlength : head.unlined.patterns.length = head.patterns.length := List.length_map _
  rw [renderHead, renderHead, show head.unlined.name.name = head.name.name from rfl]
  cases findSignature? frames head.name.name with
  | none => rfl
  | some signature =>
      dsimp only
      rw [hparameters, hlength]
      split
      · rfl
      · cases renderParameters head.patterns signature.parameterTypes with
        | none => rfl
        | some parameters => rfl

mutual

theorem Item.render_unlined (indent : Nat) (frames : Frames) :
    ∀ i : Item, i.unlined.render indent frames =
      (i.render indent frames).mapError RenderError.unlined
  | .classDecl name body => by
      rw [Item.unlined, Item.render, Item.render, mapError_bind,
        renderItems_unlined (indent + 1) ([] :: frames) body]
      rfl
  | .methodDecl _ _ _ => rfl
  | .varDecl _ _ => rfl
  | .assign target value => by
      rw [Item.unlined, Item.render, Item.render, Expr.render_unlined]
      rfl
  | .ifThen condition body _ => by
      rw [Item.unlined, Item.render, Item.render, mapError_bind, Expr.render_unlined,
        renderItems_unlined (indent + 1) frames body]
      rfl
  | .whileLoop condition body _ => by
      rw [Item.unlined, Item.render, Item.render, mapError_bind, Expr.render_unlined,
        renderItems_unlined (indent + 1) frames body]
      rfl
  | .methodBody head body => by
      rw [Item.unlined, Item.render, Item.render, mapError_bind, renderHead_unlined]
      refine bind_congr fun heading => ?_
      rw [mapError_bind, renderItems_unlined (indent + 1) ([] :: frames) body]
      rfl
  | .call callee arguments => by
      rw [Item.unlined, Item.render, Item.render, renderExprs_unlined, renderCall_unlined]
      rfl
  | .expr e => by
      rw [Item.unlined, Item.render, Item.render, Expr.render_unlined]
      rfl

theorem renderItems_unlined (indent : Nat) (frames : Frames) :
    ∀ is : List Item, renderItems indent frames (unlinedItems is) =
      (renderItems indent frames is).mapError RenderError.unlined
  | [] => rfl
  | i :: is => by
      rw [unlinedItems, renderItems, renderItems, mapError_bind,
        Item.render_unlined indent frames i]
      refine bind_congr fun ⟨lines, frames⟩ => ?_
      dsimp only
      rw [mapError_bind, renderItems_unlined indent frames is]
      rfl

end

theorem renderProgram_unlined (items : List Item) :
    renderProgram (unlinedItems items) =
      (renderProgram items).mapError RenderError.unlined := by
  rw [renderProgram, renderProgram, mapError_bind, renderItems_unlined]
  rfl

/-! ## Using programs -/

/-- A response without the line of its error. -/
def Response.unlined : Response → Response
  | output text => output text
  | runFailure error printed => runFailure error.unlined printed
  | renderFailure error => renderFailure error.unlined
  | mismatchedBodies => mismatchedBodies
  | outOfFuel => outOfFuel

theorem Parsed.interpret_unlined (p : Parsed) (limit : Option Nat) (fuel : Nat) :
    p.unlined.interpret limit fuel = (p.interpret limit fuel).unlined := by
  rw [interpret, interpret, prepare?_unlined]
  cases p.prepare? limit with
  | none => rfl
  | some e =>
      dsimp only [Option.map_some]
      rw [e.outcome_unlined]
      cases e.outcome fuel <;> rfl

theorem Parsed.renderText_unlined (p : Parsed) : p.unlined.renderText = p.renderText.unlined := by
  rw [renderText, renderText, show p.unlined.items = unlinedItems p.items from rfl,
    renderProgram_unlined]
  cases renderProgram p.items <;> rfl

/-! ## Layout -/

/-- Token lists that differ in places only are both rejected, or both accepted with the same
    program up to lines. -/
theorem parseTokens_alike {tokens tokens' : List Token}
    (h : tokens.map Token.face = tokens'.map Token.face) :
    (∃ errors errors', parseTokens tokens = .error errors ∧ parseTokens tokens' = .error errors') ∨
    ∃ p p', parseTokens tokens = .ok p ∧ parseTokens tokens' = .ok p' ∧
      p.unlined = p'.unlined := by
  have hlength : tokens.length = tokens'.length := by
    simpa using congrArg List.length h
  have hrun := (follows_parseItems tokens.length false _ _
    (ParseState.alike_ofTokens h)).matched (ParseState.ofTokens_errors _)
      (ParseState.ofTokens_errors _)
  rw [ParseM.outcome_lift, ParseM.outcome_lift] at hrun
  rw [parseTokens, parseTokens, ← hlength]
  generalize (parseItems tokens.length false).run (.ofTokens tokens) = run at hrun ⊢
  generalize (parseItems tokens.length false).run (.ofTokens tokens') = run' at hrun ⊢
  obtain ⟨items, s⟩ := run
  obtain ⟨items', s'⟩ := run'
  dsimp only at hrun ⊢
  cases hrun with
  | failed hp hq =>
      -- Reading items always gives items, so where it failed an error has been noted.
      have hwrong {is : List Item} {r : ParseState}
          (h : ParseM.Fails ((.ok is : Except ParseError (List Item)), r)) :
          r.errors.isEmpty = false := by
        rcases h with ⟨e, he⟩ | herrors
        · cases he
        · simpa using herrors
      rw [hwrong hp, hwrong hq]
      exact .inl ⟨_, _, rfl, rfl⟩
  | succeeded hp hq hitems halike hs ht =>
      cases hp
      cases hq
      rw [hs, ht]
      refine .inr ⟨⟨items, s.scopes⟩, ⟨items', s'.scopes⟩, rfl, rfl, ?_⟩
      rw [Parsed.unlined, Parsed.unlined, hitems, halike.scopes]

/-- Two texts whose tokens have the same kinds, lexemes and literals mean the same.  Either
    both are rejected, or both are accepted with one table and one tree up to lines.  Then they
    are rendered as the same text or with the same error up to its line.  With every limit of
    loops a run of one ends exactly when a run of the other does, and with every amount of fuel
    the two give the same output and the same result, or the same error up to its line. -/
theorem layout_is_irrelevant {text text' : String} {tokens tokens' : List Token}
    (htokens : tokenize text = .ok tokens) (htokens' : tokenize text' = .ok tokens')
    (hfaces : tokens.map Token.face = tokens'.map Token.face) :
    (∃ ds ds', parse text = .error ds ∧ parse text' = .error ds') ∨
    ∃ p p', parse text = .ok p ∧ parse text' = .ok p' ∧
      p.scopes = p'.scopes ∧ unlinedItems p.items = unlinedItems p'.items ∧
      p.renderText.unlined = p'.renderText.unlined ∧
      ∀ limit, ((∃ fuel, p.interpret limit fuel ≠ .outOfFuel) ↔
          ∃ fuel, p'.interpret limit fuel ≠ .outOfFuel) ∧
        ∀ fuel, (p.interpret limit fuel).unlined = (p'.interpret limit fuel).unlined := by
  rw [parse, parse, htokens, htokens']
  dsimp only
  rcases parseTokens_alike hfaces with ⟨errors, errors', h, h'⟩ | ⟨p, p', h, h', hsame⟩
  · rw [h, h']
    exact .inl ⟨_, _, rfl, rfl⟩
  · rw [h, h']
    have hruns (limit : Option Nat) (fuel : Nat) :
        (p.interpret limit fuel).unlined = (p'.interpret limit fuel).unlined := by
      rw [← p.interpret_unlined, ← p'.interpret_unlined, hsame]
    -- Without its line an error is still one, so it can be told whether a run ends.
    have hends (r r' : Response) (hr : r.unlined = r'.unlined) :
        r ≠ .outOfFuel ↔ r' ≠ .outOfFuel := by
      cases r <;> cases r' <;> simp_all [Response.unlined]
    refine .inr ⟨p, p', rfl, rfl, congrArg (·.scopes) hsame, congrArg (·.items) hsame, ?_,
      fun limit => ⟨exists_congr fun fuel => hends _ _ (hruns limit fuel), hruns limit⟩⟩
    rw [← p.renderText_unlined, ← p'.renderText_unlined, hsame]

/-- A program on lines of its own. -/
def tallText : String := "x :: Int\nx = 7\nwhile x > 5 do\n  x = x - 1\nend\nprint(1 / (x - 5))\n"

/-- The same program on one line, with a comment behind it. -/
def flatText : String := "x::Int x=7 while x>5 do x=x - 1 end print(1/(x-5)) # fails\n"

theorem flat_layout_same_failure :
    ∃ p p', parse tallText = .ok p ∧ parse flatText = .ok p' ∧
      p.interpret none 40 = .runFailure (.divisionByZero 6) "" ∧
      (p'.interpret none 40).unlined = .runFailure (.divisionByZero 0) "" := by
  have htall : tokenize tallText = .ok (scan tallText).1 := by cbv
  have hflat : tokenize flatText = .ok (scan flatText).1 := by cbv
  have hfaces : (scan tallText).1.map Token.face = (scan flatText).1.map Token.face := by cbv
  have hfails : (parse tallText).map (·.interpret none 40) =
      .ok (.runFailure (.divisionByZero 6) "") := by cbv
  rcases layout_is_irrelevant htall hflat hfaces with
    ⟨_, _, herror, -⟩ | ⟨p, p', hp, hp', -, -, -, hruns⟩
  · rw [herror] at hfails
    cases hfails
  · rw [hp] at hfails
    have hrun : p.interpret none 40 = _ := Except.ok.inj hfails
    refine ⟨p, p', hp, hp', hrun, ?_⟩
    rw [← (hruns none).2 40, hrun]
    rfl

end BlockLang
