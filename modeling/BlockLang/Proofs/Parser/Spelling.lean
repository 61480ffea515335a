/-
  BlockLang.Proofs.Parser.Spelling

  The tokens of a program, apart from what its names stand for.

  Each phrase is spelled by tokens of its own with those of its parts between them.  This is
  the grammar without tables and places: a passage passes tokens that spell its phrase.  How
  tokens nest follows by induction over it.
-/
import BlockLang.Proofs.Parser.Production
import BlockLang.Proofs.Parser.Conduct
import BlockLang.Proofs.Tree.Stratified

namespace BlockLang

/-- The semicolon that may stand behind an item. -/
inductive OptionalSemicolon : List Token → Prop where
  | absent : OptionalSemicolon []
  | present {t} : t.kind = .semicolon → OptionalSemicolon [t]

/-- The tokens that spell a phrase. -/
inductive Phrase.SpelledBy : Phrase → List Token → Prop where
  | name {t} : t.kind = .identifier → SpelledBy (.expr (.name (.ofToken t))) [t]
  | literal {t v} : t.kind ∈ literalKinds → SpelledBy (.expr (.literal v)) [t]
  | grouping {opening closing ts e} : opening.kind = .leftParen → SpelledBy (.expr e) ts →
      closing.kind = .rightParen →
      SpelledBy (.expr (.grouping e)) (opening :: (ts ++ [closing]))
  | unary {t ts e} : t.kind = .bang ∨ t.kind = .minus → SpelledBy (.expr e) ts →
      SpelledBy (.expr (.unary (.ofToken t) e)) (t :: ts)
  | binary {t ls rs level left right} : SpelledBy (.expr left) ls → t.kind ∈ level.operators →
      SpelledBy (.expr right) rs →
      SpelledBy (.expr (.binary level left (.ofToken t) right)) (ls ++ t :: rs)
  | assign {t equal ts e} : t.kind = .identifier → equal.kind = .equal → SpelledBy (.expr e) ts →
      SpelledBy (.expr (.assign (.ofToken t) e)) (t :: equal :: ts)
  | call {t opening closing ts callee args} : callee.WrittenBy t → opening.kind = .leftParen →
      SpelledBy (.arguments args) ts → closing.kind = .rightParen →
      SpelledBy (.expr (.call callee args)) (t :: opening :: (ts ++ [closing]))
  | noArguments : SpelledBy (.arguments []) []
  | lastArgument {ts e} : SpelledBy (.expr e) ts → SpelledBy (.arguments [e]) ts
  | argument {comma ts ts' e e' es} : SpelledBy (.expr e) ts → comma.kind = .comma →
      SpelledBy (.arguments (e' :: es)) ts' →
      SpelledBy (.arguments (e :: e' :: es)) (ts ++ comma :: ts')
  | lastType {t} : t.kind = .identifier → SpelledBy (.types [t.lexeme]) [t]
  | type {t comma ts name names} : t.kind = .identifier → comma.kind = .comma →
      SpelledBy (.types (name :: names)) ts →
      SpelledBy (.types (t.lexeme :: name :: names)) (t :: comma :: ts)
  | binding {t m} : t.kind = .identifier → SpelledBy (.pattern m (.binding (.ofToken t))) [t]
  | value {ts m e} : SpelledBy (.expr e) ts → SpelledBy (.pattern m (.value e)) ts
  | noPatterns {m} : SpelledBy (.patterns m []) []
  | lastPattern {ts m p} : SpelledBy (.pattern m p) ts → SpelledBy (.patterns m [p]) ts
  | pattern {comma ts ts' m p p' ps} : SpelledBy (.pattern m p) ts → comma.kind = .comma →
      SpelledBy (.patterns m (p' :: ps)) ts' →
      SpelledBy (.patterns m (p :: p' :: ps)) (ts ++ comma :: ts')
  | classDecl {keyword t last ts body} : keyword.kind = .kwClass → t.kind = .identifier →
      SpelledBy (.items body) ts → last.kind = .kwEnd →
      SpelledBy (.item (.classDecl (.ofToken t) body)) (keyword :: t :: (ts ++ [last]))
  | methodDecl {t separator type arrow ts semis types} : t.kind = .identifier →
      separator.kind = .typeSeparator → type.kind = .identifier → arrow.kind = .arrow →
      SpelledBy (.types types) ts → OptionalSemicolon semis →
      SpelledBy (.item (.methodDecl (.ofToken t) type.lexeme types))
        (t :: separator :: type :: arrow :: (ts ++ semis))
  | varDecl {t separator type semis} : t.kind = .identifier → separator.kind = .typeSeparator →
      type.kind = .identifier → OptionalSemicolon semis →
      SpelledBy (.item (.varDecl (.ofToken t) type.lexeme)) (t :: separator :: type :: semis)
  | assignItem {ts semis target e} : SpelledBy (.expr (.assign target e)) ts →
      OptionalSemicolon semis → SpelledBy (.item (.assign target e)) (ts ++ semis)
  | callItem {ts semis callee args} : SpelledBy (.expr (.call callee args)) ts →
      OptionalSemicolon semis → SpelledBy (.item (.call callee args)) (ts ++ semis)
  | exprItem {ts semis e} : SpelledBy (.expr e) ts → OptionalSemicolon semis →
      SpelledBy (.item (.expr e)) (ts ++ semis)
  | ifThen {keyword start last cs ts semis e body line} : keyword.kind = .kwIf →
      SpelledBy (.expr e) cs → start.isDo → SpelledBy (.items body) ts → last.kind = .kwEnd →
      OptionalSemicolon semis →
      SpelledBy (.item (.ifThen e body line))
        (keyword :: (cs ++ start :: (ts ++ last :: semis)))
  | whileLoop {keyword start last cs ts semis e body line} : keyword.kind = .kwWhile →
      SpelledBy (.expr e) cs → start.isDo → SpelledBy (.items body) ts → last.kind = .kwEnd →
      OptionalSemicolon semis →
      SpelledBy (.item (.whileLoop e body line))
        (keyword :: (cs ++ start :: (ts ++ last :: semis)))
  | methodBody {t opening closing start last ps ts semis id m patterns body} :
      t.kind = .identifier → opening.kind = .leftParen → SpelledBy (.patterns m patterns) ps →
      closing.kind = .rightParen → start.isDo → SpelledBy (.items body) ts → last.kind = .kwEnd →
      OptionalSemicolon semis →
      SpelledBy (.item (.methodBody ⟨id, m, .ofToken t, patterns⟩ body))
        (t :: opening :: (ps ++ closing :: start :: (ts ++ last :: semis)))
  | noItems : SpelledBy (.items []) []
  | items {ts ts' i is} : SpelledBy (.item i) ts → SpelledBy (.items is) ts' →
      SpelledBy (.items (i :: is)) (ts ++ ts')

/-! ## Passages -/

namespace ParseState

variable {s s' : ParseState}

/-- Between two states of a program, tokens that spell a phrase are passed. -/
def Spells (s : ParseState) (φ : Phrase) (s' : ParseState) : Prop :=
  s.Closed → ∃ tokens, s.Passes tokens s' ∧ φ.SpelledBy tokens

/-- The token that was checked is passed. -/
theorem passes_checked {kind : TokenKind} (hs : s.Closed) (h : s.check kind)
    (hkind : kind ≠ .endOfInput) :
    s.current.kind = kind ∧ s.Passes [s.current] s.advance ∧ s.advance.Closed := by
  have hpass := passes_of_check hs h hkind
  exact ⟨by simpa [check] using h, hpass, hpass.closed hs⟩

theorem passes_do (hs : s.Closed) (h : s.current.isDo) :
    s.Passes [s.current] s.advance ∧ s.advance.Closed := by
  simp only [Token.isDo, Bool.and_eq_true, decide_eq_true_eq] at h
  have hname : s.check .identifier := by simpa [check] using h.1
  exact (passes_checked hs hname (by decide)).2

theorem passes_semicolon (hs : s.Closed) :
    ∃ semis, OptionalSemicolon semis ∧ s.Passes semis (s.pass .semicolon) := by
  unfold pass
  split
  · rename_i h
    obtain ⟨hkind, hpass, -⟩ := passes_checked hs h (by decide)
    exact ⟨_, .present hkind, hpass⟩
  · exact ⟨[], .absent, .refl s⟩

/-- A condition and a block behind a keyword, whichever keyword it is. -/
theorem Spells.conditional {kind : TokenKind} {s₁ s₂ : ParseState} {e : Expr} {body : List Item}
    {φ : Phrase} (hkeyword : s.check kind) (hkind : kind ≠ .endOfInput)
    (hcond : s.advance.Spells (.expr e) s₁) (hdo : s₁.current.isDo)
    (hbody : s₁.advance.Spells (.items body) s₂) (hend : s₂.check .kwEnd)
    (hφ : ∀ {keyword start last cs ts semis}, keyword.kind = kind → (Phrase.expr e).SpelledBy cs →
      start.isDo → (Phrase.items body).SpelledBy ts → last.kind = .kwEnd →
      OptionalSemicolon semis → φ.SpelledBy (keyword :: (cs ++ start :: (ts ++ last :: semis)))) :
    s.Spells φ (s₂.advance.pass .semicolon) := by
  intro hs
  obtain ⟨hkind₁, hpass₁, hs₁⟩ := passes_checked hs hkeyword hkind
  obtain ⟨cs, hpass₂, hspell⟩ := hcond hs₁
  obtain ⟨hpass₃, hs₃⟩ := passes_do (hpass₂.closed hs₁) hdo
  obtain ⟨ts, hpass₄, hspell'⟩ := hbody hs₃
  obtain ⟨hkind₂, hpass₅, hs₅⟩ := passes_checked (hpass₄.closed hs₃) hend (by decide)
  obtain ⟨semis, hsemis, hpass₆⟩ := passes_semicolon hs₅
  exact ⟨_, hpass₁.trans (hpass₂.trans (hpass₃.trans (hpass₄.trans (hpass₅.trans hpass₆)))),
    hφ hkind₁ hspell hdo hspell' hkind₂ hsemis⟩

end ParseState

open ParseState in
/-- A production passes its own tokens around those of its parts. -/
theorem Production.spells {φ : Phrase} {s s' : ParseState} {parts : List Passage}
    (h : Production φ s parts s')
    (hparts : ∀ σ ∈ parts, σ.before.Spells σ.phrase σ.after) : s.Spells φ s' := by
  have hfirst {σ : Passage} {rest : List Passage} : σ ∈ σ :: rest := List.mem_cons_self
  have hlast {σ τ : Passage} : τ ∈ [σ, τ] := List.mem_cons_of_mem σ List.mem_cons_self
  intro hs
  -- The induction is for calls and assignments that are statements: they are productions inside
  -- productions, where all others have passages as parts.
  induction h with
  | name hname _ =>
      obtain ⟨hkind, hpass, -⟩ := passes_checked hs hname (by decide)
      exact ⟨_, hpass, .name hkind⟩
  | @literal s v hkind _ =>
      have hend : s.current.kind ≠ .endOfInput := fun hend => absurd (hend ▸ hkind) (by decide)
      obtain ⟨-, hpass, -⟩ := passes_checked hs (by simp [check]) hend
      exact ⟨_, hpass, .literal hkind⟩
  | grouping hopen hclose =>
      obtain ⟨hkind, hpass, hs₁⟩ := passes_checked hs hopen (by decide)
      obtain ⟨ts, hinner, hspell⟩ := hparts _ hfirst hs₁
      obtain ⟨hkind', hpass', -⟩ := passes_checked (hinner.closed hs₁) hclose (by decide)
      exact ⟨_, hpass.trans (hinner.trans hpass'), .grouping hkind hspell hkind'⟩
  | @unary s s₁ e hsign =>
      have hkind : s.current.kind = .bang ∨ s.current.kind = .minus := by
        simpa [check] using hsign
      have hend : s.current.kind ≠ .endOfInput := by
        rcases hkind with hkind | hkind <;> simp [hkind]
      obtain ⟨-, hpass, hs₁⟩ := passes_checked hs (by simp [check]) hend
      obtain ⟨ts, hinner, hspell⟩ := hparts _ hfirst hs₁
      exact ⟨_, hpass.trans hinner, .unary hkind hspell⟩
  | @binary s s₁ s₂ level left right hop =>
      obtain ⟨ls, hleft, hspellLeft⟩ := hparts _ hfirst hs
      have hs₁ := hleft.closed hs
      have hcontains : level.operators.contains s₁.current.kind := by simpa using hop
      have hpass := passes_advance hs₁ (atEnd_of_operator hcontains)
      obtain ⟨rs, hright, hspellRight⟩ := hparts _ hlast (hpass.closed hs₁)
      exact ⟨_, hleft.trans (hpass.trans hright), .binary hspellLeft hop hspellRight⟩
  | assign hname _ hequal =>
      obtain ⟨hkind, hpass, hs₁⟩ := passes_checked hs hname (by decide)
      obtain ⟨hkind', hpass', hs₂⟩ := passes_checked hs₁ hequal (by decide)
      obtain ⟨ts, hvalue, hspell⟩ := hparts _ hfirst hs₂
      exact ⟨_, hpass.trans (hpass'.trans hvalue), .assign hkind hkind' hspell⟩
  | @call s s₁ callee args hcallee hopen hclose =>
      obtain ⟨hwritten, hpass₁⟩ : callee.WrittenBy s.current ∧ s.Passes [s.current] s.advance := by
        cases hcallee with
        | builtin hprint =>
            obtain ⟨hkind₁, hpass₁, -⟩ := passes_checked hs hprint (by decide)
            exact ⟨.builtin hkind₁, hpass₁⟩
        | method hname _ =>
            obtain ⟨hkind₁, hpass₁, -⟩ := passes_checked hs hname (by decide)
            exact ⟨.method hkind₁, hpass₁⟩
      obtain ⟨hkind₁, hpass₂, hs₂⟩ := passes_checked (hpass₁.closed hs) hopen (by decide)
      obtain ⟨ts, hargs, hspell⟩ := hparts _ hfirst hs₂
      obtain ⟨hkind₂, hpass₃, -⟩ := passes_checked (hargs.closed hs₂) hclose (by decide)
      exact ⟨_, hpass₁.trans (hpass₂.trans (hargs.trans hpass₃)),
        .call hwritten hkind₁ hspell hkind₂⟩
  | @noArguments s => exact ⟨[], .refl s, .noArguments⟩
  | lastArgument =>
      obtain ⟨ts, hpass, hspell⟩ := hparts _ hfirst hs
      exact ⟨ts, hpass, .lastArgument hspell⟩
  | argument hcomma =>
      obtain ⟨ts, hpass, hspell⟩ := hparts _ hfirst hs
      obtain ⟨hkind, hpass', hs₂⟩ := passes_checked (hpass.closed hs) hcomma (by decide)
      obtain ⟨ts', hmore, hspell'⟩ := hparts _ hlast hs₂
      exact ⟨_, hpass.trans (hpass'.trans hmore), .argument hspell hkind hspell'⟩
  | lastType hname =>
      obtain ⟨hkind, hpass, -⟩ := passes_checked hs hname (by decide)
      exact ⟨_, hpass, .lastType hkind⟩
  | type hname hcomma =>
      obtain ⟨hkind, hpass, hs₁⟩ := passes_checked hs hname (by decide)
      obtain ⟨hkind', hpass', hs₂⟩ := passes_checked hs₁ hcomma (by decide)
      obtain ⟨ts, hmore, hspell⟩ := hparts _ hfirst hs₂
      exact ⟨_, hpass.trans (hpass'.trans hmore), .type hkind hkind' hspell⟩
  | binding hname =>
      obtain ⟨hkind, hpass, -⟩ := passes_checked hs hname (by decide)
      exact ⟨_, ⟨hpass.rest, hpass.noEnd, hpass.closing⟩, .binding hkind⟩
  | value _ =>
      obtain ⟨ts, hpass, hspell⟩ := hparts _ hfirst hs
      exact ⟨ts, hpass, .value hspell⟩
  | @noPatterns s _ => exact ⟨[], .refl s, .noPatterns⟩
  | lastPattern =>
      obtain ⟨ts, hpass, hspell⟩ := hparts _ hfirst hs
      exact ⟨ts, hpass, .lastPattern hspell⟩
  | pattern hcomma =>
      obtain ⟨ts, hpass, hspell⟩ := hparts _ hfirst hs
      obtain ⟨hkind, hpass', hs₂⟩ := passes_checked (hpass.closed hs) hcomma (by decide)
      obtain ⟨ts', hmore, hspell'⟩ := hparts _ hlast hs₂
      exact ⟨_, hpass.trans (hpass'.trans hmore), .pattern hspell hkind hspell'⟩
  | classDecl hclass hname _ hend =>
      obtain ⟨hkind₁, hpass₁, hs₁⟩ := passes_checked hs hclass (by decide)
      obtain ⟨hkind₂, hpass₂, hs₂⟩ := passes_checked hs₁ hname (by decide)
      obtain ⟨ts, hbody, hspell⟩ := hparts _ hfirst hs₂
      obtain ⟨hkind₃, hpass₃, -⟩ := passes_checked (hbody.closed hs₂) hend (by decide)
      -- The class is declared and the place changes in between, which leaves the tokens alone.
      have hinner := hbody.trans hpass₃
      have hall := hpass₁.trans (hpass₂.trans ⟨hinner.rest, hinner.noEnd, hinner.closing⟩)
      exact ⟨_, ⟨hall.rest, hall.noEnd, hall.closing⟩, .classDecl hkind₁ hkind₂ hspell hkind₃⟩
  | @methodDecl s s₁ id scopes types hname hsep htype harrow _ =>
      obtain ⟨hkind₁, hpass₁, hs₁⟩ := passes_checked hs hname (by decide)
      obtain ⟨hkind₂, hpass₂, hs₂⟩ := passes_checked hs₁ hsep (by decide)
      obtain ⟨hkind₃, hpass₃, hs₃⟩ := passes_checked hs₂ htype (by decide)
      obtain ⟨hkind₄, hpass₄, hs₄⟩ := passes_checked hs₃ harrow (by decide)
      obtain ⟨ts, htypes, hspell⟩ := hparts _ hfirst hs₄
      obtain ⟨semis, hsemis, hsemi⟩ :=
        passes_semicolon (s := { s₁ with scopes }) (htypes.closed hs₄)
      have hall := hpass₁.trans (hpass₂.trans (hpass₃.trans (hpass₄.trans
        (htypes.trans ⟨hsemi.rest, hsemi.noEnd, hsemi.closing⟩))))
      exact ⟨_ :: _ :: _ :: _ :: (ts ++ semis), hall,
        .methodDecl hkind₁ hkind₂ hkind₃ hkind₄ hspell hsemis⟩
  | @varDecl s id scopes hname hsep htype _ =>
      obtain ⟨hkind₁, hpass₁, hs₁⟩ := passes_checked hs hname (by decide)
      obtain ⟨hkind₂, hpass₂, hs₂⟩ := passes_checked hs₁ hsep (by decide)
      obtain ⟨hkind₃, hpass₃, hs₃⟩ := passes_checked hs₂ htype (by decide)
      obtain ⟨semis, hsemis, hsemi⟩ :=
        passes_semicolon (s := { s.advance.advance.advance with scopes }) hs₃
      have hall := hpass₁.trans (hpass₂.trans
        (hpass₃.trans ⟨hsemi.rest, hsemi.noEnd, hsemi.closing⟩))
      exact ⟨_, hall, .varDecl hkind₁ hkind₂ hkind₃ hsemis⟩
  | assignItem _ ih =>
      obtain ⟨ts, hpass, hspell⟩ := ih hparts hs
      obtain ⟨semis, hsemis, hpass'⟩ := passes_semicolon (hpass.closed hs)
      exact ⟨_, hpass.trans hpass', .assignItem hspell hsemis⟩
  | callItem _ ih =>
      obtain ⟨ts, hpass, hspell⟩ := ih hparts hs
      obtain ⟨semis, hsemis, hpass'⟩ := passes_semicolon (hpass.closed hs)
      exact ⟨_, hpass.trans hpass', .callItem hspell hsemis⟩
  | exprItem =>
      obtain ⟨ts, hpass, hspell⟩ := hparts _ hfirst hs
      obtain ⟨semis, hsemis, hpass'⟩ := passes_semicolon (hpass.closed hs)
      exact ⟨_, hpass.trans hpass', .exprItem hspell hsemis⟩
  | ifThen hif hdo hend =>
      exact Spells.conditional hif (by decide) (hparts _ hfirst) hdo (hparts _ hlast) hend
        .ifThen hs
  | whileLoop hwhile hdo hend =>
      exact Spells.conditional hwhile (by decide) (hparts _ hfirst) hdo (hparts _ hlast) hend
        .whileLoop hs
  | @methodBody s s₁ s₂ m ps body hname _ hopen hclose hdo hend =>
      obtain ⟨hkind₁, hpass₁, hs₁⟩ := passes_checked hs hname (by decide)
      obtain ⟨hkind₂, hpass₂, hs₂⟩ := passes_checked
        (s := { s.advance with cursor := s.scopes.bodyCursor m }) hs₁ hopen (by decide)
      obtain ⟨ts, hpatterns, hspell⟩ := hparts _ hfirst hs₂
      obtain ⟨hkind₃, hpass₃, hs₃⟩ := passes_checked (hpatterns.closed hs₂) hclose (by decide)
      obtain ⟨hpass₄, hs₄⟩ := passes_do hs₃ hdo
      obtain ⟨ts', hbody, hspell'⟩ := hparts _ hlast hs₄
      obtain ⟨hkind₄, hsemi, hs₅⟩ := passes_checked (hbody.closed hs₄) hend (by decide)
      obtain ⟨semis, hsemis, htrail⟩ := passes_semicolon (s := { s₂.advance with
        scopes := (s₂.scopes.addImplementation m).2, cursor := s.cursor }) hs₅
      have hinner := hpass₂.trans (hpatterns.trans (hpass₃.trans (hpass₄.trans
        (hbody.trans (hsemi.trans ⟨htrail.rest, htrail.noEnd, htrail.closing⟩)))))
      exact ⟨_, hpass₁.trans ⟨hinner.rest, hinner.noEnd, hinner.closing⟩,
        .methodBody hkind₁ hkind₂ hspell hkind₃ hdo hspell' hkind₄ hsemis⟩
  | @noItems s => exact ⟨[], .refl s, .noItems⟩
  | items =>
      obtain ⟨ts, hpass, hspell⟩ := hparts _ hfirst hs
      obtain ⟨ts', hmore, hspell'⟩ := hparts _ hlast (hpass.closed hs)
      exact ⟨_, hpass.trans hmore, .items hspell hspell'⟩

/-- A passage that is read passes tokens that spell its phrase. -/
theorem Passage.Read.spells {ρ : Passage} (h : ρ.Read) : ρ.before.Spells ρ.phrase ρ.after := by
  induction h with
  | intro hprod _ ih => exact hprod.spells ih

end BlockLang
