/-
  BlockLang.Proofs.Parser.Passage

  What holds between the two states of a passage.

  Reading a phrase comes back to the place at which it started, and the table grows:
  it stays coherent and goes on containing all that it contained.  The parts of a
  passage are read inside it, so the table behind a part is one that the table
  behind the whole extends.
-/
import BlockLang.Proofs.Parser.Production
import BlockLang.Proofs.Parser.Conduct
import BlockLang.Proofs.Scope.Registration

namespace BlockLang

/-- The method of whose bodies a phrase is a parameter. -/
def Phrase.parameterOf? : Phrase → Option MethodId
  | pattern m _ => some m
  | patterns m _ => some m
  | _ => none

/-- A state in which a phrase can be read. -/
structure ParseState.Ready (s : ParseState) (φ : Phrase) : Prop where
  coherent : s.scopes.Coherent
  within : s.scopes.Within s.cursor
  /-- Parameters stand inside the body that they belong to. -/
  inBody : ∀ m, φ.parameterOf? = some m → s.cursor.method = some m

/-- The table of the second state has grown out of that of the first one, at the same
    place. -/
structure ParseState.Grows (s s' : ParseState) : Prop where
  cursor : s'.cursor = s.cursor
  extension : s.scopes.Extends s'.scopes
  coherent : s'.scopes.Coherent

/-- The two states differ in the tokens at most. -/
structure ParseState.Beside (s s' : ParseState) : Prop where
  scopes : s'.scopes = s.scopes
  cursor : s'.cursor = s.cursor

namespace ParseState

variable {s s₁ s₂ s' : ParseState} {φ ψ : Phrase}

theorem Beside.advance (s : ParseState) : s.Beside s.advance := ⟨s.advance_scopes, s.advance_cursor⟩

theorem Beside.pass (s : ParseState) (kind : TokenKind) : s.Beside (s.pass kind) :=
  ⟨s.pass_scopes kind, s.pass_cursor kind⟩

theorem Beside.refl (s : ParseState) : s.Beside s := ⟨rfl, rfl⟩

theorem Beside.trans (h₁ : s.Beside s₁) (h₂ : s₁.Beside s₂) : s.Beside s₂ :=
  ⟨h₂.scopes.trans h₁.scopes, h₂.cursor.trans h₁.cursor⟩

/-- Behind some tokens, a phrase can be read that is a parameter only where the first
    one is. -/
theorem Ready.beside (hs : s.Ready φ) (h : s.Beside s₁)
    (hψ : ∀ m, ψ.parameterOf? = some m → φ.parameterOf? = some m) : s₁.Ready ψ where
  coherent := h.scopes ▸ hs.coherent
  within := by
    rw [h.scopes, h.cursor]
    exact hs.within
  inBody m hm := by
    rw [h.cursor]
    exact hs.inBody m (hψ m hm)

/-- A part that is no parameter can be read wherever the whole can. -/
theorem Ready.part (hs : s.Ready φ) (h : s.Beside s₁) (hψ : ψ.parameterOf? = none) : s₁.Ready ψ :=
  hs.beside h fun _ hm => absurd (hψ.symm.trans hm) nofun

theorem Ready.grows (hs : s.Ready φ) (h : s.Grows s₁) : s₁.Ready φ where
  coherent := h.coherent
  within := by
    rw [h.cursor]
    exact h.extension.within hs.within
  inBody m hm := by
    rw [h.cursor]
    exact hs.inBody m hm

/-- In front of a program, its items can be read. -/
theorem ready_ofTokens (tokens : List Token) (items : List Item) :
    (ofTokens tokens).Ready (.items items) := by
  refine ⟨?_, ?_, fun _ hm => (nomatch hm)⟩
  · rw [ofTokens_scopes]
    exact ScopeTable.coherent_empty
  · rw [ofTokens_cursor]
    exact ScopeTable.within_global _

theorem Grows.of_beside (hs : s.scopes.Coherent) (h : s.Beside s₁) : s.Grows s₁ where
  cursor := h.cursor
  extension := by
    rw [h.scopes]
    exact .refl _
  coherent := h.scopes ▸ hs

theorem Grows.trans (h₁ : s.Grows s₁) (h₂ : s₁.Grows s₂) : s.Grows s₂ where
  cursor := h₂.cursor.trans h₁.cursor
  extension := h₁.extension.trans h₂.extension
  coherent := h₂.coherent

end ParseState

/-! ## One production -/

/-- What reading a phrase from its parts does to the table. -/
structure Spans (s : ParseState) (parts : List Passage) (s' : ParseState) : Prop where
  grows : s.Grows s'
  ready : ∀ σ ∈ parts, σ.before.Ready σ.phrase
  inside : ∀ σ ∈ parts, σ.after.scopes.Extends s'.scopes

namespace Spans

variable {s s' : ParseState} {σ τ : Passage}

theorem of_none (h : s.Grows s') : Spans s [] s' :=
  ⟨h, fun _ hσ => absurd hσ List.not_mem_nil, fun _ hσ => absurd hσ List.not_mem_nil⟩

theorem of_one (h : s.Grows s') (hσ : σ.before.Ready σ.phrase)
    (hin : σ.after.scopes.Extends s'.scopes) : Spans s [σ] s' := by
  refine ⟨h, fun ρ hρ => ?_, fun ρ hρ => ?_⟩
  · exact List.mem_singleton.mp hρ ▸ hσ
  · exact List.mem_singleton.mp hρ ▸ hin

theorem of_two (h : s.Grows s') (hσ : σ.before.Ready σ.phrase)
    (hσin : σ.after.scopes.Extends s'.scopes) (hτ : τ.before.Ready τ.phrase)
    (hτin : τ.after.scopes.Extends s'.scopes) : Spans s [σ, τ] s' := by
  refine ⟨h, fun ρ hρ => ?_, fun ρ hρ => ?_⟩
  · rcases List.mem_cons.mp hρ with rfl | hρ
    · exact hσ
    · exact List.mem_singleton.mp hρ ▸ hτ
  · rcases List.mem_cons.mp hρ with rfl | hρ
    · exact hσin
    · exact List.mem_singleton.mp hρ ▸ hτin

/-- A phrase between an opening and an ending that may change the place and let the
    table grow, if they come back to where they started. -/
theorem enclose {s₀ s₁ : ParseState} {parts : List Passage} (h : Spans s₀ parts s₁)
    (hopen : s.scopes.Extends s₀.scopes) (hclose : s₁.scopes.Extends s'.scopes)
    (hs' : s'.scopes.Coherent) (hcursor : s'.cursor = s.cursor) : Spans s parts s' :=
  ⟨⟨hcursor, (hopen.trans h.grows.extension).trans hclose, hs'⟩, h.ready,
    fun σ hσ => (h.inside σ hσ).trans hclose⟩

/-- A phrase with tokens behind it. -/
theorem trailing {s₁ : ParseState} {parts : List Passage} (h : Spans s parts s₁)
    (htokens : s₁.Beside s') : Spans s parts s' := by
  have hlast := ParseState.Grows.of_beside h.grows.coherent htokens
  exact h.enclose (.refl _) hlast.extension hlast.coherent (h.grows.trans hlast).cursor

/-- A phrase with one part, around which only tokens are read. -/
theorem around_one (hσ : σ.before.Ready σ.phrase)
    (hp : ∀ ρ ∈ [σ], ρ.before.Ready ρ.phrase → ρ.before.Grows ρ.after)
    (hbefore : s.Beside σ.before) (hafter : σ.after.Beside s') : Spans s [σ] s' := by
  have hs : s.scopes.Coherent := hbefore.scopes ▸ hσ.coherent
  have hgrow := hp σ List.mem_cons_self hσ
  have hspan := of_one ((ParseState.Grows.of_beside hs hbefore).trans hgrow) hσ (.refl _)
  exact hspan.trailing hafter

/-- A phrase with two parts, around which only tokens are read. -/
theorem around_two (hσ : σ.before.Ready σ.phrase)
    (hp : ∀ ρ ∈ [σ, τ], ρ.before.Ready ρ.phrase → ρ.before.Grows ρ.after)
    (hφ : ∀ m, τ.phrase.parameterOf? = some m → σ.phrase.parameterOf? = some m)
    (hbefore : s.Beside σ.before)
    (hmid : σ.after.Beside τ.before) (hafter : τ.after.Beside s') : Spans s [σ, τ] s' := by
  have hs : s.scopes.Coherent := hbefore.scopes ▸ hσ.coherent
  have hσgrow := hp σ List.mem_cons_self hσ
  have hτ : τ.before.Ready τ.phrase := (hσ.grows hσgrow).beside hmid hφ
  have hτgrow := hp τ (List.mem_cons_of_mem σ List.mem_cons_self) hτ
  have htail := (ParseState.Grows.of_beside hσgrow.coherent hmid).trans hτgrow
  have hspan := of_two (((ParseState.Grows.of_beside hs hbefore).trans hσgrow).trans htail) hσ
    htail.extension hτ (.refl _)
  exact hspan.trailing hafter

end Spans

/-- A method that is found is one of the table. -/
theorem ScopeTable.Coherent.resolveMethod_lt {t : ScopeTable} (ht : t.Coherent) {name : String}
    {c : Cursor} {m : MethodId} (h : t.resolveMethod name c = some m) : m < t.methods.size := by
  obtain ⟨owner, _, hfind⟩ := resolveMethod_eq_some h
  exact ht.lt_count_of_mem (find?_eq_some hfind).1

/-- Declaring an entity at the place where reading stands lets the table grow. -/
theorem ParseState.Ready.registers {s : ParseState} {φ : Phrase} (hs : s.Ready φ)
    {kind : EntityKind} {new : Heading} {scopes : ScopeTable}
    (h : s.scopes.Registers kind new scopes) (hplace : s.scopes.Within new.place) :
    s.Grows { s with scopes } :=
  ⟨rfl, h.extension, h.coherent hs.coherent hplace⟩

namespace Production

variable {φ : Phrase} {s s' : ParseState} {parts : List Passage}

/-- What one production does to the table, when its parts let it grow. -/
theorem spans (h : Production φ s parts s') (hs : s.Ready φ)
    (hp : ∀ σ ∈ parts, σ.before.Ready σ.phrase → σ.before.Grows σ.after) : Spans s parts s' := by
  -- Most productions read tokens around their parts; declarations, parameters and bodies
  -- touch the table, classes and bodies change the place.
  induction h with
  | @name s _ _ => exact .of_none (.of_beside hs.coherent (.advance s))
  | @literal s _ _ _ => exact .of_none (.of_beside hs.coherent (.advance s))
  | @grouping s s₁ _ _ _ =>
      exact .around_one (hs.part (.advance s) rfl) hp (.advance s) (.advance s₁)
  | @unary s s₁ _ _ => exact .around_one (hs.part (.advance s) rfl) hp (.advance s) (.refl s₁)
  | @binary s s₁ s₂ _ _ _ _ =>
      exact .around_two (hs.part (.refl s) rfl) hp (fun _ h => h) (.refl s) (.advance s₁) (.refl s₂)
  | @assign s s₁ _ _ _ _ _ =>
      have htokens := (ParseState.Beside.advance s).trans (.advance s.advance)
      exact .around_one (hs.part htokens rfl) hp htokens (.refl s₁)
  | @call s s₁ _ _ _ _ _ =>
      have htokens := (ParseState.Beside.advance s).trans (.advance s.advance)
      exact .around_one (hs.part htokens rfl) hp htokens (.advance s₁)
  | @noArguments s => exact .of_none (.of_beside hs.coherent (.refl s))
  | @lastArgument s s₁ _ =>
      exact .around_two (hs.part (.refl s) rfl) hp (fun _ h => h) (.refl s) (.refl s₁) (.refl s₁)
  | @argument s s₁ s₂ _ _ _ _ =>
      exact .around_two (hs.part (.refl s) rfl) hp (fun _ h => h) (.refl s) (.advance s₁) (.refl s₂)
  | @lastType s _ => exact .of_none (.of_beside hs.coherent (.advance s))
  | @type s s₁ _ _ _ _ =>
      have htokens := (ParseState.Beside.advance s).trans (.advance s.advance)
      exact .around_one (hs.part htokens rfl) hp htokens (.refl s₁)
  | @binding s m _ =>
      have hm : m < s.scopes.methods.size := hs.within.method m (hs.inBody m rfl)
      exact .of_none ⟨s.advance_cursor, ScopeTable.extends_bindParameter hm _,
        hs.coherent.bindParameter hm _⟩
  | @value s s₁ _ _ _ => exact .around_one (hs.part (.refl s) rfl) hp (.refl s) (.refl s₁)
  | @noPatterns s _ => exact .of_none (.of_beside hs.coherent (.refl s))
  | @lastPattern s s₁ _ _ =>
      exact .around_two (hs.beside (.refl s) fun _ h => h) hp (fun _ h => h) (.refl s) (.refl s₁)
        (.refl s₁)
  | @pattern s s₁ s₂ _ _ _ _ _ =>
      exact .around_two (hs.beside (.refl s) fun _ h => h) hp (fun _ h => h) (.refl s) (.advance s₁)
        (.refl s₂)
  | @classDecl s s₁ id scopes body _ _ hadd _ =>
      obtain ⟨-, rfl, hreg⟩ := ScopeTable.registers_declareClass (hs.within.hasOwner .cls) hadd
      have hdecl := hs.registers hreg hs.within.outside
      -- The block is read inside the new class, in the table that has it.
      have hbody : ParseState.Ready { s.advance.advance with
          scopes, cursor := .inClass s.scopes.classes.size } (.items body) :=
        ⟨hdecl.coherent, ScopeTable.within_inClass hreg.lt_count, fun _ h => (nomatch h)⟩
      have hspan := Spans.around_one hbody hp (.refl _) (.advance s₁)
      exact hspan.enclose hdecl.extension (.refl _) hspan.grows.coherent rfl
  | @methodDecl s s₁ id scopes types _ _ _ _ hadd =>
      have htokens : s.Beside s.advance.advance.advance.advance :=
        (((ParseState.Beside.advance s).trans (.advance _)).trans (.advance _)).trans (.advance _)
      have htypes := hs.part (ψ := .types types) htokens rfl
      have hgrow := hp _ List.mem_cons_self htypes
      have hs₁ := htypes.grows hgrow
      obtain ⟨-, rfl, hreg⟩ := ScopeTable.registers_declareMethod (hs₁.within.hasOwner .method) hadd
      have hdecl := hs₁.registers hreg hs₁.within
      have hlast := hdecl.trans (.of_beside hdecl.coherent (.pass _ .semicolon))
      have hfirst := (ParseState.Grows.of_beside hs.coherent htokens).trans hgrow
      exact .of_one (hfirst.trans hlast) htypes hlast.extension
  | @varDecl s id scopes _ _ _ hadd =>
      obtain ⟨-, rfl, hreg⟩ := ScopeTable.registers_declareVariable (hs.within.hasOwner .var) hadd
      have hdecl := hs.registers hreg hs.within
      have htokens : ParseState.Beside { s with scopes }
          { s.advance.advance.advance with scopes } := ⟨rfl, by simp⟩
      exact .of_none (hdecl.trans
        (.of_beside hdecl.coherent (htokens.trans (.pass _ .semicolon))))
  | assignItem _ ih => exact (ih (hs.part (.refl _) rfl) hp).trailing (.pass _ .semicolon)
  | callItem _ ih => exact (ih (hs.part (.refl _) rfl) hp).trailing (.pass _ .semicolon)
  | @exprItem s s₁ _ =>
      exact .around_one (hs.part (.refl s) rfl) hp (.refl s) (.pass s₁ .semicolon)
  | @ifThen s s₁ s₂ _ _ _ _ _ =>
      exact .around_two (hs.part (.advance s) rfl) hp (fun _ h => h) (.advance s) (.advance s₁)
        ((ParseState.Beside.advance s₂).trans (.pass _ .semicolon))
  | @whileLoop s s₁ s₂ _ _ _ _ _ =>
      exact .around_two (hs.part (.advance s) rfl) hp (fun _ h => h) (.advance s) (.advance s₁)
        ((ParseState.Beside.advance s₂).trans (.pass _ .semicolon))
  | @methodBody s s₁ s₂ m ps body _ hm _ _ _ _ =>
      have hlt := hs.coherent.resolveMethod_lt hm
      have htokens : ParseState.Beside { s with cursor := s.scopes.bodyCursor m }
          ({ s.advance with cursor := s.scopes.bodyCursor m } : ParseState).advance :=
        ⟨by simp, by simp⟩
      have hinside : ParseState.Ready { s with cursor := s.scopes.bodyCursor m } (.patterns m ps) :=
        ⟨hs.coherent, hs.coherent.within_bodyCursor hlt, fun _ h => h⟩
      have hmid : s₁.Beside s₁.advance.advance := (ParseState.Beside.advance s₁).trans (.advance _)
      -- Parameters and block are read inside the method; the number of the body comes last.
      have hspan : Spans { s with cursor := s.scopes.bodyCursor m } _ s₂ :=
        .around_two (hinside.beside htokens fun _ h => h) hp (fun _ h => (nomatch h)) htokens hmid
          (.refl s₂)
      have hlt₂ : m < s₂.scopes.methods.size :=
        hlt.trans_le (hspan.grows.extension.count_le .method)
      refine hspan.enclose (.refl _) ?_ ?_ ?_
      · rw [ParseState.pass_scopes]
        exact ScopeTable.extends_addImplementation hlt₂
      · rw [ParseState.pass_scopes]
        exact hspan.grows.coherent.addImplementation hlt₂
      · rw [ParseState.pass_cursor]
  | @noItems s => exact .of_none (.of_beside hs.coherent (.refl s))
  | @items s s₁ s₂ _ _ =>
      exact .around_two (hs.part (.refl s) rfl) hp (fun _ h => h) (.refl s) (.refl s₁) (.refl s₂)

/-- A production takes a phrase apart as the tree does. -/
theorem map_phrase (h : Production φ s parts s') : parts.map (·.phrase) = φ.parts := by
  induction h with
  | assignItem _ ih => exact ih
  | callItem _ ih => exact ih
  | _ => rfl

end Production

/-! ## Whole passages -/

/-- A passage that is read lets the table grow. -/
theorem Passage.Read.grows {ρ : Passage} (h : ρ.Read) (hρ : ρ.before.Ready ρ.phrase) :
    ρ.before.Grows ρ.after := by
  induction h with
  | intro hprod _ ih => exact (hprod.spans hρ ih).grows

/-- The parts of a passage that is read. -/
theorem Production.spans_of_read {φ : Phrase} {s s' : ParseState} {parts : List Passage}
    (h : Production φ s parts s') (hs : s.Ready φ) (hparts : ∀ σ ∈ parts, σ.Read) :
    Spans s parts s' :=
  h.spans hs fun σ hσ hready => (hparts σ hσ).grows hready

/-- The passage `τ` is where a path leads from the passage `ρ`. -/
inductive Passage.At : Passage → Path → Passage → Prop where
  | here (ρ : Passage) : At ρ [] ρ
  | part {ρ σ τ : Passage} {parts : List Passage} {k : Nat} {path : Path} :
      Production ρ.phrase ρ.before parts ρ.after → (∀ σ ∈ parts, σ.Read) →
      parts[k]? = some σ → At σ path τ → At ρ (k :: path) τ

namespace Passage

variable {ρ σ τ : Passage} {path : Path}

theorem Read.exists_at (h : ρ.Read) {φ : Phrase} (hφ : ρ.phrase.at? path = some φ) :
    ∃ τ, ρ.At path τ ∧ τ.phrase = φ := by
  -- Down the path, the parts of the passage follow the parts of the phrase.
  induction path generalizing ρ with
  | nil => exact ⟨ρ, .here ρ, Option.some.inj hφ⟩
  | cons k path ih =>
      cases h with
      | @intro phrase s s' parts hprod hparts =>
          rw [Phrase.at?, ← hprod.map_phrase, List.getElem?_map] at hφ
          cases hk : parts[k]? with
          | none => simp [hk] at hφ
          | some σ =>
              rw [hk] at hφ
              obtain ⟨τ, hτ, hphrase⟩ := ih (hparts σ (List.mem_of_getElem? hk)) hφ
              exact ⟨τ, .part hprod hparts hk hτ, hphrase⟩

namespace At

theorem phrase_at? (h : ρ.At path τ) : ρ.phrase.at? path = some τ.phrase := by
  induction h with
  | here ρ => rfl
  | part hprod _ hk _ ih =>
      rw [Phrase.at?, ← hprod.map_phrase, List.getElem?_map, hk]
      exact ih

theorem read (h : ρ.At path τ) (hρ : ρ.Read) : τ.Read := by
  induction h with
  | here ρ => exact hρ
  | part _ hparts hk _ ih => exact ih (hparts _ (List.mem_of_getElem? hk))

/-- Inside a passage, reading is ready for each phrase when its turn comes. -/
theorem ready (h : ρ.At path τ) (hρ : ρ.before.Ready ρ.phrase) :
    τ.before.Ready τ.phrase := by
  induction h with
  | here ρ => exact hρ
  | part hprod hparts hk _ ih =>
      exact ih ((hprod.spans_of_read hρ hparts).ready _ (List.mem_of_getElem? hk))

/-- The table behind a passage extends the tables behind all passages in it. -/
theorem inside (h : ρ.At path τ) (hρ : ρ.before.Ready ρ.phrase) :
    τ.after.scopes.Extends ρ.after.scopes := by
  induction h with
  | here ρ => exact .refl _
  | part hprod hparts hk _ ih =>
      have hspan := hprod.spans_of_read hρ hparts
      have hmem := List.mem_of_getElem? hk
      exact (ih (hspan.ready _ hmem)).trans (hspan.inside _ hmem)

/-- The last step of a path. -/
theorem last (path : Path) {k : Nat} (h : ρ.At (path ++ [k]) τ) :
    ∃ σ parts, ρ.At path σ ∧ Production σ.phrase σ.before parts σ.after ∧
      (∀ π ∈ parts, π.Read) ∧ parts[k]? = some τ := by
  induction path generalizing ρ with
  | nil =>
      cases h with
      | part hprod hparts hk hat =>
          cases hat
          exact ⟨ρ, _, .here ρ, hprod, hparts, hk⟩
  | cons j path ih =>
      cases h with
      | part hprod hparts hk hat =>
          obtain ⟨σ, parts', hσ, hrest⟩ := ih hat
          exact ⟨σ, parts', .part hprod hparts hk hσ, hrest⟩

end At

end Passage

end BlockLang
