/-
  BlockLang.Proofs.Rendering

  Which declarations rendering knows where, and what it writes there.

  Rendering keeps frames of signatures while it goes through a tree.  What it knows
  in front of a place can be said without frames: the declarations that stand in
  front of the place in the blocks around it, the nearest first.  Declarations under
  conditions and in loops belong to the block around them; those in classes and in
  bodies of methods are forgotten behind them.

  A path leads rendering to a place step by step, and the tree alone says how many
  lines are in front of it.  So what is written for a body of a method stands on a
  line of its own, and the types in it are those of the nearest declaration.
-/
import BlockLang.Rendering
import BlockLang.Proofs.Tree.Phrase
import Mathlib.Data.List.Infix

namespace BlockLang

/-! ## Declarations in front of a place -/

/-- A declaration of a method and where it stands. -/
structure Declaration where
  path : Path
  name : Ident
  returnType : String
  parameterTypes : List String
  deriving DecidableEq

namespace Declaration

/-- The item that makes a declaration. -/
def item (d : Declaration) : Item := .methodDecl d.name d.returnType d.parameterTypes

/-- A declaration as rendering sees it. -/
def signature (d : Declaration) : Signature := ⟨d.name.name, d.returnType, d.parameterTypes⟩

end Declaration

mutual

/-- The methods that an item at a path declares in the block around it, the latest
    first. -/
def Item.declarations (path : Path) : Item → List Declaration
  | .methodDecl name returnType parameterTypes => [⟨path, name, returnType, parameterTypes⟩]
  | .ifThen _ body _ => declarationsOf (path ++ [1]) body
  | .whileLoop _ body _ => declarationsOf (path ++ [1]) body
  | _ => []

/-- The methods that items at a path declare in the block around them, the latest
    first. -/
def declarationsOf (path : Path) : List Item → List Declaration
  | [] => []
  | item :: items => declarationsOf (path ++ [1]) items ++ item.declarations (path ++ [0])

end

namespace Phrase

/-- The methods that a phrase at a path declares in the block around it. -/
def declared (path : Path) : Phrase → List Declaration
  | item i => i.declarations path
  | items is => declarationsOf path is
  | _ => []

/-- What a phrase at a path declares in front of its part number `k`. -/
def declaredBefore (path : Path) (k : Nat) : Phrase → List Declaration
  | items (i :: _) => if k = 0 then [] else i.declarations (path ++ [0])
  | _ => []

/-- The declarations inside a phrase at a path that are in front of the end of a
    further path, in the blocks around that end, the nearest first. -/
def visible (φ : Phrase) (path : Path) : Path → List Declaration
  | [] => []
  | k :: rest =>
    match φ.parts[k]? with
    | some part => part.visible (path ++ [k]) rest ++ φ.declaredBefore path k
    | none => []

/-- What a phrase declares stands in it. -/
theorem at?_of_mem_declared {d : Declaration} {path : Path} {φ : Phrase}
    (h : d ∈ φ.declared path) :
    ∃ rest, d.path = path ++ rest ∧ φ.at? rest = some (.item d.item) := by
  induction φ using induction_on_parts generalizing path with
  | h φ ih =>
      -- One step down, to a part that makes the declaration.
      have hpart {k : Nat} {part : Phrase} (hk : φ.parts[k]? = some part)
          (hd : d ∈ part.declared (path ++ [k])) :
          ∃ rest, d.path = path ++ rest ∧ φ.at? rest = some (.item d.item) := by
        obtain ⟨rest, hpath, hat⟩ := ih part (List.mem_of_getElem? hk) hd
        refine ⟨k :: rest, by simpa using hpath, ?_⟩
        rw [at?, hk, Option.bind_some, hat]
      cases φ with
      | item i =>
          cases i with
          | methodDecl name returnType parameterTypes =>
              obtain rfl := List.mem_singleton.mp h
              exact ⟨[], (List.append_nil path).symm, rfl⟩
          | ifThen e body line | whileLoop e body line => exact hpart (k := 1) rfl h
          | _ => exact absurd h List.not_mem_nil
      | items is =>
          cases is with
          | nil => exact absurd h List.not_mem_nil
          | cons i is =>
              rcases List.mem_append.mp h with h | h
              · exact hpart (k := 1) rfl h
              · exact hpart (k := 0) rfl h
      | _ => exact absurd h List.not_mem_nil

theorem at?_of_mem_declaredBefore {d : Declaration} {path : Path} {k : Nat} {φ : Phrase}
    (h : d ∈ φ.declaredBefore path k) :
    ∃ rest, d.path = path ++ rest ∧ φ.at? rest = some (.item d.item) := by
  unfold declaredBefore at h
  split at h
  · next i is =>
      split at h
      · exact absurd h List.not_mem_nil
      · have hd : d ∈ (items (i :: is)).declared path := List.mem_append_right _ h
        exact at?_of_mem_declared hd
  · exact absurd h List.not_mem_nil

/-- Visible declarations stand in the phrase. -/
theorem at?_of_mem_visible {d : Declaration} {path further : Path} {φ : Phrase}
    (h : d ∈ φ.visible path further) :
    ∃ rest, d.path = path ++ rest ∧ φ.at? rest = some (.item d.item) := by
  induction further generalizing φ path with
  | nil => exact absurd h List.not_mem_nil
  | cons k further ih =>
      unfold visible at h
      split at h
      · next part hk =>
          rcases List.mem_append.mp h with h | h
          · obtain ⟨rest, hpath, hat⟩ := ih h
            refine ⟨k :: rest, by simpa using hpath, ?_⟩
            rw [at?, hk, Option.bind_some, hat]
          · exact at?_of_mem_declaredBefore h
      · exact absurd h List.not_mem_nil

end Phrase

/-! ## Rendering, block by block -/

theorem exists_of_bind_eq_ok {ε α β : Type} {x : Except ε α} {f : α → Except ε β} {b : β}
    (h : x >>= f = .ok b) : ∃ a, x = .ok a ∧ f a = .ok b := by
  cases x with
  | error e => exact absurd h nofun
  | ok a => exact ⟨a, rfl, h⟩

/-- The block of an item: which part of the item it is, whether it has a frame of its own
    for signatures, what is written in front of it, and what stands in it. -/
structure Block where
  part : Nat
  ownFrame : Bool
  heading : Frames → Except RenderError String
  content : List Item

/-- The block of an item, if it has one. -/
def Item.block? : Item → Option Block
  | .classDecl name body => some ⟨0, true, fun _ => .ok ("class " ++ name.name), body⟩
  | .ifThen e body _ => some ⟨1, false, fun _ => .ok ("if (" ++ e.render ++ ")"), body⟩
  | .whileLoop e body _ => some ⟨1, false, fun _ => .ok ("while (" ++ e.render ++ ")"), body⟩
  | .methodBody head body => some ⟨1, true, fun frames => renderHead frames head, body⟩
  | _ => none

namespace Block

/-- The frames inside a block. -/
def inside (b : Block) (frames : Frames) : Frames := if b.ownFrame then [] :: frames else frames

/-- The frames behind a block, from those in front of it and those at its end. -/
def behind (b : Block) (frames inner : Frames) : Frames := if b.ownFrame then frames else inner

/-- A frame of its own is empty at first. -/
theorem flatten_inside (b : Block) (frames : Frames) :
    (b.inside frames).flatten = frames.flatten := by
  unfold inside
  split
  · exact List.flatten_cons
  · rfl

theorem inside_ne_nil (b : Block) {frames : Frames} (h : frames ≠ []) : b.inside frames ≠ [] := by
  unfold inside
  split
  · exact List.cons_ne_nil _ _
  · exact h

/-- The lines of a block with its heading, and the signatures known behind it. -/
def render (b : Block) (indent : Nat) (frames : Frames) :
    Except RenderError (List Line × Frames) := do
  let heading ← b.heading frames
  let rendered ← renderItems (indent + 1) (b.inside frames) b.content
  return (bracedLines indent heading rendered.1, b.behind frames rendered.2)

end Block

section

variable {indent : Nat} {frames frames' : Frames} {lines : List Line} {i : Item} {b : Block}

theorem render_of_block (hb : i.block? = some b) :
    i.render indent frames = b.render indent frames := by
  cases i <;> cases hb <;> rfl

/-- What makes up a rendered item with a block. -/
theorem render_block (hb : i.block? = some b) (h : i.render indent frames = .ok (lines, frames')) :
    ∃ heading content inner, b.heading frames = .ok heading ∧
      renderItems (indent + 1) (b.inside frames) b.content = .ok (content, inner) ∧
      lines = bracedLines indent heading content ∧ frames' = b.behind frames inner := by
  rw [render_of_block hb] at h
  obtain ⟨heading, hheading, h⟩ := exists_of_bind_eq_ok h
  obtain ⟨⟨content, inner⟩, hbody, hrest⟩ := exists_of_bind_eq_ok h
  obtain ⟨rfl, rfl⟩ := Prod.mk.inj (Except.ok.inj hrest)
  exact ⟨heading, content, inner, hheading, hbody, rfl, rfl⟩

theorem renderItems_cons {body : List Item}
    (h : renderItems indent frames (i :: body) = .ok (lines, frames')) :
    ∃ first rest middle, i.render indent frames = .ok (first, middle) ∧
      renderItems indent middle body = .ok (rest, frames') ∧ lines = first ++ rest := by
  rw [renderItems] at h
  obtain ⟨⟨first, middle⟩, hfirst, h⟩ := exists_of_bind_eq_ok h
  obtain ⟨⟨rest, last⟩, hrest, h⟩ := exists_of_bind_eq_ok h
  obtain ⟨rfl, rfl⟩ := Prod.mk.inj (Except.ok.inj h)
  exact ⟨first, rest, middle, hfirst, hrest, rfl⟩

theorem declarations_of_block (hb : i.block? = some b) (path : Path) :
    i.declarations path =
      if b.ownFrame then [] else declarationsOf (path ++ [b.part]) b.content := by
  cases i <;> cases hb <;> rfl

end

/-! ## The number of lines -/

mutual

/-- The number of lines on which an item is written. -/
def Item.height : Item → Nat
  | .classDecl _ body => heightOf body + 2
  | .ifThen _ body _ => heightOf body + 2
  | .whileLoop _ body _ => heightOf body + 2
  | .methodBody _ body => heightOf body + 2
  | _ => 1

/-- The number of lines on which items are written. -/
def heightOf : List Item → Nat
  | [] => 0
  | item :: items => item.height + heightOf items

end

theorem height_of_block {i : Item} {b : Block} (hb : i.block? = some b) :
    i.height = heightOf b.content + 2 := by
  cases i <;> cases hb <;> rfl

namespace Phrase

/-- Whether a phrase is rendered on its own lines. -/
def isBlock : Phrase → Bool
  | item _ => true
  | items _ => true
  | _ => false

theorem isBlock_of_mem_parts {φ part : Phrase} (hpart : part ∈ φ.parts) (h : part.isBlock) :
    φ.isBlock := by
  unfold parts at hpart
  split at hpart <;> grind [isBlock]

/-- Only blocks have blocks inside. -/
theorem isBlock_of_at? {φ ψ : Phrase} {path : Path} (hψ : φ.at? path = some ψ)
    (h : ψ.isBlock) : φ.isBlock := by
  induction path generalizing φ with
  | nil => exact Option.some.inj hψ ▸ h
  | cons k path ih =>
      obtain ⟨part, hk, hpart⟩ := Option.bind_eq_some_iff.mp hψ
      exact isBlock_of_mem_parts (List.mem_of_getElem? hk) (ih hpart)

theorem mem_parts_of_block {i : Item} {b : Block} (hb : i.block? = some b) :
    items b.content ∈ (item i).parts := by
  cases i <;> cases hb <;> simp [parts]

/-- The block of an item is its only part that is rendered on its own lines. -/
theorem exists_block {i : Item} {k : Nat} {part : Phrase} (hk : (item i).parts[k]? = some part)
    (hpart : part.isBlock) :
    ∃ b, i.block? = some b ∧ b.part = k ∧ items b.content = part := by
  cases i with
  | classDecl name body =>
      obtain ⟨rfl, rfl⟩ : k = 0 ∧ part = .items body := by grind [parts]
      exact ⟨_, rfl, rfl, rfl⟩
  | ifThen _ body _ | whileLoop _ body _ | methodBody _ body =>
      -- What stands in front of the block is an expression or some patterns.
      obtain ⟨rfl, rfl⟩ : k = 1 ∧ part = .items body := by grind [parts, isBlock]
      exact ⟨_, rfl, rfl, rfl⟩
  | _ => grind [parts, isBlock]

/-- The number of lines on which a phrase is written. -/
def height : Phrase → Nat
  | item i => i.height
  | items is => heightOf is
  | _ => 0

/-- The number of lines of a phrase in front of its part number `k`. -/
def linesBefore (k : Nat) : Phrase → Nat
  | item _ => 1
  | items (i :: _) => if k = 0 then 0 else i.height
  | _ => 0

/-- The number of lines of a phrase in front of the end of a path. -/
def lineAt (φ : Phrase) : Path → Nat
  | [] => 0
  | k :: path =>
    match φ.parts[k]? with
    | some part => φ.linesBefore k + part.lineAt path
    | none => 0

/-- Rendering a phrase with these frames gives these lines, and frames behind it. -/
def Renders (indent : Nat) (frames : Frames) (lines : List Line) (frames' : Frames) :
    Phrase → Prop
  | item i => i.render indent frames = .ok (lines, frames')
  | items is => renderItems indent frames is = .ok (lines, frames')
  | _ => False

/-- The number of lines does not depend on what is known. -/
theorem Renders.length_eq {indent : Nat} {frames frames' : Frames} {lines : List Line} {φ : Phrase}
    (h : φ.Renders indent frames lines frames') : lines.length = φ.height := by
  induction φ using induction_on_parts generalizing indent frames lines frames' with
  | h φ ih =>
      cases φ with
      | item i =>
          cases hb : i.block? with
          | some b =>
              obtain ⟨heading, content, _, -, hbody, rfl, -⟩ := render_block hb h
              have hcontent : content.length = heightOf b.content :=
                ih (.items b.content) (mem_parts_of_block hb) hbody
              show (bracedLines indent heading content).length = i.height
              rw [height_of_block hb, ← hcontent]
              simp [bracedLines]
          | none =>
              cases i with
              | classDecl | ifThen | whileLoop | methodBody => exact absurd hb nofun
              | _ =>
                  obtain ⟨rfl, -⟩ := Prod.mk.inj (Except.ok.inj h)
                  rfl
      | items is =>
          cases is with
          | nil =>
              obtain ⟨rfl, -⟩ := Prod.mk.inj (Except.ok.inj h)
              rfl
          | cons i is =>
              obtain ⟨first, rest, middle, hfirst, hrest, rfl⟩ := renderItems_cons h
              rw [List.length_append, ih (.item i) (by simp [parts]) hfirst,
                ih (.items is) (by simp [parts]) hrest]
              rfl
      | _ => exact absurd h id

/-- Behind a phrase, what it declares is in front of the innermost frame. -/
theorem Renders.frames_eq {indent : Nat} {frame : List Signature} {frames frames' : Frames}
    {lines : List Line} {φ : Phrase} (h : φ.Renders indent (frame :: frames) lines frames')
    (path : Path) : frames' = ((φ.declared path).map (·.signature) ++ frame) :: frames := by
  induction φ using induction_on_parts generalizing indent frame lines frames' path with
  | h φ ih =>
      cases φ with
      | item i =>
          cases hb : i.block? with
          | some b =>
              obtain ⟨_, content, inner, -, hbody, -, rfl⟩ := render_block hb h
              rw [declared, declarations_of_block hb]
              -- A frame of the block's own is forgotten behind it.
              by_cases hown : b.ownFrame
              · simp [Block.behind, hown]
              · rw [Block.inside, if_neg hown] at hbody
                rw [Block.behind, if_neg hown, if_neg hown]
                exact ih (.items b.content) (mem_parts_of_block hb) hbody (path ++ [b.part])
          | none =>
              cases i with
              | classDecl | ifThen | whileLoop | methodBody => exact absurd hb nofun
              | _ => exact (Prod.mk.inj (Except.ok.inj h)).2.symm
      | items is =>
          cases is with
          | nil => exact (Prod.mk.inj (Except.ok.inj h)).2.symm
          | cons i is =>
              obtain ⟨_, _, middle, hfirst, hrest, _⟩ := renderItems_cons h
              -- The items behind the first one start with the frames that it leaves.
              have hmiddle := ih (.item i) (by simp [parts]) hfirst (path ++ [0])
              subst hmiddle
              rw [ih (.items is) (by simp [parts]) hrest (path ++ [1])]
              simp [declared, declarationsOf]
      | _ => exact absurd h id

end Phrase

/-! ## The way to a place -/

/-- Where rendering is: how far lines are indented there, and which signatures it knows. -/
structure Site where
  indent : Nat
  frames : Frames

/-- Where rendering starts. -/
def Site.start : Site := ⟨0, [[]]⟩

namespace Phrase

/-- Where rendering a phrase comes to its part number `k`: into the block of an item, to the
    first of some items at once, and to those behind it when the first one is rendered. -/
def enter? (s : Site) (k : Nat) : Phrase → Option Site
  | item i =>
    (i.block?.filter (·.part = k)).map fun b => ⟨s.indent + 1, b.inside s.frames⟩
  | items (i :: _) =>
    if k = 0 then some s
    else match i.render s.indent s.frames with
      | .ok rendered => some ⟨s.indent, rendered.2⟩
      | .error _ => none
  | _ => none

/-- Where rendering a phrase comes to the end of a path, step by step. -/
def siteAt? (φ : Phrase) (s : Site) : Path → Option Site
  | [] => some s
  | k :: path =>
    match φ.parts[k]?, φ.enter? s k with
    | some part, some inner => part.siteAt? inner path
    | _, _ => none

variable {φ ψ : Phrase} {s s' : Site} {k : Nat}

/-- One step adds to what is known what the phrase declares in front of the part. -/
theorem flatten_enter? (h : φ.enter? s k = some s') (hs : s.frames ≠ []) (path : Path) :
    s'.frames ≠ [] ∧
      s'.frames.flatten = (φ.declaredBefore path k).map (·.signature) ++ s.frames.flatten := by
  unfold enter? at h
  -- Only in front of the items behind the first one does a phrase declare anything.
  split at h
  · obtain ⟨b, -, rfl⟩ := Option.map_eq_some_iff.mp h
    exact ⟨b.inside_ne_nil hs, b.flatten_inside s.frames⟩
  · next i is =>
      by_cases hk : k = 0
      · rw [if_pos hk] at h
        obtain rfl := Option.some.inj h
        exact ⟨hs, by simp [declaredBefore, hk]⟩
      · rw [if_neg hk] at h
        split at h
        · next rendered hrender =>
            obtain rfl := Option.some.inj h
            obtain ⟨frame, frames, hframes⟩ := List.exists_cons_of_ne_nil hs
            rw [hframes] at hrender ⊢
            rw [Renders.frames_eq (φ := .item i) hrender (path ++ [0])]
            exact ⟨List.cons_ne_nil _ _, by simp [declaredBefore, declared, hk]⟩
        · exact absurd h nofun
  · exact absurd h nofun

/-- Rendering comes to a place with the declarations that are visible there, and with what
    it knew at first. -/
theorem flatten_siteAt? {further : Path} (h : φ.siteAt? s further = some s') (hs : s.frames ≠ [])
    (path : Path) :
    s'.frames.flatten = (φ.visible path further).map (·.signature) ++ s.frames.flatten := by
  induction further generalizing φ s path with
  | nil =>
      obtain rfl := Option.some.inj h
      rfl
  | cons k further ih =>
      unfold siteAt? at h
      split at h
      · next part inner hpart hinner =>
          obtain ⟨hframes, hflatten⟩ := flatten_enter? hinner hs path
          rw [ih h hframes (path ++ [k]), hflatten, visible, hpart, List.map_append,
            List.append_assoc]
      · exact absurd h nofun

namespace Renders

variable {lines : List Line} {frames' : Frames}

/-- Rendering comes to every part that is a block and writes it behind the lines of the
    phrase in front of it. -/
theorem part (h : φ.Renders s.indent s.frames lines frames') {part : Phrase}
    (hk : φ.parts[k]? = some part) (hpart : part.isBlock) :
    ∃ inner content behind, φ.enter? s k = some inner ∧
      part.Renders inner.indent inner.frames content behind ∧
      content <+: lines.drop (φ.linesBefore k) := by
  cases φ with
  | item i =>
      obtain ⟨b, hb, rfl, rfl⟩ := exists_block hk hpart
      obtain ⟨heading, content, inner, -, hbody, rfl, -⟩ := render_block hb h
      refine ⟨⟨s.indent + 1, b.inside s.frames⟩, content, inner, ?_, hbody, ?_⟩
      · rw [enter?, hb, Option.filter_some, if_pos (decide_eq_true rfl)]
        rfl
      · exact List.prefix_append content _
  | items is =>
      cases is with
      | nil => exact absurd hk nofun
      | cons i is =>
          obtain ⟨first, rest, middle, hfirst, hrest, rfl⟩ := renderItems_cons h
          match k, hk with
          | 0, hk =>
              obtain rfl := Option.some.inj hk
              exact ⟨s, first, middle, rfl, hfirst, List.prefix_append first rest⟩
          | 1, hk =>
              obtain rfl := Option.some.inj hk
              refine ⟨⟨s.indent, middle⟩, rest, frames', ?_, hrest, ?_⟩
              · simp [enter?, hfirst]
              · have hlength : first.length = i.height := length_eq (φ := .item i) hfirst
                rw [linesBefore, if_neg Nat.one_ne_zero, ← hlength, List.drop_left]
  | _ => exact absurd h id

/-- Rendering comes to every block inside a phrase along its path, and writes it behind as
    many lines as the tree has in front of it. -/
theorem at_path (h : φ.Renders s.indent s.frames lines frames') {path : Path}
    (hψ : φ.at? path = some ψ) (hblock : ψ.isBlock) :
    ∃ site content behind, φ.siteAt? s path = some site ∧
      ψ.Renders site.indent site.frames content behind ∧
      content <+: lines.drop (φ.lineAt path) := by
  induction path generalizing φ s lines frames' with
  | nil =>
      obtain rfl := Option.some.inj hψ
      exact ⟨s, lines, frames', rfl, h, List.prefix_rfl⟩
  | cons k path ih =>
      obtain ⟨part, hk, hpart⟩ := Option.bind_eq_some_iff.mp hψ
      obtain ⟨inner, content, _, henter, hrenders, hcontent⟩ :=
        h.part hk (isBlock_of_at? hpart hblock)
      obtain ⟨site, content', behind, hsite, hrenders', hcontent'⟩ := ih hrenders hpart
      refine ⟨site, content', behind, ?_, hrenders', ?_⟩
      · rw [siteAt?, hk, henter]
        exact hsite
      · -- Lines in front of the part, and then lines of the part in front of the place.
        rw [lineAt, hk, ← List.drop_drop]
        exact hcontent'.trans (List.IsPrefix.drop hcontent _)

end Renders

end Phrase

/-! ## What stands in front of a body -/

/-- The types that a method is written with. -/
structure WrittenTypes where
  returnType : String
  parameterTypes : List String
  deriving DecidableEq

/-- The types of a signature in lower case. -/
def Signature.written (s : Signature) : WrittenTypes :=
  ⟨renderType s.returnType, s.parameterTypes.map renderType⟩

/-- The name of a parameter that is bound. -/
def Pattern.name? : Pattern → Option String
  | binding name => some name.name
  | value _ => none

/-- A head with these types in front of its name and of the names of its parameters. -/
def BodyHead.text (head : BodyHead) (types : WrittenTypes) : String :=
  let parameters := List.zipWith (fun type name => type ++ " " ++ name) types.parameterTypes
    (head.patterns.filterMap Pattern.name?)
  types.returnType ++ " " ++ head.name.name ++ "(" ++ String.intercalate ", " parameters ++ ")"

theorem renderParameters_eq_some {patterns : List Pattern} {types parameters : List String}
    (h : renderParameters patterns types = some parameters)
    (hlength : types.length = patterns.length) :
    parameters = List.zipWith (fun type name => type ++ " " ++ name) (types.map renderType)
      (patterns.filterMap Pattern.name?) := by
  induction patterns generalizing types parameters with
  | nil =>
      obtain rfl := List.eq_nil_of_length_eq_zero hlength
      exact (Option.some.inj h).symm
  | cons p patterns ih =>
      obtain ⟨type, types, rfl⟩ := List.exists_cons_of_length_eq_add_one hlength
      cases p with
      | binding name =>
          obtain ⟨rest, hrest, rfl⟩ := Option.map_eq_some_iff.mp h
          rw [ih hrest (Nat.succ.inj hlength)]
          rfl
      | value e => exact absurd h nofun

/-- What makes up a rendered head. -/
theorem renderHead_inv {frames : Frames} {head : BodyHead} {heading : String}
    (h : renderHead frames head = .ok heading) :
    ∃ σ parameters, findSignature? frames head.name.name = some σ ∧
      σ.parameterTypes.length = head.patterns.length ∧
      renderParameters head.patterns σ.parameterTypes = some parameters ∧
      heading = renderType σ.returnType ++ " " ++ head.name.name ++
        "(" ++ String.intercalate ", " parameters ++ ")" := by
  unfold renderHead at h
  split at h
  · exact absurd h nofun
  · next σ hσ =>
      dsimp only at h
      split at h
      · exact absurd h nofun
      · next hlength =>
          split at h
          · exact absurd h nofun
          · next parameters hparameters =>
              exact ⟨σ, parameters, hσ, Decidable.not_not.mp hlength, hparameters,
                (Except.ok.inj h).symm⟩

/-- A rendered head has the types of the nearest signature of its name. -/
theorem renderHead_eq_ok {frames : Frames} {head : BodyHead} {heading : String}
    (h : renderHead frames head = .ok heading) :
    ∃ σ, findSignature? frames head.name.name = some σ ∧ heading = head.text σ.written := by
  obtain ⟨σ, parameters, hσ, hlength, hparameters, rfl⟩ := renderHead_inv h
  refine ⟨σ, hσ, ?_⟩
  rw [renderParameters_eq_some hparameters hlength]
  rfl

/-- The nearest declaration of a name in front of the end of a path in a tree. -/
def nearestDeclaration? (items : List Item) (path : Path) (name : String) : Option Declaration :=
  ((Phrase.items items).visible [] path).find? (·.name.name == name)

/-- The body of a method at a path is written with these types.  Where rendering comes to
    the body along the path, it finds a signature with these types, and on the line of the
    body it writes a head with these types, with the block of the body in braces behind
    it. -/
def WrittenWith (items : List Item) (path : Path) (head : BodyHead) (block : List Item)
    (types : WrittenTypes) : Prop :=
  ∃ site σ, (Phrase.items items).siteAt? .start path = some site ∧
    findSignature? site.frames head.name.name = some σ ∧ σ.written = types ∧
    ∃ lines behind content inner, renderItems 0 [[]] items = .ok (lines, behind) ∧
      renderProgram items = .ok (String.join (lines.map Line.render)) ∧
      renderItems (site.indent + 1) ([] :: site.frames) block = .ok (content, inner) ∧
      bracedLines site.indent (head.text types) content <+:
        lines.drop ((Phrase.items items).lineAt path)

/-- A body is written with the types of the nearest declaration of its name only. -/
theorem WrittenWith.nearest {items : List Item} {path : Path} {head : BodyHead}
    {block : List Item} {types : WrittenTypes} (h : WrittenWith items path head block types) :
    ∃ d, nearestDeclaration? items path head.name.name = some d ∧ d.signature.written = types := by
  obtain ⟨site, σ, hsite, hσ, rfl, -⟩ := h
  have hknown := Phrase.flatten_siteAt? hsite (List.cons_ne_nil _ _) []
  rw [Site.start, List.flatten_singleton, List.append_nil] at hknown
  rw [findSignature?, hknown, List.find?_map] at hσ
  obtain ⟨d, hd, rfl⟩ := Option.map_eq_some_iff.mp hσ
  exact ⟨d, hd, rfl⟩

/-- In a tree that can be rendered, every body is written with some types. -/
theorem exists_writtenWith {items : List Item} {output : String}
    (hout : renderProgram items = .ok output) {path : Path} {head : BodyHead} {block : List Item}
    (hbody : (Phrase.items items).at? path = some (.item (.methodBody head block))) :
    ∃ types, WrittenWith items path head block types := by
  obtain ⟨⟨lines, behind⟩, hitems, hrest⟩ := exists_of_bind_eq_ok hout
  obtain rfl := Except.ok.inj hrest
  obtain ⟨site, _, _, hsite, hrenders, hlines⟩ :=
    Phrase.Renders.at_path (φ := .items items) (s := .start) hitems hbody rfl
  obtain ⟨heading, content, inner, hheading, hcontent, rfl, -⟩ := render_block rfl hrenders
  obtain ⟨σ, hσ, rfl⟩ := renderHead_eq_ok hheading
  exact ⟨σ.written, site, σ, hsite, hσ, rfl, lines, behind, content, inner, hitems, hout, hcontent,
    hlines⟩

end BlockLang
