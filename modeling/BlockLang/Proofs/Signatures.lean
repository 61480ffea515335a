/-
  BlockLang.Proofs.Signatures

  With which types bodies of methods are rendered.

  The parser binds a body to the method that its name stands for at its place.
  Rendering does not ask for that method: it takes the nearest declaration of the
  name among those in front of the body in the blocks around it.  The two can be
  different methods, since the parser looks into the innermost class only while
  rendering goes through all blocks.  Then the body has the types of the wrong one.
-/
import BlockLang.Proofs.Parser.Scoping
import BlockLang.Proofs.Rendering

namespace BlockLang

/-- The types of a method of the table in lower case. -/
def MethodEntry.written (m : MethodEntry) : WrittenTypes :=
  ⟨renderType m.returnType, m.parameterTypes.map renderType⟩

/-- Nearest declarations stand in the tree and have the name. -/
theorem nearestDeclaration?_eq_some {items : List Item} {path : Path} {name : String}
    {d : Declaration} (h : nearestDeclaration? items path name = some d) :
    (Phrase.items items).at? d.path = some (.item d.item) ∧ d.name.name = name := by
  obtain ⟨rest, hpath, hat⟩ := Phrase.at?_of_mem_visible (List.mem_of_find?_eq_some h)
  rw [List.nil_append] at hpath
  exact ⟨hpath ▸ hat, by simpa using List.find?_some h⟩

namespace Parsed.WellScoped

variable {p : Parsed} (hp : p.WellScoped)
include hp

/-- A declaration in the tree has made a method of the table with its types. -/
theorem method_of_declaration {d : Declaration}
    (h : (Phrase.items p.items).at? d.path = some (.item d.item)) :
    ∃ m entry, p.scopes.findDeclared .method d.name.name
        ((Phrase.items p.items).cursorAt p.scopes .global d.path) = some m ∧
      p.scopes.methods[m]? = some entry ∧ entry.name = d.name.name ∧
      entry.written = d.signature.written := by
  obtain ⟨m, hm, hheading⟩ := (hp.tree.at_path h).fits
  obtain ⟨entry, hentry, heq⟩ := Option.map_eq_some_iff.mp hheading
  obtain ⟨hname, hreturn, hparameters, -⟩ := Heading.method.inj heq
  refine ⟨m, entry, hm, hentry, hname, ?_⟩
  rw [MethodEntry.written, hreturn, hparameters]
  rfl

/-- A body in the tree belongs to a method of the table with its name. -/
theorem method_of_body {path : Path} {head : BodyHead} {block : List Item}
    (h : (Phrase.items p.items).at? path = some (.item (.methodBody head block))) :
    ∃ owner entry, p.scopes.find? owner .method head.name.name = some head.method ∧
      p.scopes.methods[head.method]? = some entry ∧ entry.name = head.name.name := by
  obtain ⟨owner, -, hfind⟩ := (hp.tree.at_path h).fits.1
  obtain ⟨entry, hentry, hname⟩ := Option.map_eq_some_iff.mp (ScopeTable.find?_eq_some hfind).2
  exact ⟨owner, entry, hfind, hentry, hname⟩

/-- Methods of one name are the same exactly when they have the same owner. -/
theorem eq_iff_ownerOf?_eq {owner owner' : Owner} {name : String} {m n : MethodId}
    (hm : p.scopes.find? owner .method name = some m)
    (hn : p.scopes.find? owner' .method name = some n) :
    m = n ↔ p.scopes.ownerOf? (.method m) = p.scopes.ownerOf? (.method n) := by
  have hom := (hp.coherent.owned owner .method m).mp (ScopeTable.find?_eq_some hm).1
  have hon := (hp.coherent.owned owner' .method n).mp (ScopeTable.find?_eq_some hn).1
  refine ⟨fun h => h ▸ rfl, fun h => ?_⟩
  obtain rfl : owner = owner' := Option.some.inj (hom.symm.trans (h.trans hon))
  exact Option.some.inj (hm.symm.trans hn)

end Parsed.WellScoped

/-! ## A class between a body and the declaration that it belongs to -/

/-- A body in an inner class of a class that declares the name of the body again. -/
def innerText : String :=
  "m :: Int <- Int\nclass A\n  m :: Float <- Float\n  class B\n    m(x) do\n    end\n  end\nend\n"

/-- The head of the body in `innerText`. -/
def innerHead : BodyHead := ⟨0, 0, ⟨"m", 5⟩, [.binding ⟨"x", 5⟩]⟩

/-- The tree of `innerText`. -/
def innerItems : List Item :=
  [ .methodDecl ⟨"m", 1⟩ "Int" ["Int"],
    .classDecl ⟨"A", 2⟩
      [ .methodDecl ⟨"m", 3⟩ "Float" ["Float"],
        .classDecl ⟨"B", 4⟩ [.methodBody innerHead []] ] ]

/-- The method to which the parser binds the body in `innerText`. -/
def innerMethod : MethodEntry := ⟨"m", "Int", ["Int"], none, none, { vars := [0] }, [0]⟩

/-- The table of `innerText`. -/
def innerTable : ScopeTable where
  classes := #[⟨"A", none, { classes := [1], methods := [1] }⟩, ⟨"B", some 0, {}⟩]
  methods := #[innerMethod, ⟨"m", "Float", ["Float"], some 0, none, {}, []⟩]
  vars := #[⟨"x", none, none, some 0⟩]
  global := { classes := [0], methods := [0] }
  bodyCount := 1

/-- What `innerText` is rendered as. -/
def innerOutput : String :=
  "int m(int);\nclass A " ++ openingBrace ++ "\n    float m(float);\n    class B " ++
    openingBrace ++ "\n        float m(float x) " ++ openingBrace ++ "\n        " ++
    closingBrace ++ "\n    " ++ closingBrace ++ "\n" ++ closingBrace ++ "\n"

theorem parse_innerText : parse innerText = .ok ⟨innerItems, innerTable⟩ := by cbv

theorem renderProgram_inner : renderProgram innerItems = .ok innerOutput := by cbv

theorem at?_inner : (Phrase.items innerItems).at? [1, 0, 0, 1, 0, 0, 0] =
    some (.item (.methodBody innerHead [])) := rfl

theorem nearestDeclaration?_inner : nearestDeclaration? innerItems [1, 0, 0, 1, 0, 0, 0] "m" =
    some ⟨[1, 0, 0, 0], ⟨"m", 3⟩, "Float", ["Float"]⟩ := by cbv

/-! ## The types of bodies -/

/-- In an accepted program that can be rendered, the name of every body has a nearest
    declaration in front of it, and the parser has made a method from that declaration.
    At its place the body is written with the types of that method and with no others, so
    with those of its own method exactly when the two have the same types.  They are the
    same method exactly when they have the same owner, and certainly when no other method
    has that name. -/
theorem body_written_with_nearest_declaration {text : String} {p : Parsed}
    (hp : parse text = .ok p) {output : String} (hout : renderProgram p.items = .ok output)
    {path : Path} {head : BodyHead} {block : List Item}
    (hbody : (Phrase.items p.items).at? path = some (.item (.methodBody head block))) :
    ∃ d c m nearest own, nearestDeclaration? p.items path head.name.name = some d ∧
      ReadAt text p d.path (.item d.item) c ∧
      p.scopes.findDeclared .method d.name.name c = some m ∧
      p.scopes.methods[m]? = some nearest ∧ nearest.name = head.name.name ∧
      p.scopes.methods[head.method]? = some own ∧ own.name = head.name.name ∧
      (∀ types, WrittenWith p.items path head block types ↔ types = nearest.written) ∧
      (m = head.method ↔
        p.scopes.ownerOf? (.method m) = p.scopes.ownerOf? (.method head.method)) ∧
      (m = head.method → WrittenWith p.items path head block own.written) ∧
      ((∀ n entry, p.scopes.methods[n]? = some entry → entry.name = head.name.name →
        n = head.method) → m = head.method) := by
  obtain ⟨root, hroot⟩ := exists_readsText hp
  obtain ⟨types, hwritten⟩ := exists_writtenWith hout hbody
  -- The declaration that rendering takes stands in the tree, so it has made a method.
  obtain ⟨d, hd, rfl⟩ := hwritten.nearest
  obtain ⟨hat, hname⟩ := nearestDeclaration?_eq_some hd
  obtain ⟨m, nearest, hm, hnearest, hnearestName, htypes⟩ :=
    hroot.wellScoped.method_of_declaration hat
  obtain ⟨owner, own, hfind, hown, hownName⟩ := hroot.wellScoped.method_of_body hbody
  rw [← htypes] at hwritten
  -- There is one nearest declaration, so there are no other types to write.
  have honly (types : WrittenTypes) :
      WrittenWith p.items path head block types ↔ types = nearest.written := by
    refine ⟨fun h => ?_, fun h => h ▸ hwritten⟩
    obtain ⟨d', hd', rfl⟩ := h.nearest
    rw [htypes, Option.some.inj (hd'.symm.trans hd)]
  refine ⟨d, _, m, nearest, own, hd, readAt_of_at? hp hat, hm, hnearest, hnearestName.trans hname,
    hown, hownName, honly, ?_, fun hsame => ?_, fun hunique => ?_⟩
  · exact hroot.wellScoped.eq_iff_ownerOf?_eq (hname ▸ hm) hfind
  · subst hsame
    exact Option.some.inj (hnearest.symm.trans hown) ▸ hwritten
  · exact hunique m nearest hnearest (hnearestName.trans hname)

theorem inner_body_written_with_outer_class_types :
    parse innerText = .ok ⟨innerItems, innerTable⟩ ∧ renderProgram innerItems = .ok innerOutput ∧
      (Phrase.items innerItems).lineAt [1, 0, 0, 1, 0, 0, 0] = 4 ∧
      WrittenWith innerItems [1, 0, 0, 1, 0, 0, 0] innerHead [] ⟨"float", ["float"]⟩ := by
  refine ⟨parse_innerText, renderProgram_inner, rfl, ?_⟩
  obtain ⟨d, c, m, nearest, own, hd, hread, hm, hnearest, -, -, -, hwritten, -⟩ :=
    body_written_with_nearest_declaration parse_innerText renderProgram_inner at?_inner
  obtain rfl := Option.some.inj (nearestDeclaration?_inner.symm.trans hd)
  obtain ⟨-, rfl⟩ := hread.at?
  obtain rfl : 1 = m := Option.some.inj hm
  obtain rfl := Option.some.inj hnearest
  exact (hwritten _).mpr (by decide)

/-- The parser binds the body to the method with integers, rendering writes it with the
    types of the one with floats. -/
theorem inner_body_not_written_with_own_types :
    ∃ p own, parse innerText = .ok p ∧ renderProgram p.items = .ok innerOutput ∧
      (Phrase.items p.items).at? [1, 0, 0, 1, 0, 0, 0] =
        some (.item (.methodBody innerHead [])) ∧
      p.scopes.methods[innerHead.method]? = some own ∧
      ¬WrittenWith p.items [1, 0, 0, 1, 0, 0, 0] innerHead [] own.written := by
  refine ⟨_, innerMethod, parse_innerText, renderProgram_inner, at?_inner, rfl, fun h => ?_⟩
  obtain ⟨d, hd, htypes⟩ := h.nearest
  obtain rfl := Option.some.inj (nearestDeclaration?_inner.symm.trans hd)
  exact absurd htypes (by decide)

end BlockLang
