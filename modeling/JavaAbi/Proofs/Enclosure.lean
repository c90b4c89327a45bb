import JavaAbi.Proofs.Honesty
import JavaAbi.Proofs.RecordedFiles
import JavaAbi.Proofs.StubContents
import JavaAbi.Proofs.WellFormedTrees

namespace JavaAbi

/-!
# Members and what is around them

A type knows the keys of its members, and a package is searched for in the list of top-level types;
an element knows the number of the element around it, which was found from the parent that the index
records. The two ways meet: what an element encloses is all that it is around, but for bodies of
constants, which no list of members has.

* `Session.Belongs` — the declaration that an element of source code belongs to;
* `World.Distinct.memberOf_of_key`, `World.Distinct.key_of_memberOf` — members of declarations;
* `World.Distinct.memberOf_of_inPackage`, `World.Distinct.inPackage_of_memberOf` — types of packages;
* `Session.Belongs.reads_packageWithin` — the way outwards ends at the package of the file;
* `Client.enclosed_iff_enclosing` — both for every client of a batch without duplicates.

A batch with duplicates is left out for a reason: a second declaration of a name has no element of
its own, and what it declares is in the list of members of no element.
-/

open Course

/-! ### Places in a batch -/

/-- The places of what a member declares, but for types. -/
def Member.places : Member → List Span
  | .type _ => []
  | .field f => f.declarators.map Variable.span
  | .constant _ _ place => [place]

section Places

variable {T : SourceText} {units : List CompilationUnit} {unit : Nat} {path : List Nat}
  {d tree : TypeDecl} {m : Member}

theorem TypeDecl.Placed.member (h : d.Placed T) (hm : m ∈ d.members) : m.Placed T := by
  cases h with
  | mk header body => exact body m hm

theorem TypeDecl.Placed.nameSpan (h : d.Placed T) : T.Holds d.head.nameSpan := by
  cases h with
  | mk header body => exact header.namePlace

theorem Member.Placed.declares (h : m.Placed T) (hd : m.declares? = some d) : d.Placed T := by
  cases h with
  | type decl =>
    cases hd
    exact decl
  | field decl => cases hd
  | constant place decl => exact decl d hd

theorem Member.Placed.places (h : m.Placed T) : ∀ place ∈ m.places, T.Holds place := by
  cases h with
  | type decl => exact List.forall_mem_nil _
  | field decl =>
    intro place hplace
    obtain ⟨v, hv, rfl⟩ := List.mem_map.1 hplace
    exact decl.declarators v hv
  | constant place decl => exact List.forall_mem_singleton.2 place

theorem TypeDecl.Placed.follow? (h : d.Placed T) (hd : d.follow? path = some tree) :
    tree.Placed T := by
  induction path generalizing d with
  | nil =>
    cases hd
    exact h
  | cons k rest ih =>
    rw [TypeDecl.follow?_cons, followFrom] at hd
    obtain ⟨m, hm, hd⟩ := Option.bind_eq_some_iff.1 hd
    obtain ⟨child, hchild, hd⟩ := Option.bind_eq_some_iff.1 hd
    exact ih ((h.member (List.mem_of_getElem? hm)).declares hchild) hd

/-- The places in a file are its own, and the path of its package is not empty. -/
theorem parse_unit (file : Nat) (source : String) (names : NameTable) :
    (parse file source names).1.Placed ⟨file, source⟩ ∧
      ∀ p ∈ (parse file source names).1.package, p.path.segments ≠ [] := by
  have hruns := Parser.unit_runs (ParserState.sane_start file source names)
  have hforms := Parser.unit_forms _ hruns.1.whole (.refl _)
  rw [parse_eq]
  exact ⟨hruns.2.2, fun p hp => (hforms.package p hp).filled⟩

/-- The places in the files of a batch, each file with its number. -/
theorem parseBatch_unit {files : Batch} {k : Nat} {u : CompilationUnit}
    (h : (parseBatch files).1[k]? = some u) :
    (∃ T : SourceText, T.file = k ∧ u.Placed T) ∧ ∀ p ∈ u.package, p.path.segments ≠ [] := by
  obtain ⟨source, names, rfl⟩ := parseFrom_units h
  rw [Nat.zero_add]
  obtain ⟨hplaced, hpackage⟩ := parse_unit k source names
  exact ⟨⟨⟨k, source⟩, rfl, hplaced⟩, hpackage⟩

end Places

/-- Whether an element is the body of an enum constant. -/
def Element.isBody (e : Element) : Bool :=
  match e.source with
  | .tree shape => shape.isConstantBody
  | _ => false

theorem ElementKind.ofDecl_ne_package (k : DeclKind) : ofDecl k ≠ .package := by
  cases k <;> decide

/-- An element counts among what the element `e` encloses: it comes from source code, is not the body
    of a constant, and stands in `e`. -/
structure Element.MemberOf (x : Element) (e : ElementId) : Prop where
  origin : x.origin = .tree
  plain : x.isBody = false
  enclosing : x.enclosing = some e

theorem Element.memberOf_bare {x : Element} {e : ElementId} : x.bare.MemberOf e ↔ x.MemberOf e :=
  ⟨fun h => ⟨h.origin, h.plain, h.enclosing⟩, fun h => ⟨h.origin, h.plain, h.enclosing⟩⟩

namespace Session

variable {w : World} {s : Session} {base : NameTable} {id owner : ElementId} {e : Element}
  {d : DeclId} {i : DeclInfo} {key : ElementKey}

/-- An element is the one of a variable or constant that member `k` of a declaration declares. -/
structure IsPart (s : Session) (id : ElementId) (e : Element) (d : DeclId) (owner : ElementId) :
    Prop where
  get : s.elements.get? id = some e
  older : owner < id
  owned : s.Denotes (s.index.keyOf d) owner
  enclosing : e.enclosing = some owner
  origin : e.origin = .tree
  plain : e.isBody = false
  kind : e.kind = .field ∨ e.kind = .enumConstant
  member : ∃ tree k m key, s.index.tree? s.units d = some tree ∧ tree.members[k]? = some m ∧
    key ∈ s.index.memberKeys d k m ∧ s.Denotes key id ∧ ∃ place ∈ m.places, e.span = some place

/-- The element of a variable. -/
theorem Sound.isPart_field {m number : Nat} (hs : s.Sound)
    (hd : s.Denotes (.field d m number) id) : ∃ e owner, s.IsPart id e d owner := by
  obtain ⟨e, he, hdesc, hold⟩ := hs.element _ id hd
  obtain ⟨f, v, owner, hm, hv, howned, hbare⟩ := hdesc.field_inv
  obtain ⟨tree, htree, hmember⟩ := member?_eq_some.1 hm
  have henc : e.enclosing = some owner := congrArg Element.enclosing hbare
  have hsource : e.source = .field (Element.withDimensions v.span v.dims f.type) :=
    congrArg Element.source hbare
  refine ⟨e, owner, he, hold owner henc, howned, henc, ?_, ?_, ?_, tree, m, _, _, htree, hmember,
    ?_, hd, v.span, List.mem_map_of_mem (List.mem_of_getElem? hv), congrArg Element.span hbare⟩
  · rw [Element.origin, hsource]
  · rw [Element.isBody, hsource]
  · exact .inl (congrArg Element.kind hbare)
  · exact List.mem_map_of_mem (List.mem_range.2 (List.getElem?_eq_some_iff.1 hv).1)

/-- The element of a constant. -/
theorem Sound.isPart_constant {m : Nat} (hs : s.Sound) (hd : s.Denotes (.constant d m) id) :
    ∃ e owner, s.IsPart id e d owner := by
  obtain ⟨e, he, hdesc, hold⟩ := hs.element _ id hd
  obtain ⟨n, body, sp, owner, hm, howned, hbare⟩ := hdesc.constant_inv
  obtain ⟨tree, htree, hmember⟩ := member?_eq_some.1 hm
  have henc : e.enclosing = some owner := congrArg Element.enclosing hbare
  have hsource : e.source = .constant (s.index.child? d m) := congrArg Element.source hbare
  refine ⟨e, owner, he, hold owner henc, howned, henc, ?_, ?_, ?_, tree, m, _, _, htree, hmember,
    List.mem_singleton_self _, hd, sp, List.mem_singleton_self _, congrArg Element.span hbare⟩
  · rw [Element.origin, hsource]
  · rw [Element.isBody, hsource]
  · exact .inr (congrArg Element.kind hbare)

/-- The declaration that an element of source code belongs to: the element is made from it, or from a
    variable or constant of it. -/
inductive Belongs (s : Session) (id : ElementId) (e : Element) (d : DeclId) : Prop
  | decl {i : DeclInfo} {tree : TypeDecl} (denotes : s.Denotes (s.index.keyOf d) id)
      (made : s.IsTree id d i tree e)
  | part {owner : ElementId} (made : s.IsPart id e d owner) (primary : s.index.Primary d)

/-- **Every element of source code belongs to a declaration.** -/
theorem Sound.belongs (hs : s.Sound) (he : s.elements.get? id = some e) (ho : e.origin = .tree) :
    ∃ d, s.Belongs id e d := by
  obtain ⟨key, hd⟩ := hs.covered id (Array.getElem?_eq_some_iff.1 he).1
  obtain ⟨e', he', hdesc, -⟩ := hs.element key id hd
  cases he.symm.trans he'
  have hask := hs.askable key _ hd
  have hbare : e.bare.origin = .tree := ho
  -- Packages and types of symbol files have another origin; the three kinds of keys that are
  -- left name the declaration.
  generalize e.bare = b at hdesc hbare
  cases hdesc with
  | package => cases hbare
  | described => cases hbare
  | @tree d i tree enc hp hi =>
    rw [← DeclIndex.keyOf_eq hi] at hd
    obtain ⟨j, tree', e', hmade⟩ := hs.isTree hp hd
    cases he.symm.trans hmade.get
    exact ⟨d, .decl hd hmade⟩
  | field =>
    obtain ⟨e', owner, hmade⟩ := hs.isPart_field hd
    cases he.symm.trans hmade.get
    exact ⟨_, .part hmade hask.1⟩
  | constant =>
    obtain ⟨e', owner, hmade⟩ := hs.isPart_constant hd
    cases he.symm.trans hmade.get
    exact ⟨_, .part hmade hask.1⟩

theorem IsTree.origin {tree : TypeDecl} (h : s.IsTree id d i tree e) : e.origin = .tree := by
  rw [Element.origin, h.source]

theorem IsTree.isBody {tree : TypeDecl} (h : s.IsTree id d i tree e) :
    e.isBody = i.constant.isSome := by
  rw [Element.isBody, h.source]
  rfl

theorem IsTree.constant_eq_none {tree : TypeDecl} (h : s.IsTree id d i tree e)
    (hplain : e.isBody = false) : i.constant = none := by
  rw [← Option.not_isSome_iff_eq_none, ← h.isBody, hplain]
  exact Bool.false_ne_true

theorem IsTree.kind_ne {tree : TypeDecl} (h : s.IsTree id d i tree e) : e.kind ≠ .package := by
  rw [h.kind]
  exact ElementKind.ofDecl_ne_package tree.head.kind

theorem IsPart.kind_ne (h : s.IsPart id e d owner) : e.kind ≠ .package := by
  rcases h.kind with hk | hk <;> rw [hk] <;> decide

/-- What stands in an element has a key of that element for what is around it. -/
theorem Encloses.exists_key {outer : Option ElementKey} (h : s.Encloses outer (some owner)) :
    ∃ key, outer = some key ∧ s.Denotes key owner := by
  cases outer with
  | none => cases h
  | some key =>
    obtain ⟨_, ⟨⟩, hd⟩ := h
    exact ⟨key, rfl, hd⟩

/-- Elements of variables and constants are members of their type. -/
theorem IsPart.memberOf {outer : ElementId} (h : s.IsPart id e d owner)
    (hd : s.Denotes (s.index.keyOf d) outer) : e.MemberOf outer :=
  ⟨h.origin, h.plain, by rw [h.enclosing, h.owned.functional hd]⟩

/-- Elements of declarations that are no bodies are members of what is around them. -/
theorem IsTree.memberOf {tree : TypeDecl} (h : s.IsTree id d i tree e)
    (hconstant : i.constant = none) (hkey : s.index.outerKey? i = some key)
    (hd : s.Denotes key owner) : e.MemberOf owner := by
  have henc := h.encloses
  rw [hkey] at henc
  obtain ⟨outer, houter, hden⟩ := henc
  refine ⟨h.origin, ?_, by rw [houter, hden.functional hd]⟩
  rw [h.isBody, hconstant]
  rfl

/-- The element of a package knows the name of the package. -/
theorem Sound.package_of_kind (hs : s.Sound) (he : s.elements.get? id = some e)
    (hkind : e.kind = .package) : ∃ n, s.Denotes (.package n) id ∧ e.source = .package ∧
      e.qualifiedName.name? = some n := by
  obtain ⟨key, hd⟩ := hs.covered id (Array.getElem?_eq_some_iff.1 he).1
  obtain ⟨e', he', hdesc, -⟩ := hs.element key id hd
  cases he.symm.trans he'
  have hbare : e.bare.kind = .package := hkind
  have hsource : e.bare.source = e.source := rfl
  have hname : e.bare.qualifiedName = e.qualifiedName := rfl
  rw [← hsource, ← hname]
  generalize e.bare = b at hdesc hbare
  cases hdesc with
  | package => exact ⟨_, hd, rfl, rfl⟩
  | tree => exact absurd hbare (ElementKind.ofDecl_ne_package _)
  | described => exact absurd hbare (ElementKind.ofDecl_ne_package _)
  | field => cases hbare
  | constant => cases hbare

theorem Belongs.primary (h : s.Belongs id e d) : s.index.Primary d := by
  cases h with
  | decl _ made => exact made.primary
  | part _ primary => exact primary

end Session

namespace World

variable {w : World} {s : Session} {base : NameTable} {id e x : ElementId} {d : DeclId}

/-! ### Declarations and their members -/

section Index

variable {i : DeclInfo} {k : Nat} {m : Member} {tree : TypeDecl} {c : DeclId}

/-- A member type of a declaration is recorded inside of it, and not as the body of a constant. -/
theorem Distinct.child_of_type (hu : w.Distinct base) (hm : w.index.Marked w.units)
    (hi : w.index.get? d = some i) (htree : w.index.tree? w.units d = some tree) {t : TypeDecl}
    (hk : tree.members[k]? = some (.type t)) (hc : w.index.child? d k = some c) :
    ∃ j, w.index.get? c = some j ∧ j.parent = some d ∧ j.constant = none := by
  have hknown := DeclIndex.known?_of_get? hi
  obtain ⟨j', hj', hpos⟩ := (hu.settled.child?_eq_some hknown).1 hc
  obtain ⟨j, hj, rfl⟩ := DeclIndex.exists_get? hj'
  obtain ⟨hunit, hpath⟩ : j.unit = i.unit ∧ j.path = i.path ++ [k] := List.cons.inj hpos
  obtain ⟨j'', hj'', hparent, -⟩ := hu.settled.sound.children d k c hc
  cases hj'.symm.trans hj''
  refine ⟨j, hj, hparent, Option.not_isSome_iff_eq_none.1 fun hconstant => ?_⟩
  have hplace : treeAt w.units i.unit i.path = some tree :=
    (DeclIndex.tree?_of_known? hknown).symm.trans htree
  have hbody := (hm c j hj).1 hconstant
  rw [hunit, hpath, bodyAt_below hplace hk] at hbody
  obtain ⟨n, body, sp, heq⟩ := hbody
  cases heq

/-- A declaration inside of another that is not the body of a constant is a member type of it. -/
theorem Distinct.type_of_parent (hu : w.Distinct base) (hm : w.index.Marked w.units)
    (hi : w.index.get? c = some i) (hparent : i.parent = some d) (hconstant : i.constant = none) :
    ∃ j tree k t, w.index.get? d = some j ∧ j.unit = i.unit ∧
      w.index.tree? w.units d = some tree ∧ tree.members[k]? = some (.type t) ∧
      w.index.child? d k = some c := by
  have hknown := DeclIndex.known?_of_get? hi
  have hhangs := hu.settled.orderly.hangs c i.fixed hknown
  rw [DeclInfo.Hangs, show i.fixed.parent = some d from hparent] at hhangs
  obtain ⟨j', k, hj', hpos⟩ := hhangs
  have hchild := (hu.settled.child?_eq_some hj').2 ⟨i.fixed, hknown, hpos⟩
  obtain ⟨j, hj, rfl⟩ := DeclIndex.exists_get? hj'
  obtain ⟨hunit, hpath⟩ : i.unit = j.unit ∧ i.path = j.path ++ [k] := List.cons.inj hpos
  -- Its path has one step more than that of the parent, so the parent has a member there.
  obtain ⟨t, ht⟩ := hu.settled.exists_tree hknown
  rw [show i.fixed.unit = j.unit from hunit, show i.fixed.path = j.path ++ [k] from hpath] at ht
  have hpath_ne : j.path ≠ [] := hu.settled.path_ne_nil (i := j.fixed) hj'
  obtain ⟨tree, m, htree, hmember, hdecl⟩ := exists_around ht hpath_ne
  have hbody : ¬BodyAt w.units j.unit (j.path ++ [k]) := by
    rw [← hunit, ← hpath]
    exact fun h => Option.not_isSome_iff_eq_none.2 hconstant ((hm c i hi).2 h)
  refine ⟨j, tree, k, t, hj, hunit.symm, ?_, ?_, hchild⟩
  · rw [DeclIndex.tree?_of_known? hj']
    exact htree
  · -- A member that is a declaration is a member type or a constant with a body, which is excluded.
    cases m with
    | type t' =>
      cases hdecl
      exact hmember
    | field f => cases hdecl
    | constant n body sp =>
      exact absurd ((bodyAt_below htree hmember).2 ⟨n, body, sp, rfl⟩) hbody

/-- The parent of a declaration is in the same file. -/
theorem Distinct.unit_of_parent (hu : w.Distinct base) (hi : w.index.get? c = some i)
    (hparent : i.parent = some d) : ∃ j, w.index.get? d = some j ∧ j.unit = i.unit := by
  have hhangs := hu.settled.orderly.hangs c i.fixed (DeclIndex.known?_of_get? hi)
  rw [DeclInfo.Hangs, show i.fixed.parent = some d from hparent] at hhangs
  obtain ⟨j', k, hj', hpos⟩ := hhangs
  obtain ⟨j, hj, rfl⟩ := DeclIndex.exists_get? hj'
  exact ⟨j, hj, ((List.cons.inj hpos).1 : i.unit = j.unit).symm⟩

/-- The top-level declarations are those without a parent. -/
theorem Distinct.mem_topLevel (hu : w.Distinct base) (hi : w.index.get? d = some i) :
    d ∈ w.index.topLevel ↔ i.parent = none := by
  have hknown := DeclIndex.known?_of_get? hi
  constructor
  · intro hd
    obtain ⟨j, hj, hparent, -⟩ := hu.settled.sound.topLevel d hd
    cases hknown.symm.trans hj
    exact hparent
  · intro hparent
    have hhangs := hu.settled.orderly.hangs d i.fixed hknown
    rw [DeclInfo.Hangs, show i.fixed.parent = none from hparent] at hhangs
    obtain ⟨k, hpath⟩ := hhangs
    obtain ⟨tree, htree⟩ := hu.settled.exists_tree hknown
    obtain ⟨k', rest, u, top, hpath', hunit, htop, -⟩ := treeAt_eq_some.1 htree
    cases hpath.symm.trans hpath'
    have hmem : (i.position, top) ∈ topDecls w.units :=
      mem_topDecls.2 ⟨i.unit, u, k, hunit, htop, congrArg (i.unit :: ·) hpath⟩
    obtain ⟨c, hc, hstands⟩ := forall₂_mem_left hu.settled.top.flip _ hmem
    obtain ⟨j, hj, hpos⟩ := hstands
    rwa [hu.settled.orderly.eq_of_position hj hknown hpos] at hc

end Index

/-! ### Members and what is around them -/

section Members

variable {inner : Element} {k : Nat} {m : Member} {tree : TypeDecl} {n : Name} {key : ElementKey}

/-- **The element of a key of a member** stands in the one of the declaration. -/
theorem Distinct.memberOf_of_key (hu : w.Distinct base) (hm : w.index.Marked w.units)
    (hs : s.Sound) (ho : s.Of w) (htree : s.index.tree? s.units d = some tree)
    (hd : s.Denotes (s.index.keyOf d) e) (hk : tree.members[k]? = some m)
    (hkey : key ∈ s.index.memberKeys d k m) (hx : s.Denotes key x) :
    ∃ inner, s.elements.get? x = some inner ∧ inner.MemberOf e := by
  cases m with
  | field f =>
    obtain ⟨v, -, rfl⟩ := List.mem_map.1 hkey
    obtain ⟨inner, owner, hpart⟩ := hs.isPart_field hx
    exact ⟨inner, hpart.get, hpart.memberOf hd⟩
  | constant n body place =>
    obtain rfl := List.mem_singleton.1 hkey
    obtain ⟨inner, owner, hpart⟩ := hs.isPart_constant hx
    exact ⟨inner, hpart.get, hpart.memberOf hd⟩
  | type t =>
    obtain ⟨c, hc, rfl⟩ := Option.map_eq_some_iff.1 (Option.mem_toList.1 hkey)
    rw [ho.index] at hc htree
    rw [ho.units] at htree
    -- Without duplicates the member type has an element of its own, made from its declaration.
    obtain ⟨i, hi, -⟩ := Option.bind_eq_some_iff.1 htree
    obtain ⟨j, hj, hparent, hconstant⟩ := hu.child_of_type hm hi htree hk hc
    have hprimary := hu.primary hj
    rw [← ho.index] at hprimary hj
    obtain ⟨j', tree', inner, hmade⟩ := hs.isTree hprimary hx
    cases hj.symm.trans hmade.info
    refine ⟨inner, hmade.get, hmade.memberOf hconstant ?_ hd⟩
    rw [DeclIndex.outerKey?, hparent, hconstant]

/-- **What stands in the element of a declaration** is the element of a key of a member. -/
theorem Distinct.key_of_memberOf (hu : w.Distinct base) (hm : w.index.Marked w.units)
    (hs : s.Sound) (ho : s.Of w) (hprimary : s.index.Primary d)
    (hd : s.Denotes (s.index.keyOf d) e) (hx : s.elements.get? x = some inner)
    (h : inner.MemberOf e) :
    ∃ tree k m key, s.index.tree? s.units d = some tree ∧ tree.members[k]? = some m ∧
      key ∈ s.index.memberKeys d k m ∧ s.Denotes key x := by
  obtain ⟨c, hbelongs⟩ := hs.belongs hx h.origin
  cases hbelongs with
  | @part owner made primary =>
    -- The element has one owner, and the key of an element says whose declaration it is.
    obtain rfl : owner = e := Option.some.inj (made.enclosing.symm.trans h.enclosing)
    obtain rfl := primary.keyOf_inj hprimary (hs.unique _ _ _ made.owned hd)
    obtain ⟨tree, k, m, key, htree, hk, hkey, hden, -⟩ := made.member
    exact ⟨tree, k, m, key, htree, hk, hkey, hden⟩
  | @decl i tree denotes made =>
    have hconstant := made.constant_eq_none h.plain
    obtain ⟨key, hkey, hden⟩ := Session.Encloses.exists_key (h.enclosing ▸ made.encloses)
    obtain rfl := hs.unique _ _ _ hden hd
    cases hparent : i.parent with
    | none =>
      rw [DeclIndex.outerKey?, hparent] at hkey
      -- A top-level type stands in a package, and `e` is none.
      obtain ⟨n, -, -, hpackage⟩ := DeclIndex.packageKey?_eq_some.1 hkey
      exact absurd hpackage (s.index.keyOf_ne_package d)
    | some p =>
      rw [DeclIndex.outerKey?, hparent, hconstant] at hkey
      -- The parent has an element of its own, so it is `d`; what is inside of `d` is a member of it.
      have hp := made.primary.parent hs.index made.info hparent
      obtain rfl := hp.keyOf_inj hprimary (Option.some.inj hkey)
      obtain ⟨j, tree', k, t, -, -, htree', hk, hc⟩ :=
        hu.type_of_parent hm (made.info_world ho) hparent hconstant
      rw [← ho.index] at htree' hc
      rw [← ho.units] at htree'
      refine ⟨tree', k, _, s.index.keyOf c, htree', hk, ?_, denotes⟩
      rw [DeclIndex.memberKeys, hc]
      exact List.mem_singleton_self _

/-- **The element of a type in a package** stands in that of the package. -/
theorem Distinct.memberOf_of_inPackage (hu : w.Distinct base) (hs : s.Sound) (ho : s.Of w)
    (he : s.Denotes (.package n) e) (hd : d ∈ s.index.inPackage (some n))
    (hx : s.Denotes (s.index.keyOf d) x) :
    ∃ inner, s.elements.get? x = some inner ∧ inner.MemberOf e := by
  obtain ⟨htop, i, hi, hpackage⟩ := DeclIndex.mem_inPackage.1 hd
  rw [ho.index] at htop hi
  have hparent := (hu.mem_topLevel hi).1 htop
  have hprimary := hu.primary hi
  rw [← ho.index] at hprimary hi
  obtain ⟨j, tree, inner, hmade⟩ := hs.isTree hprimary hx
  cases hi.symm.trans hmade.info
  -- A body has the declaration of its constant around it, and this one is at the top.
  have hconstant : i.constant = none := by
    cases hc : i.constant with
    | none => rfl
    | some m =>
      obtain ⟨p, -, -, -, -, -, hp, -⟩ := (hs.index.infos d i hi).constant m hc
      rw [hparent] at hp
      cases hp
  refine ⟨inner, hmade.get, hmade.memberOf hconstant ?_ he⟩
  rw [DeclIndex.outerKey?, hparent, hpackage]
  exact DeclIndex.packageKey?_eq_some.2 ⟨n, rfl, (hs.askable _ _ he).2, rfl⟩

/-- **What stands in the element of a package** is the element of a type in it. -/
theorem Distinct.inPackage_of_memberOf (hu : w.Distinct base) (hs : s.Sound) (ho : s.Of w)
    (he : s.Denotes (.package n) e) (hx : s.elements.get? x = some inner) (h : inner.MemberOf e) :
    ∃ d ∈ s.index.inPackage (some n), s.Denotes (s.index.keyOf d) x := by
  obtain ⟨c, hbelongs⟩ := hs.belongs hx h.origin
  cases hbelongs with
  | @part owner made primary =>
    obtain rfl : owner = e := Option.some.inj (made.enclosing.symm.trans h.enclosing)
    exact absurd (hs.unique _ _ _ made.owned he) (s.index.keyOf_ne_package c)
  | @decl i tree denotes made =>
    have hconstant := made.constant_eq_none h.plain
    obtain ⟨key, hkey, hden⟩ := Session.Encloses.exists_key (h.enclosing ▸ made.encloses)
    obtain rfl := hs.unique _ _ _ hden he
    cases hparent : i.parent with
    | some p =>
      rw [DeclIndex.outerKey?, hparent, hconstant] at hkey
      exact absurd (Option.some.inj hkey) (s.index.keyOf_ne_package p)
    | none =>
      rw [DeclIndex.outerKey?, hparent] at hkey
      obtain ⟨m, hpackage, -, hm⟩ := DeclIndex.packageKey?_eq_some.1 hkey
      cases hm
      have htop := (hu.mem_topLevel (made.info_world ho)).2 hparent
      rw [← ho.index] at htop
      exact ⟨c, DeclIndex.mem_inPackage.2 ⟨htop, i, made.info, hpackage⟩, denotes⟩

/-- **What an element encloses is all that stands in it**, for packages and for types of source
    code. -/
theorem Distinct.mem_enclosed_iff (hu : w.Distinct base) (hm : w.index.Marked w.units)
    (hs : s.Sound) (ho : s.Of w) {outer : Element} {ids : List ElementId}
    (he : s.elements.get? e = some outer)
    (hkind : outer.kind = .package ∨ (outer.kind.isType ∧ outer.origin = .tree))
    (hr : s.EnclosedAs outer (.ok ids)) (hx : s.elements.get? x = some inner) :
    x ∈ ids ↔ inner.MemberOf e := by
  obtain ⟨_, ⟨⟩, -, hmembers, hpackage⟩ := hr
  rcases hkind with hkind | ⟨hkind, horigin⟩
  · obtain ⟨n, hn, hsource, hname⟩ := hs.package_of_kind he hkind
    have hids := hpackage hsource
    rw [hname] at hids
    constructor
    · intro hmem
      -- Outwards: the type stands in the package, since it is in the list and has no parent.
      obtain ⟨d, hd, hden⟩ := hids.of x hmem
      obtain ⟨_, hget, hmember⟩ := hu.memberOf_of_inPackage hs ho hn hd hden
      cases hx.symm.trans hget
      exact hmember
    · intro hmember
      -- Inwards: what stands in the package is in the list, and the list has its only element.
      obtain ⟨d, hd, hden⟩ := hu.inPackage_of_memberOf hs ho hn hx hmember
      obtain ⟨y, hy, hden'⟩ := hids.all d hd
      exact hden.functional hden' ▸ hy
  · obtain ⟨d, hbelongs⟩ := hs.belongs he horigin
    cases hbelongs with
    | @part owner made =>
      rcases made.kind with hk | hk <;> rw [hk] at hkind <;> cases hkind
    | @decl i tree denotes made =>
      have hall := hmembers _ made.source
      constructor
      · intro hmem
        obtain ⟨key, hkey, hden⟩ := forall₂_mem_left hall x hmem
        obtain ⟨k, m, hk, hkey⟩ := DeclIndex.mem_allMemberKeys_zero.1 hkey
        obtain ⟨_, hget, hmember⟩ :=
          hu.memberOf_of_key hm hs ho made.tree_eq denotes hk hkey hden
        cases hx.symm.trans hget
        exact hmember
      · intro hmember
        obtain ⟨tree', k, m, key, htree, hk, hkey, hden⟩ :=
          hu.key_of_memberOf hm hs ho made.primary denotes hx hmember
        cases made.tree_eq.symm.trans htree
        have hkeys : key ∈ s.index.allMemberKeys d 0 tree.members :=
          DeclIndex.mem_allMemberKeys_zero.2 ⟨k, m, hk, hkey⟩
        obtain ⟨y, hy, hden'⟩ := forall₂_mem_left hall.flip key hkeys
        exact hden.functional hden' ▸ hy

end Members

end World

/-! ### The package around an element -/

namespace Session

variable {w : World} {s : Session} {base : NameTable} {id : ElementId} {e : Element} {d : DeclId}
  {i : DeclInfo}

/-- One step outwards. -/
theorem reads_packageWithin_step {fuel : Nat} {owner : ElementId} {p : Option ElementId}
    (hget : s.elements.get? id = some e) (hkind : e.kind ≠ .package)
    (hec : e.enclosing = some owner) (hp : Reads s (packageWithin fuel owner) p) :
    Reads s (packageWithin (fuel + 1) id) p := by
  unfold packageWithin
  refine (reads_elementAt hget).bind ?_
  rw [if_neg hkind, hec]
  exact hp

/-- **The way outwards ends at the package** of the file of the declaration that an element belongs
    to, or at nothing. -/
theorem Belongs.reads_packageWithin (hu : w.Distinct base) (hs : s.Sound) (ho : s.Of w)
    {fuel : Nat} (hfuel : id < fuel) (h : s.Belongs id e d) (hi : s.index.get? d = some i) :
    ∃ p, Reads s (packageWithin fuel id) p ∧
      s.Encloses (DeclIndex.packageKey? (s.index.package? i.unit)) p := by
  -- Along the fuel: what encloses an element is older.
  induction fuel generalizing id e d i with
  | zero => exact absurd hfuel (Nat.not_lt_zero id)
  | succ fuel ih =>
    have holder : ∀ owner < id, owner < fuel := fun owner hlt =>
      Nat.lt_of_lt_of_le hlt (Nat.le_of_lt_succ hfuel)
    have hdecl : ∀ owner < id, ∀ c j, s.index.Primary c → s.Denotes (s.index.keyOf c) owner →
        s.index.get? c = some j → ∃ p, Reads s (packageWithin fuel owner) p ∧
          s.Encloses (DeclIndex.packageKey? (s.index.package? j.unit)) p := by
      intro owner hlt c j hprimary hd hj
      obtain ⟨_, tree, outer, hmade⟩ := hs.isTree hprimary hd
      exact ih (holder owner hlt) (.decl hd hmade) hj
    cases h with
    | @part owner made primary =>
      obtain ⟨p, hp, henc⟩ := hdecl owner made.older d i primary made.owned hi
      exact ⟨p, reads_packageWithin_step made.get made.kind_ne made.enclosing hp, henc⟩
    | @decl _ tree denotes made =>
      cases hi.symm.trans made.info
      have henc := made.encloses
      unfold DeclIndex.outerKey? at henc
      cases hparent : i.parent with
      | none =>
        rw [hparent] at henc
        refine ⟨e.enclosing, ?_, henc⟩
        cases hec : e.enclosing with
        | none =>
          unfold packageWithin
          refine (reads_elementAt made.get).bind ?_
          rw [if_neg made.kind_ne, hec]
          exact .pure s none
        | some owner =>
          obtain ⟨key, hkey, hden⟩ := Session.Encloses.exists_key (hec ▸ henc)
          obtain ⟨outer, hget, hkind, -⟩ := hs.isPackage hkey hden
          have hlt := holder owner (made.older owner hec)
          refine reads_packageWithin_step made.get made.kind_ne hec ?_
          cases fuel with
          | zero => exact absurd hlt (Nat.not_lt_zero owner)
          | succ fuel =>
            unfold packageWithin
            refine (reads_elementAt hget).bind ?_
            rw [if_pos hkind]
            exact .pure s (some owner)
      | some p =>
        have hprimary := made.primary.parent hs.index made.info hparent
        obtain ⟨j, hj, hunit⟩ := hu.unit_of_parent (made.info_world ho) hparent
        rw [← ho.index] at hj
        rw [hparent] at henc
        rw [← hunit]
        cases hconstant : i.constant with
        | none =>
          rw [hconstant] at henc
          obtain ⟨owner, hec, hden⟩ := henc
          obtain ⟨q, hq, hout⟩ := hdecl owner (made.older owner hec) p j hprimary hden hj
          exact ⟨q, reads_packageWithin_step made.get made.kind_ne hec hq, hout⟩
        | some m =>
          rw [hconstant] at henc
          obtain ⟨constant, hec, hden⟩ := henc
          obtain ⟨outer, owner, hpart⟩ := hs.isPart_constant hden
          obtain ⟨q, hq, hout⟩ :=
            ih (holder constant (made.older constant hec)) (.part hpart hprimary) hj
          exact ⟨q, reads_packageWithin_step made.get made.kind_ne hec hq, hout⟩

/-- An element of source code is placed in the file of the declaration that it belongs to. -/
theorem Belongs.exists_span (hs : s.Sound)
    (hplaced : ∀ unit u, s.units[unit]? = some u → ∃ T : SourceText, T.file = unit ∧ u.Placed T)
    (h : s.Belongs id e d) (hi : s.index.get? d = some i) :
    ∃ place u, e.span = some place ∧ place.file = some i.unit ∧ s.units[i.unit]? = some u := by
  have htree : ∀ tree, s.index.tree? s.units d = some tree →
      ∃ (T : SourceText) (u : CompilationUnit), T.file = i.unit ∧ tree.Placed T ∧
        s.units[i.unit]? = some u ∧ treeAt s.units i.unit i.path = some tree := by
    intro tree htree
    rw [DeclIndex.tree?_of_known? (DeclIndex.known?_of_get? hi)] at htree
    obtain ⟨k, rest, u, top, -, hu, htop, hfollow⟩ := treeAt_eq_some.1 htree
    obtain ⟨T, hfile, hT⟩ := hplaced i.unit u hu
    exact ⟨T, u, hfile, (hT.types top (List.mem_of_getElem? htop)).follow? hfollow, hu, htree⟩
  cases h with
  | part made primary =>
    obtain ⟨tree, k, m, key, htree', hk, -, -, place, hplace, hspan⟩ := made.member
    obtain ⟨T, u, hfile, hT, hu, -⟩ := htree tree htree'
    have hholds := (hT.member (List.mem_of_getElem? hk)).places place hplace
    exact ⟨place, u, hspan, hfile ▸ hholds.file, hu⟩
  | @decl _ tree denotes made =>
    cases hi.symm.trans made.info
    obtain ⟨T, u, hfile, hT, hu, hat⟩ := htree tree made.tree_eq
    have hspan : e.span = some i.nameSpan := congrArg Element.span made.bare
    rw [(hs.index.infos d i hi).nameSpan tree hat] at hspan
    exact ⟨_, u, hspan, hfile ▸ hT.nameSpan.file, hu⟩

/-- An element is the one of the package that a file writes; for a file that writes none there is no
    element. The table is the one that the file was read with. -/
def IsPackageOf (s : Session) (names : NameTable) (u : CompilationUnit) (p : Option ElementId) :
    Prop :=
  match u.package with
  | none => p = none
  | some decl => ∃ id e n, p = some id ∧ s.elements.get? id = some e ∧ e.kind = .package ∧
      e.qualifiedName = .named n ∧
      s.names.resolve? n = some (".".intercalate (decl.path.segments.map names.text))

/-- **The package that is recorded of a file** is the one that the file writes. -/
theorem Sound.isPackageOf (hs : s.Sound) (ho : s.Of w) (hf : w.index.Filed w.units base w.names)
    {unit : Nat} {u : CompilationUnit} (hu : w.units[unit]? = some u)
    (hpath : ∀ p ∈ u.package, p.path.segments ≠ []) {p : Option ElementId}
    (h : s.Encloses (DeclIndex.packageKey? (s.index.package? unit)) p) :
    s.IsPackageOf base u p := by
  have hjoined := hf.package unit
  rw [packageSegments, hu, ← ho.index] at hjoined
  unfold IsPackageOf
  cases hdecl : u.package with
  | none =>
    rw [Option.bind_some, hdecl] at hjoined
    cases hpackage : s.index.package? unit with
    | none =>
      rw [hpackage] at h
      exact h
    | some n =>
      rw [hpackage] at hjoined
      exact absurd String.intercalate_nil hjoined.1
  | some decl =>
    rw [Option.bind_some, hdecl] at hjoined
    cases hpackage : s.index.package? unit with
    | none =>
      rw [hpackage] at hjoined
      exact absurd hjoined (hpath decl hdecl)
    | some n =>
      rw [hpackage] at hjoined h
      -- The empty name is no package; the path of a package has a segment, so it is not joined to it.
      have hn : n ≠ .empty := by
        rintro rfl
        exact hjoined.1 (Option.some.inj (hjoined.2.symm.trans w.names.resolve?_empty))
      rw [DeclIndex.packageKey?_eq_some.2 ⟨n, rfl, hn, rfl⟩] at h
      obtain ⟨id, rfl, hden⟩ := h
      obtain ⟨e, he, hdesc, -⟩ := hs.element _ id hden
      obtain ⟨simple, -, hbare⟩ := hdesc.package_inv
      exact ⟨id, e, n, rfl, he, congrArg Element.kind hbare, congrArg Element.qualifiedName hbare,
        ho.names _ _ hjoined.2⟩

end Session

/-! ### Clients -/

/-- The world of a client records of files what is written in them. -/
theorem World.filed_of_client {token : SessionToken} {files : Batch} {provider : Provider}
    {config : ModelConfig} :
    let w : World := Client.world token files provider config
    w.index.Filed w.units (parseBatch files).2.1 w.names :=
  (DeclIndex.filed_ofUnits (Client.trees_world token files provider config)
    (parseBatch_fields files).1).le (Client.names_world token files provider config)

namespace Client

variable {w : World} {c : Client} {e x : ElementId} {outer inner : Element}

/-- A question whose query finds elements is answered with them. -/
theorem ask_elements {q : Query (List ElementId)} {P : List ElementId → Session → Prop}
    (question : Question) (hquestion : question.query c.types = (do return .elements (← q)))
    (h : c.Fits w)
    (hq : (asking w).Answers c.session q fun r t => ∃ ids, r = .ok ids ∧ P ids t) :
    ∃ ids t, c.ask question = (.elements ids, ⟨t, c.types⟩) ∧ t.Idle w ∧
      c.session.Learns w t ∧ P ids t := by
  have hquery : (asking w).Answers c.session (question.query c.types)
      fun r t => ∃ ids, r = .ok (.elements ids) ∧ P ids t := by
    rw [hquestion]
    exact hq.bind_ok fun ids t _ _ hids => .pure fun _ => ⟨ids, rfl, hids⟩
  obtain ⟨_, t, hrun, ht, hg, _, rfl, ids, rfl, hids⟩ := hquery h.idle
  have hrun' : (question.query c.types).run.run.run c.session = (.ok (.ok (.elements ids)), t) :=
    hrun
  refine ⟨ids, t, ?_, ht, hg, hids⟩
  unfold ask
  rw [hrun']
  show (Reply.elements ids, (⟨t, c.types ++ []⟩ : Client)) = _
  rw [List.append_nil]

/-- What an element encloses is answered, and elements stay what they are. -/
theorem ask_enclosed (h : c.Fits w) (he : c.session.elements.get? e = some outer) :
    ∃ ids t, c.ask (.enclosed e) = (.elements ids, ⟨t, c.types⟩) ∧ t.Idle w ∧
      c.session.Learns w t ∧ t.EnclosedAs outer (.ok ids) := by
  obtain ⟨symbol, hshow⟩ := h.idle.resolved.sound.exists_shows he
  refine ask_elements (.enclosed e) rfl h ((enclosedOf_answers hshow he).mono fun r t _ _ hr => ?_)
  have ⟨ids, hids, _⟩ := hr
  exact ⟨ids, hids, hids ▸ hr⟩

/-- The package around an element is read. -/
theorem ask_package {p : Option ElementId} (hx : c.session.elements.get? x = some inner)
    (hp : Reads c.session (packageOf x) p) : (c.ask (.package x)).1 = .elements p.toList := by
  have hquery : Reads c.session ((Question.package x).query c.types).run
      (.ok (.elements p.toList)) :=
    (reads_elementAt hx).query (hp.query (.pure c.session _))
  unfold ask
  rw [show ((Question.package x).query c.types).run.run.run c.session = _ from hquery]
  rfl

variable (token : SessionToken) (files : Batch) (provider : Provider) (config : ModelConfig)
  (questions : List Question)

/-- **Members and enclosing elements are inverse.** In a batch without duplicates, whatever was asked
    before: a package or a type of source code encloses the elements of source code that stand in it,
    but for bodies of constants; and the package around an element of source code is the one that its
    file writes. -/
theorem enclosed_iff_enclosing
    (hdup : (start token files provider config).session.index.duplicates = []) :
    let c : Client := (start token files provider config).askAll questions
    (∀ e outer, c.session.elements.get? e = some outer →
      outer.kind = .package ∨ (outer.kind.isType ∧ outer.origin = .tree) →
      ∃ ids after, c.ask (.enclosed e) = (.elements ids, after) ∧
        (∀ x ∈ ids, (after.session.elements.get? x).isSome) ∧
        ∀ x inner, c.session.elements.get? x = some inner ∨
          after.session.elements.get? x = some inner → (x ∈ ids ↔ inner.MemberOf e)) ∧
    ∀ x inner, c.session.elements.get? x = some inner → inner.origin = .tree →
      ∃ place unit u p, inner.span = some place ∧ place.file = some unit ∧
        (parseBatch files).1[unit]? = some u ∧ (c.ask (.package x)).1 = .elements p.toList ∧
        c.session.IsPackageOf (parseBatch files).2.1 u p := by
  intro c
  have hu := World.distinct_of_client hdup
  have hf := @World.filed_of_client token files provider config
  have hfits : c.Fits _ := fits_asked token files provider config questions
  refine ⟨fun e outer he hkind => ?_, fun x inner hx horigin => ?_⟩
  · obtain ⟨ids, t, hask, ht, hg, hids⟩ := ask_enclosed hfits he
    refine ⟨ids, _, hask, fun x hx => ?_, fun x inner hx => ?_⟩
    · obtain ⟨_, ⟨⟩, hlt, -⟩ := hids
      exact Option.isSome_of_mem (Array.getElem?_eq_getElem (hlt x hx))
    · obtain ⟨outer', he', hbare⟩ := hg.elements e outer he
      -- An element known before is the same after, but for what was found out of it meanwhile; so
      -- the equivalence after the question is enough for both.
      have hiff : ∀ y inner, t.elements.get? y = some inner → (y ∈ ids ↔ inner.MemberOf e) := by
        intro y inner hy
        have hsame : outer'.bare.kind = outer.bare.kind ∧ outer'.bare.origin = outer.bare.origin :=
          ⟨congrArg Element.kind hbare, congrArg Element.origin hbare⟩
        refine hu.mem_enclosed_iff hf.marked ht.resolved.sound ht.resolved.of he' ?_
          (hids.of_bare hbare) hy
        rwa [show outer'.kind = outer.kind from hsame.1,
          show outer'.origin = outer.origin from hsame.2]
      rcases hx with hx | hx
      · obtain ⟨inner', hx', hbare'⟩ := hg.elements x inner hx
        rw [hiff x inner' hx', ← Element.memberOf_bare, hbare', Element.memberOf_bare]
      · exact hiff x inner hx
  · have hs := hfits.idle.resolved.sound
    have ho := hfits.idle.resolved.of
    obtain ⟨d, hbelongs⟩ := hs.belongs hx horigin
    obtain ⟨i, hi⟩ := hbelongs.primary.info
    have hplaced : ∀ unit u, c.session.units[unit]? = some u →
        ∃ T : SourceText, T.file = unit ∧ u.Placed T := by
      intro unit u hunit
      rw [ho.units] at hunit
      exact (parseBatch_unit hunit).1
    obtain ⟨place, u, hspan, hfile, hunit⟩ := hbelongs.exists_span hs hplaced hi
    rw [ho.units] at hunit
    have hlt := (Array.getElem?_eq_some_iff.1 hx).1
    obtain ⟨p, hp, henc⟩ := hbelongs.reads_packageWithin hu hs ho hlt hi
    exact ⟨place, i.unit, u, p, hspan, hfile, hunit, ask_package hx hp,
      hs.isPackageOf ho hf hunit (parseBatch_unit hunit).2 henc⟩

/-- A class of a package with two fields in one declaration, and an enum of no package whose constant
    has a body with a member type. -/
def twoPackages : Batch :=
  #[⟨"A.java", "package p.q; class A { int x, y; class B {} }"⟩,
    ⟨"E.java", "enum E { X { class In {} }, Y }"⟩]

/-- The enum encloses what stands in it, and the package around the body of its constant is the one
    that a file writes: none. -/
theorem enclosed_iff_enclosing_twoPackages :
    let c : Client := (start 0 twoPackages onlyObject {}).askAll
      [.lookupType "p.q.A", .enclosed 1, .lookupType "E", .enclosed 5, .body 6]
    (start 0 twoPackages onlyObject {}).session.index.duplicates = [] ∧
      (∃ ids after, c.ask (.enclosed 5) = (.elements ids, after) ∧ ids = [6, 7] ∧
        ∀ x inner, c.session.elements.get? x = some inner → (x ∈ ids ↔ inner.MemberOf 5)) ∧
      ∃ (unit : Nat) (u : CompilationUnit) (p : Option ElementId),
        (parseBatch twoPackages).1[unit]? = some u ∧
        (c.ask (.package 8)).1 = .elements p.toList ∧ p = none ∧
        c.session.IsPackageOf (parseBatch twoPackages).2.1 u p := by
  intro c
  have hdup : (start 0 twoPackages onlyObject {}).session.index.duplicates = [] := by
    decide +kernel
  obtain ⟨hmembers, hpackages⟩ := enclosed_iff_enclosing 0 twoPackages onlyObject {}
    [.lookupType "p.q.A", .enclosed 1, .lookupType "E", .enclosed 5, .body 6] hdup
  have henum : (c.session.elements.get? 5).any (fun e => e.kind.isType && e.origin = .tree) := by
    decide +kernel
  have hbody : (c.session.elements.get? 8).any (fun e => e.origin = .tree) := by
    decide +kernel
  obtain ⟨outer, hget, houter⟩ := (Option.any_eq_true _ _).1 henum
  obtain ⟨inner, hinner, htree⟩ := (Option.any_eq_true _ _).1 hbody
  obtain ⟨htype, horigin⟩ := Bool.and_eq_true_iff.1 houter
  obtain ⟨ids, after, hask, -, hiff⟩ :=
    hmembers 5 outer hget (.inr ⟨htype, of_decide_eq_true horigin⟩)
  obtain ⟨_, unit, u, p, -, -, hunit, hpackage, hof⟩ :=
    hpackages 8 inner hinner (of_decide_eq_true htree)
  have hids : (c.ask (.enclosed 5)).1.named = [6, 7] := by decide +kernel
  have hp : (c.ask (.package 8)).1.named = [] := by decide +kernel
  rw [hask] at hids
  rw [hpackage] at hp
  have hnone : p = none := Option.toList_eq_nil_iff.1 hp
  -- the facts from the general theorem are about the client as it is written
  unfold c
  exact ⟨hdup, ⟨ids, after, hask, hids, fun x inner hx => hiff x inner (.inl hx)⟩,
    unit, u, p, hunit, hpackage, hnone, hof⟩

end Client

end JavaAbi
