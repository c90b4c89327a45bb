import JavaAbi.Proofs.Lookups
import JavaAbi.Proofs.VisibleDeclarations
import JavaAbi.Stub.Basic

namespace JavaAbi

/-!
# Contents of stubs

What the stub of a declaration shows: its name, its constants and variables, and the stubs of its
member types, in the order in which they are declared. A stub is made member by member, and members
are known by keys; what is seen by way of the keys of a declaration is what is seen in it.

* `TypeStub.Shows` — the stub shows a declaration, and all that can be reached in it;
* `TypeStub.names` — the names in a stub; `Shows.names_eq` says which ones they are;
* `TypeStub.Adds` — a stub after some of the members, from one before them;
* `World.Nameable` — declarations that are not inside the body of a constant;
* `World.Distinct.allSeen_members` — the keys of a declaration lead to what is seen in it.
-/

/-! ### What stubs show -/

/-- The dimensions that are written after a variable. -/
def brackets (dims : Nat) : String := String.join (List.replicate dims "[]")

/-- An entry of a stub shows a variable of the declaration `d`. Its type is the one of the field
    declaration, in as many more arrays as there are dimensions after the variable. -/
structure FieldStub.Shows (w : World) (d : DeclId) (x : FieldDecl × Variable) (f : FieldStub) :
    Prop where
  name : f.name = w.text x.2.name
  modifiers : f.modifiers = x.1.modifiers
  type : ∃ text, w.Writes (w.scopeOf d) x.1.type text ∧ f.type = text ++ brackets x.2.dims

/-- A surface shows the declaration `d` itself, and its constants and variables, each once and in
    order. -/
structure Surface.Shows (w : World) (d : DeclId) (x : List Nat × TypeDecl) (s : Surface) :
    Prop where
  name : s.name = w.canonicalName x.1
  kind : s.kind = .ofDecl x.2.head.kind
  modifiers : s.modifiers = x.2.head.modifiers
  constants : s.constants = (x.2.contents x.1).constants.map w.text
  fields : List.Forall₂ (FieldStub.Shows w d) (x.2.contents x.1).fields s.fields

/-- **A stub shows a declaration** and, nested in it, its member types that are not private, each once
    and in order. -/
inductive TypeStub.Shows (w : World) : List Nat × TypeDecl → TypeStub → Prop
  | mk {d : DeclId} {x : List Nat × TypeDecl} {surface : Surface} {nested : List TypeStub}
      (number : w.index.placed? w.units d = some x) (shows_surface : surface.Shows w d x)
      (shows_nested : List.Forall₂ (Shows w) (x.2.contents x.1).types nested) :
      Shows w x (.mk surface nested)

mutual

/-- The names in a stub: its own, and those in the stubs of member types. -/
def TypeStub.names : TypeStub → List String
  | .mk s nested => s.name :: TypeStub.namesIn nested

/-- The names in stubs. -/
def TypeStub.namesIn : List TypeStub → List String
  | [] => []
  | s :: rest => s.names ++ TypeStub.namesIn rest

end

section Names

variable {w : World}

mutual

/-- **The names in a stub** are those of the declarations that can be reached, in order. -/
theorem TypeStub.Shows.names_eq : (stub : TypeStub) → (x : List Nat × TypeDecl) →
    stub.Shows w x → stub.names = (x.2.shown x.1).map fun y => w.canonicalName y.1
  | .mk surface nested => by
    rintro x ⟨number, hsurface, hnested⟩
    rw [TypeStub.names, TypeDecl.shown_eq, List.map_cons, hsurface.name,
      TypeStub.Shows.namesIn_eq nested _ hnested]

theorem TypeStub.Shows.namesIn_eq : (stubs : List TypeStub) → (xs : List (List Nat × TypeDecl)) →
    List.Forall₂ (TypeStub.Shows w) xs stubs →
      TypeStub.namesIn stubs = (xs.flatMap fun x => x.2.shown x.1).map fun y => w.canonicalName y.1
  | [] => by
    rintro _ ⟨⟩
    rfl
  | stub :: rest => by
    rintro _ (_ | ⟨hstub, hrest⟩)
    rw [TypeStub.namesIn, List.flatMap_cons, List.map_append,
      TypeStub.Shows.names_eq stub _ hstub, TypeStub.Shows.namesIn_eq rest _ hrest]

end

end Names

theorem brackets_succ (dims : Nat) : "[]" ++ brackets dims = brackets (dims + 1) := by
  rw [brackets, brackets, List.replicate_succ, String.join_cons]

/-- A type in more dimensions is written with them. -/
theorem World.Writes.withDimensions {w : World} {sc : ScopeView} {place : Span} {dims : Nat}
    {type : TypeRef} {text : String}
    (h : w.Writes sc (Element.withDimensions place dims type) text) :
    ∃ base, w.Writes sc type base ∧ text = base ++ brackets dims := by
  induction dims generalizing type with
  | zero => exact ⟨text, h, (String.append_empty).symm⟩
  | succ dims ih =>
    obtain ⟨_, hbase, rfl⟩ := ih h
    cases hbase with
    | array inner => exact ⟨_, inner, by rw [String.append_assoc, brackets_succ]⟩
    | other plain => cases plain

/-! ### Stubs in the making -/

/-- A stub shows more than one before it: what is seen in a part of the declaration `d`. -/
def TypeStub.Adds (w : World) (d : DeclId) (c : Contents) (before after : TypeStub) : Prop :=
  ∃ fields nested, after = .mk
      { before.surface with
        constants := before.surface.constants ++ c.constants.map w.text
        fields := before.surface.fields ++ fields }
      (before.nested ++ nested) ∧
    List.Forall₂ (FieldStub.Shows w d) c.fields fields ∧
    List.Forall₂ (TypeStub.Shows w) c.types nested

namespace TypeStub.Adds

variable {w : World} {d : DeclId} {c c' : Contents} {s t u : TypeStub}

theorem refl (s : TypeStub) : s.Adds w d {} s := by
  obtain ⟨surface, nested⟩ := s
  exact ⟨[], [], by simp [TypeStub.surface, TypeStub.nested], .nil, .nil⟩

theorem trans (h : s.Adds w d c t) (h' : t.Adds w d c' u) : s.Adds w d (c ++ c') u := by
  obtain ⟨fields, nested, rfl, hf, hn⟩ := h
  obtain ⟨fields', nested', rfl, hf', hn'⟩ := h'
  refine ⟨fields ++ fields', nested ++ nested', ?_, List.rel_append hf hf',
    List.rel_append hn hn'⟩
  simp [TypeStub.surface, TypeStub.nested]

end TypeStub.Adds

/-! ### What keys lead to -/

namespace World

/-- The declaration with the number `d`, and its position, which is not inside the body of a
    constant. -/
structure Nameable (w : World) (d : DeclId) (x : List Nat × TypeDecl) : Prop where
  number : w.index.placed? w.units d = some x
  outside : ∃ unit path, x.1 = unit :: path ∧ ¬InBody w.units unit path

theorem Nameable.exists_info {w : World} {d : DeclId} {x : List Nat × TypeDecl}
    (h : w.Nameable d x) : ∃ i, w.index.get? d = some i ∧ i.position = x.1 ∧
      w.index.tree? w.units d = some x.2 := by
  obtain ⟨i, hi, hplaced⟩ := Option.bind_eq_some_iff.1 h.number
  obtain ⟨tree, htree, hpair⟩ := Option.bind_eq_some_iff.1 hplaced
  cases hpair
  exact ⟨i, hi, rfl, htree⟩

/-- What is seen by way of a key of the declaration `d`. -/
inductive Seen (w : World) (d : DeclId) : ElementKey → Contents → Prop
  | field {m number : Nat} {f : FieldDecl} {v : Variable} (member : w.member? d m = some (.field f))
      (declarator : f.declarators[number]? = some v) :
      Seen w d (.field d m number) (.unlessPrivate f.modifiers { fields := [(f, v)] })
  | constant {m : Nat} {n : Name} {body : Option TypeDecl} {place : Span}
      (member : w.member? d m = some (.constant n body place)) :
      Seen w d (.constant d m) { constants := [n] }
  | type {key : ElementKey} {c : DeclId} {x : List Nat × TypeDecl} (key_eq : w.index.keyOf c = key)
      (later : d < c) (nameable : w.Nameable c x) :
      Seen w d key (.unlessPrivate x.2.head.modifiers { types := [x] })

/-- What is seen by way of keys. -/
inductive AllSeen (w : World) (d : DeclId) : List ElementKey → Contents → Prop
  | nil : AllSeen w d [] {}
  | cons {key : ElementKey} {keys : List ElementKey} {c c' : Contents} (first : w.Seen d key c)
      (rest : AllSeen w d keys c') : AllSeen w d (key :: keys) (c ++ c')

section Said

variable {w : World} {s : Session} {d : DeclId} {m : Nat} {id : ElementId}

/-- The element of a variable says what its declaration says. -/
theorem element_of_variable (hs : s.Resolved w) {number : Nat} {f : FieldDecl} {v : Variable}
    (hm : w.member? d m = some (.field f)) (hv : f.declarators[number]? = some v)
    (hd : s.Denotes (.field d m number) id) :
    ∃ e, s.elements.get? id = some e ∧ e.kind = .field ∧ e.simpleName = v.name ∧
      e.modifiers = f.modifiers ∧ e.span = some v.span ∧ w.names.Issued v.name := by
  obtain ⟨e, he, hdesc, -⟩ := hs.sound.element _ id hd
  obtain ⟨f', v', owner, hm', hv', -, hbare⟩ := hdesc.field_inv
  rw [hs.of.member?] at hm'
  cases hm.symm.trans hm'
  cases hv.symm.trans hv'
  exact ⟨e, he, congrArg Element.kind hbare, congrArg Element.simpleName hbare,
    congrArg Element.modifiers hbare, congrArg Element.span hbare,
    (World.member_sound hs.world.trees hm).variable_issued (List.mem_of_getElem? hv)⟩

/-- So does the element of a constant. -/
theorem element_of_constant (hs : s.Resolved w) (hd : s.Denotes (.constant d m) id) :
    ∃ e n body place, s.elements.get? id = some e ∧
      w.member? d m = some (.constant n body place) ∧ e.kind = .enumConstant ∧ e.simpleName = n ∧
      e.modifiers = [.publicAccess, .static, .final] ∧ w.names.Issued n := by
  obtain ⟨e, he, hdesc, -⟩ := hs.sound.element _ id hd
  obtain ⟨n, body, place, owner, hm, -, hbare⟩ := hdesc.constant_inv
  rw [hs.of.member?] at hm
  exact ⟨e, n, body, place, he, hm, congrArg Element.kind hbare, congrArg Element.simpleName hbare,
    congrArg Element.modifiers hbare, (World.member_sound hs.world.trees hm).constant_issued⟩

end Said

section Seen

variable {w : World} {d : DeclId} {key : ElementKey} {keys keys' : List ElementKey}
  {c c' : Contents}

theorem Seen.field_inv {k m number : Nat} (h : w.Seen d (.field k m number) c) :
    ∃ f v, w.member? k m = some (.field f) ∧ f.declarators[number]? = some v ∧ k = d ∧
      c = .unlessPrivate f.modifiers { fields := [(f, v)] } := by
  cases h with
  | field member declarator => exact ⟨_, _, member, declarator, rfl, rfl⟩
  | @type _ j _ key_eq => exact (key_eq ▸ w.index.keyOf_isType j).elim

theorem Seen.constant_inv {k m : Nat} (h : w.Seen d (.constant k m) c) :
    ∃ n body place, w.member? k m = some (.constant n body place) ∧ c = { constants := [n] } := by
  cases h with
  | constant member => exact ⟨_, _, _, member, rfl⟩
  | @type _ j _ key_eq => exact (key_eq ▸ w.index.keyOf_isType j).elim

/-- By way of a package nothing is seen. -/
theorem Seen.ne_package (h : w.Seen d key c) (n : Name) : key ≠ .package n := by
  rintro rfl
  cases h with
  | @type _ j _ key_eq => exact (key_eq ▸ w.index.keyOf_isType j : ElementKey.IsType _)

theorem Seen.type_inv (h : w.Seen d key c) (hkey : key.IsType) :
    ∃ k x, w.index.keyOf k = key ∧ d < k ∧ w.Nameable k x ∧
      c = .unlessPrivate x.2.head.modifiers { types := [x] } := by
  cases h with
  | field | constant => exact hkey.elim
  | type key_eq later nameable => exact ⟨_, _, key_eq, later, nameable, rfl⟩

theorem AllSeen.single (h : w.Seen d key c) : w.AllSeen d [key] c := by
  rw [← c.append_empty]
  exact .cons h .nil

theorem AllSeen.append (h : w.AllSeen d keys c) (h' : w.AllSeen d keys' c') :
    w.AllSeen d (keys ++ keys') (c ++ c') := by
  induction h with
  | nil => exact h'
  | cons first _ ih =>
    rw [Contents.append_assoc]
    exact .cons first ih

/-- The keys of the variables of a field declaration lead to them, from number `k` on. -/
theorem allSeen_variables {m k : Nat} {f : FieldDecl} {vs : List Variable}
    (hm : w.member? d m = some (.field f)) (hk : ∀ j, vs[j]? = f.declarators[k + j]?) :
    w.AllSeen d ((List.range' k vs.length).map fun v => .field d m v)
      (.unlessPrivate f.modifiers { fields := vs.map fun v => (f, v) }) := by
  induction vs generalizing k with
  | nil =>
    have hempty : Contents.unlessPrivate f.modifiers {} = {} := by
      unfold Contents.unlessPrivate
      split <;> rfl
    rw [List.map_nil, hempty]
    exact .nil
  | cons v rest ih =>
    have hrest : ∀ j, rest[j]? = f.declarators[k + 1 + j]? := fun j => by
      rw [Nat.add_assoc, Nat.add_comm 1 j]
      exact hk (j + 1)
    -- The variables of one declaration are private together, so the first can be taken apart.
    rw [List.length_cons, List.range'_succ, List.map_cons, List.map_cons]
    have hsplit : Contents.unlessPrivate f.modifiers { fields := (f, v) :: rest.map fun v => (f, v) }
        = .unlessPrivate f.modifiers { fields := [(f, v)] } ++
          .unlessPrivate f.modifiers { fields := rest.map fun v => (f, v) } := by
      rw [← Contents.unlessPrivate_append]
      rfl
    rw [hsplit]
    exact .cons (.field hm (hk 0).symm) (ih hrest)

variable {base : NameTable} {place : List Nat} {tree : TypeDecl}

/-- The declaration of a member type has a later number, one position down. -/
theorem Distinct.exists_member (h : w.Distinct base) (hd : w.Nameable d (place, tree)) {k : Nat}
    {t : TypeDecl} (hk : tree.members[k]? = some (.type t)) :
    ∃ c, w.index.child? d k = some c ∧ d < c ∧ w.Nameable c (place ++ [k], t) := by
  obtain ⟨hnumber, unit, path, hplace, hbody⟩ := hd
  obtain ⟨i, hi, hpos, htree⟩ := DeclIndex.placed?_eq_some.1 hnumber
  obtain ⟨hunit, hpath⟩ : i.unit = unit ∧ i.path = path := List.cons.inj (hpos.trans hplace)
  subst hpos hunit hpath
  obtain ⟨c, j, hchild, hj, hpos⟩ := h.settled.exists_child hi htree hk rfl
  obtain ⟨hunit, hpath⟩ : j.unit = i.unit ∧ j.path = i.path ++ [k] := List.cons.inj hpos
  refine ⟨c, hchild, ?_, DeclIndex.placed?_eq_some.2 ⟨j, hj, hpos, ?_⟩, i.unit, i.path ++ [k], rfl,
    not_inBody_member htree hk hbody⟩
  · rw [h.settled.orderly.lt_iff hi hj, hpos]
    exact comes_inside _ k
  · rw [hunit, hpath, treeAt_below htree, hk]
    rfl

/-- The keys of a member lead to what is seen of it. -/
theorem Distinct.allSeen_member (h : w.Distinct base) (hd : w.Nameable d (place, tree)) {k : Nat}
    {m : Member} (hk : tree.members[k]? = some m) :
    w.AllSeen d (w.index.memberKeys d k m) (m.contents (place ++ [k])) := by
  have hmember : w.member? d k = some m := by
    obtain ⟨i, hi, -, htree⟩ := DeclIndex.placed?_eq_some.1 hd.number
    rw [member?, DeclIndex.tree?_of_known? hi, htree]
    exact hk
  cases m with
  | type t =>
    obtain ⟨c, hchild, hlt, hc⟩ := h.exists_member hd hk
    rw [DeclIndex.memberKeys, hchild]
    exact .single (.type rfl hlt hc)
  | constant n body sp => exact .single (.constant hmember)
  | field f =>
    rw [DeclIndex.memberKeys, List.range_eq_range', Member.contents]
    exact allSeen_variables hmember fun j => by rw [Nat.zero_add]

/-- **The keys of a declaration lead to what is seen in it.** -/
theorem Distinct.allSeen_members (h : w.Distinct base) (hd : w.Nameable d (place, tree)) :
    w.AllSeen d (w.index.allMemberKeys d 0 tree.members) (tree.contents place) := by
  -- Along the members, of which the first has number `k`.
  suffices hall : ∀ (ms : List Member) (k : Nat), (∀ j, ms[j]? = tree.members[k + j]?) →
      w.AllSeen d (w.index.allMemberKeys d k ms) (Member.allContents place k ms) by
    rw [TypeDecl.contents_eq]
    exact hall tree.members 0 fun j => by rw [Nat.zero_add]
  intro ms
  induction ms with
  | nil => exact fun k _ => .nil
  | cons m rest ih =>
    intro k hk
    rw [DeclIndex.allMemberKeys, Member.allContents]
    refine (h.allSeen_member hd (hk 0).symm).append (ih (k + 1) fun j => ?_)
    rw [Nat.add_assoc, Nat.add_comm 1 j]
    exact hk (j + 1)

end Seen

/-! ### Top-level declarations -/

section Top

variable {w : World} {base : NameTable}

/-- The top-level declarations of the index are those of the batch, in order. -/
theorem Distinct.topLevel (h : w.Distinct base) :
    List.Forall₂ w.Nameable w.index.topLevel (topDecls w.units) := by
  rw [List.forall₂_iff_zip]
  refine ⟨h.settled.top.length_eq, fun {d x} hmem => ?_⟩
  obtain ⟨unit, u, k, hu, hk, hx⟩ := mem_topDecls.1 (List.of_mem_zip hmem).2
  obtain ⟨i, hi, hpos⟩ := (List.forall₂_iff_zip.1 h.settled.top).2 hmem
  obtain ⟨rfl, hpath⟩ : i.unit = unit ∧ i.path = [k] := List.cons.inj (hpos.trans hx)
  refine ⟨DeclIndex.placed?_eq_some.2 ⟨i, hi, hpos, ?_⟩, i.unit, [k], hx, not_inBody_top k⟩
  rw [hpath]
  exact treeAt_eq_some.2 ⟨k, [], u, _, rfl, hu, hk, rfl⟩

theorem topDecls_nodup (units : List CompilationUnit) : (topDecls units).Nodup := by
  -- Top-level declarations come first in what is shown of them, so they repeat no more than that.
  have hsublist : (topDecls units).Sublist (shownDecls units) := by
    rw [shownDecls_eq]
    generalize topDecls units = xs
    induction xs with
    | nil => exact .slnil
    | cons x rest ih =>
      rw [List.flatMap_cons, TypeDecl.shown_eq]
      exact (ih.trans (List.sublist_append_right _ _)).cons_cons x
  exact (shownDecls_nodup units).sublist hsublist

/-- The top-level declarations have elements of their own. -/
theorem Distinct.nodup_topLevel (h : w.Distinct base) :
    (w.index.topLevel.map w.index.keyOf).Nodup := by
  have hplaced : w.index.topLevel.map (w.index.placed? w.units) = (topDecls w.units).map some := by
    rw [← List.forall₂_eq_eq_eq, List.forall₂_map_left_iff, List.forall₂_map_right_iff]
    exact h.topLevel.imp fun _ _ hx => hx.number
  have hnodup : w.index.topLevel.Nodup := by
    refine List.Nodup.of_map (w.index.placed? w.units) ?_
    rw [hplaced]
    exact (topDecls_nodup w.units).map (Option.some_injective _)
  have hprimary : ∀ d ∈ w.index.topLevel, w.index.Primary d := by
    intro d hd
    obtain ⟨i, hi⟩ := DeclIndex.info_of_childOf (h.settled.sound.topLevel d hd)
    exact h.primary hi
  exact hnodup.map_on fun d hd e he heq => (hprimary d hd).keyOf_inj (hprimary e he) heq

end Top

end World

end JavaAbi
