import Mathlib.Logic.Relation
import JavaAbi.Proofs.Clients
import JavaAbi.Proofs.FaithfulIndex

namespace JavaAbi

/-!
# Visible declarations

From a top-level declaration, other code gets to its member types that are not private, to theirs, and
so on. Where no declaration is a duplicate, every one that has a name is told from all others by it.

* `ShownIn`, `Reachable` — the declarations that other code gets to;
* `shownDecls` — all of them, in the order of positions;
* `Hidden`, `reachable_iff` — those that it does not get to;
* `TypeDecl.contents` — what other code sees in a declaration;
* `World.canonicalName` — the name that belongs to a position;
* `World.Distinct` — worlds without duplicates, where `canonicalName_inj` holds.
-/

/-! ### What is seen in a declaration -/

/-- What is seen in a declaration: constants, variables with their declarations, and member types with
    their positions. -/
structure Contents where
  constants : List Name := []
  fields : List (FieldDecl × Variable) := []
  types : List (List Nat × TypeDecl) := []

namespace Contents

/-- What is seen in two parts of a declaration. -/
protected def append (c c' : Contents) : Contents where
  constants := c.constants ++ c'.constants
  fields := c.fields ++ c'.fields
  types := c.types ++ c'.types

instance : Append Contents := ⟨Contents.append⟩

/-- Nothing is seen of what is private. -/
def unlessPrivate (ms : List Modifier) (c : Contents) : Contents :=
  if ms.contains .privateAccess then {} else c

@[simp] theorem append_constants (c c' : Contents) :
    (c ++ c').constants = c.constants ++ c'.constants := rfl

@[simp] theorem append_fields (c c' : Contents) :
    (c ++ c').fields = c.fields ++ c'.fields := rfl

@[simp] theorem append_types (c c' : Contents) : (c ++ c').types = c.types ++ c'.types := rfl

@[ext] theorem ext {c c' : Contents} (hc : c.constants = c'.constants)
    (hv : c.fields = c'.fields) (ht : c.types = c'.types) : c = c' := by
  cases c
  cases c'
  cases hc
  cases hv
  cases ht
  rfl

@[simp] theorem append_empty (c : Contents) : c ++ ({} : Contents) = c := by
  ext1 <;> simp

theorem append_assoc (c c' c'' : Contents) : c ++ c' ++ c'' = c ++ (c' ++ c'') := by
  ext1 <;> simp

theorem unlessPrivate_append (ms : List Modifier) (c c' : Contents) :
    unlessPrivate ms (c ++ c') = unlessPrivate ms c ++ unlessPrivate ms c' := by
  unfold unlessPrivate
  split <;> rfl

end Contents

/-- A member type that is not private, with its position. -/
def Member.shownType (place : List Nat) : Member → List (List Nat × TypeDecl)
  | .type d => if d.hasModifier .privateAccess then [] else [(place, d)]
  | .field _ => []
  | .constant _ _ _ => []

/-- **What is seen in a declaration**: its constants, the variables of the field declarations that are
    not private, and the member types that are not private. -/
def TypeDecl.contents (place : List Nat) (d : TypeDecl) : Contents where
  constants := d.constants.map Prod.fst
  fields := (d.fields.filter fun f => !f.modifiers.contains .privateAccess).flatMap fun f =>
    f.declarators.map fun v => (f, v)
  types := numbered Member.shownType place 0 d.members

/-- What is seen of a member. -/
def Member.contents (place : List Nat) : Member → Contents
  | .type d => .unlessPrivate d.head.modifiers { types := [(place, d)] }
  | .field f => .unlessPrivate f.modifiers { fields := f.declarators.map fun v => (f, v) }
  | .constant n _ _ => { constants := [n] }

/-- What is seen of members, from number `k` on. -/
def Member.allContents (place : List Nat) (k : Nat) : List Member → Contents
  | [] => {}
  | m :: rest => m.contents (place ++ [k]) ++ Member.allContents place (k + 1) rest

/-- What is seen in a declaration is seen of its members, one after the other. -/
theorem TypeDecl.contents_eq (place : List Nat) (d : TypeDecl) :
    d.contents place = Member.allContents place 0 d.members := by
  obtain ⟨head, members⟩ := d
  suffices h : ∀ k, Member.allContents place k members =
      { TypeDecl.contents place (.mk head members) with
        types := numbered Member.shownType place k members } from (h 0).symm
  induction members with
  | nil => exact fun k => rfl
  | cons m rest ih =>
    intro k
    rw [Member.allContents, ih]
    cases m with
    | constant n body sp => rfl
    | type d =>
      rw [numbered, Member.shownType, Member.contents, Contents.unlessPrivate, TypeDecl.hasModifier]
      split <;> rfl
    | field f =>
      rw [Member.contents, Contents.unlessPrivate]
      ext1
      · split <;> rfl
      · simp only [Contents.append_fields, contents, fields, members, List.filterMap_cons,
          List.filter_cons]
        split <;> simp_all
      · split <;> rfl

/-! ### What other code gets to -/

/-- A declaration is a member type of another one, and not private. -/
def ShownIn (x y : List Nat × TypeDecl) : Prop :=
  ∃ k, y.1 = x.1 ++ [k] ∧ x.2.members[k]? = some (.type y.2) ∧
    y.2.hasModifier .privateAccess = false

/-- **A declaration can be reached** from a top-level one through member types that are not
    private. -/
def Reachable (units : List CompilationUnit) (x : List Nat × TypeDecl) : Prop :=
  ∃ top ∈ topDecls units, Relation.ReflTransGen ShownIn top x

mutual

/-- The declarations that can be reached in a tree, each before those inside it. -/
def TypeDecl.shown (place : List Nat) : TypeDecl → List (List Nat × TypeDecl)
  | .mk head members => (place, .mk head members) :: Member.allShown place 0 members

/-- Those that can be reached in members, the first of which has the number `k`. -/
def Member.allShown (place : List Nat) (k : Nat) : List Member → List (List Nat × TypeDecl)
  | [] => []
  | m :: rest => m.shown (place ++ [k]) ++ Member.allShown place (k + 1) rest

/-- Those that can be reached in a member. -/
def Member.shown (place : List Nat) : Member → List (List Nat × TypeDecl)
  | .type d => if d.hasModifier .privateAccess then [] else d.shown place
  | .field _ => []
  | .constant _ _ _ => []

end

/-- The declarations of a batch that can be reached, with their positions. -/
def shownDecls (units : List CompilationUnit) : List (List Nat × TypeDecl) :=
  numbered (fun place u => numbered TypeDecl.shown place 0 u.types) [] 0 units

section Shown

variable {units : List CompilationUnit} {place : List Nat} {d : TypeDecl}
  {x y : List Nat × TypeDecl}

theorem mem_contents_types : y ∈ (d.contents place).types ↔ ShownIn (place, d) y := by
  unfold TypeDecl.contents ShownIn
  rw [mem_numbered]
  constructor
  · rintro ⟨k, m, hm, hy⟩
    cases m with
    | type c =>
      rw [Member.shownType] at hy
      split at hy
      · cases hy
      · rename_i hpublic
        cases List.mem_singleton.1 hy
        exact ⟨k, by simp, hm, by simpa using hpublic⟩
    | field _ | constant _ _ _ => cases hy
  · rintro ⟨k, hplace, hm, hpublic⟩
    refine ⟨k, _, hm, ?_⟩
    rw [Member.shownType, hpublic, Nat.zero_add, ← hplace]
    exact List.mem_singleton_self y

/-- What can be reached in a declaration is itself, and what can be reached in the member types that
    are seen in it. -/
theorem TypeDecl.shown_eq (place : List Nat) (d : TypeDecl) :
    d.shown place = (place, d) :: (d.contents place).types.flatMap fun x => x.2.shown x.1 := by
  obtain ⟨head, members⟩ := d
  have hall : ∀ k, Member.allShown place k members =
      (numbered Member.shownType place k members).flatMap fun x => x.2.shown x.1 := by
    induction members with
    | nil => exact fun k => rfl
    | cons m rest ih =>
      intro k
      rw [Member.allShown, numbered, List.flatMap_append, ih]
      congr 1
      cases m with
      | type c =>
        rw [Member.shown, Member.shownType]
        split <;> simp
      | field _ | constant _ _ _ => rw [Member.shown, Member.shownType, List.flatMap_nil]
  rw [TypeDecl.shown, hall]
  rfl

/-- A member type is smaller than what is around it. -/
theorem ShownIn.sizeOf_lt (h : ShownIn x y) : sizeOf y.2 < sizeOf x.2 := by
  obtain ⟨place, head, members⟩ := x
  obtain ⟨k, -, hm, -⟩ := h
  have hlt := List.sizeOf_lt_of_mem (List.mem_of_getElem? hm)
  simp only [TypeDecl.members, Member.type.sizeOf_spec] at hlt
  simp only [TypeDecl.mk.sizeOf_spec]
  omega

theorem reach_of_mem_shown (d : TypeDecl) (place : List Nat) (h : y ∈ d.shown place) :
    Relation.ReflTransGen ShownIn (place, d) y := by
  rw [TypeDecl.shown_eq, List.mem_cons] at h
  rcases h with rfl | h
  · exact .refl
  · obtain ⟨x, hx, hy⟩ := List.mem_flatMap.1 h
    have hin := mem_contents_types.1 hx
    have hlt := hin.sizeOf_lt
    exact .head hin (reach_of_mem_shown x.2 x.1 hy)
  termination_by sizeOf d

theorem mem_shown : y ∈ d.shown place ↔ Relation.ReflTransGen ShownIn (place, d) y := by
  constructor
  · exact reach_of_mem_shown d place
  · intro h
    suffices hx : ∀ x, Relation.ReflTransGen ShownIn x y → y ∈ x.2.shown x.1 from hx _ h
    intro x hx
    induction hx using Relation.ReflTransGen.head_induction_on with
    | refl =>
      rw [TypeDecl.shown_eq]
      exact List.mem_cons_self
    | head hin _ ih =>
      rw [TypeDecl.shown_eq]
      exact List.mem_cons_of_mem _ (List.mem_flatMap.2 ⟨_, mem_contents_types.2 hin, ih⟩)

/-- What a list makes of what another one gives. -/
theorem flatMap_numbered {α β γ : Type} (f : List Nat → α → List β) (g : β → List γ)
    (front : List Nat) (k : Nat) (as : List α) : (numbered f front k as).flatMap g =
      numbered (fun place a => (f place a).flatMap g) front k as := by
  induction as generalizing k with
  | nil => rfl
  | cons a rest ih => rw [numbered, numbered, List.flatMap_append, ih]

theorem shownDecls_eq (units : List CompilationUnit) :
    shownDecls units = (topDecls units).flatMap fun x => x.2.shown x.1 := by
  simp only [shownDecls, topDecls, flatMap_numbered, List.flatMap_cons, List.flatMap_nil,
    List.append_nil]

/-- **The list has all that can be reached**, and nothing else. -/
theorem mem_shownDecls : x ∈ shownDecls units ↔ Reachable units x := by
  rw [shownDecls_eq, List.mem_flatMap]
  exact exists_congr fun top => and_congr_right fun _ => mem_shown

theorem sublist_numbered {α β : Type} {f g : List Nat → α → List β} {front : List Nat} {k : Nat}
    {as : List α} (h : ∀ place a, (f place a).Sublist (g place a)) :
    (numbered f front k as).Sublist (numbered g front k as) := by
  induction as generalizing k with
  | nil => exact .slnil
  | cons a rest ih => exact (h _ a).append ih

mutual

theorem TypeDecl.shown_sublist (place : List Nat) :
    (d : TypeDecl) → (d.shown place).Sublist (d.placed place)
  | .mk head members => by
    rw [TypeDecl.shown, TypeDecl.placed]
    exact (Member.allShown_sublist place 0 members).cons_cons _

theorem Member.allShown_sublist (place : List Nat) (k : Nat) : (ms : List Member) →
    (Member.allShown place k ms).Sublist (Member.allPlaced place k ms)
  | [] => by
    rw [Member.allShown]
    exact List.nil_sublist _
  | m :: rest => by
    rw [Member.allShown, Member.allPlaced]
    exact (Member.shown_sublist _ m).append (Member.allShown_sublist place (k + 1) rest)

theorem Member.shown_sublist (place : List Nat) : (m : Member) →
    (m.shown place).Sublist (m.placed place)
  | .type d => by
    rw [Member.shown, Member.placed]
    split
    · exact List.nil_sublist _
    · exact d.shown_sublist place
  | .field _ | .constant _ _ _ => by
    rw [Member.shown]
    exact List.nil_sublist _

end

/-- What can be reached is a part of all declarations, in the same order. -/
theorem shownDecls_sublist (units : List CompilationUnit) :
    (shownDecls units).Sublist (placedDecls units) :=
  sublist_numbered fun _ _ => sublist_numbered TypeDecl.shown_sublist

/-- No position is listed twice. -/
theorem shownDecls_nodup (units : List CompilationUnit) : (shownDecls units).Nodup := by
  have hsorted := (fills_placedDecls units).sorted.sublist (shownDecls_sublist units)
  refine hsorted.imp fun h heq => ?_
  rw [heq] at h
  exact Comes.irrefl _ h

/-- A member type is not inside the body of a constant if what is around it is not. -/
theorem not_inBody_member {unit k : Nat} {path : List Nat} {c : TypeDecl}
    (htree : treeAt units unit path = some d) (hk : d.members[k]? = some (.type c))
    (hbody : ¬InBody units unit path) : ¬InBody units unit (path ++ [k]) := by
  rw [inBody_below, bodyAt_below htree hk, not_or]
  refine ⟨hbody, ?_⟩
  rintro ⟨_, _, _, ⟨⟩⟩

/-- **What can be reached** stands at its position, and not inside the body of a constant. -/
theorem Reachable.placed (h : Reachable units x) : ∃ unit path, x.1 = unit :: path ∧
    treeAt units unit path = some x.2 ∧ ¬InBody units unit path := by
  obtain ⟨top, htop, hreach⟩ := h
  induction hreach with
  | refl =>
    obtain ⟨unit, u, k, hu, hd, hplace⟩ := mem_topDecls.1 htop
    exact ⟨unit, [k], hplace, treeAt_eq_some.2 ⟨k, [], u, _, rfl, hu, hd, rfl⟩, not_inBody_top k⟩
  | tail _ hin ih =>
    obtain ⟨unit, path, hplace, htree, hbody⟩ := ih
    obtain ⟨k, hk, hm, -⟩ := hin
    refine ⟨unit, path ++ [k], by rw [hk, hplace, List.cons_append], ?_,
      not_inBody_member htree hm hbody⟩
    rw [treeAt_below htree, hm]
    rfl

end Shown

/-! ### What is hidden -/

section Hidden

variable (units : List CompilationUnit) (unit : Nat) (path : List Nat)

/-- The declaration at a position is a private member type. -/
def PrivateAt : Prop :=
  ∃ around m tree d, path = around ++ [m] ∧ treeAt units unit around = some tree ∧
    tree.members[m]? = some (.type d) ∧ d.hasModifier .privateAccess = true

/-- The declaration at a position is a private member type, or lies inside one. -/
def Hidden : Prop := ∃ q ∈ path.inits, PrivateAt units unit q

end Hidden

section Hidden

variable {units : List CompilationUnit} {unit k : Nat} {path : List Nat} {tree c : TypeDecl}

theorem hidden_below :
    Hidden units unit (path ++ [k]) ↔ Hidden units unit path ∨ PrivateAt units unit (path ++ [k]) := by
  simp only [Hidden, inits_below, List.mem_append, List.mem_singleton, or_and_right, exists_or,
    exists_eq_left]

theorem privateAt_below (htree : treeAt units unit path = some tree)
    (hk : tree.members[k]? = some (.type c)) :
    PrivateAt units unit (path ++ [k]) ↔ c.hasModifier .privateAccess = true := by
  constructor
  · rintro ⟨around, m, tree', d, hpath, htree', hm, hprivate⟩
    obtain ⟨rfl, hlast⟩ := List.append_inj' hpath rfl
    cases hlast
    cases htree.symm.trans htree'
    cases hk.symm.trans hm
    exact hprivate
  · exact fun hprivate => ⟨path, k, tree, c, rfl, htree, hk, hprivate⟩

theorem not_hidden_top (k : Nat) : ¬Hidden units unit [k] := by
  rintro ⟨q, hq, around, m, tree, d, rfl, htree, -⟩
  have hnil : around = [] := by simpa using ((List.mem_inits _ _).1 hq).length_le
  subst hnil
  cases htree

/-- What can be reached is not hidden. -/
theorem Reachable.not_hidden {x : List Nat × TypeDecl} (h : Reachable units x) :
    ∃ unit path, x.1 = unit :: path ∧ treeAt units unit path = some x.2 ∧
      ¬Hidden units unit path := by
  obtain ⟨top, htop, hreach⟩ := h
  induction hreach with
  | refl =>
    obtain ⟨unit, u, k, hu, hd, hplace⟩ := mem_topDecls.1 htop
    exact ⟨unit, [k], hplace, treeAt_eq_some.2 ⟨k, [], u, _, rfl, hu, hd, rfl⟩, not_hidden_top k⟩
  | tail _ hin ih =>
    obtain ⟨unit, path, hplace, htree, hhidden⟩ := ih
    obtain ⟨k, hk, hm, hpublic⟩ := hin
    refine ⟨unit, path ++ [k], by rw [hk, hplace, List.cons_append], ?_, ?_⟩
    · rw [treeAt_below htree, hm]
      rfl
    · rw [hidden_below, privateAt_below htree hm, hpublic]
      exact fun h => h.elim hhidden nofun

/-- **A declaration can be reached** unless it is hidden or inside the body of a constant. -/
theorem reachable_iff (htree : treeAt units unit path = some tree) :
    Reachable units (unit :: path, tree) ↔
      ¬InBody units unit path ∧ ¬Hidden units unit path := by
  constructor
  · intro h
    obtain ⟨unit', path', hplace, -, hbody⟩ := h.placed
    obtain ⟨unit'', path'', hplace', -, hhidden⟩ := h.not_hidden
    cases hplace
    cases hplace'
    exact ⟨hbody, hhidden⟩
  · rintro ⟨hbody, hhidden⟩
    -- Along the path: what is around a declaration can be reached if the declaration can.
    induction path using List.reverseRecOn generalizing tree with
    | nil => cases htree
    | append_singleton path k ih =>
      by_cases hpath : path = []
      · subst hpath
        obtain ⟨_, _, u, top, hk, hu, htop, hfollow⟩ := treeAt_eq_some.1 htree
        cases hk
        cases hfollow
        exact ⟨_, mem_topDecls.2 ⟨unit, u, k, hu, htop, rfl⟩, .refl⟩
      · obtain ⟨around, m, haround, hm, hd⟩ := exists_around htree hpath
        rw [inBody_below, bodyAt_below haround hm, not_or] at hbody
        rw [hidden_below, not_or] at hhidden
        obtain ⟨top, htop, hreach⟩ := ih haround hbody.1 hhidden.1
        refine ⟨top, htop, hreach.tail ⟨k, rfl, ?_⟩⟩
        cases m with
        | field f => cases hd
        | constant n body sp => exact absurd ⟨n, body, sp, rfl⟩ hbody.2
        | type c =>
          cases hd
          refine ⟨hm, Bool.eq_false_iff.2 fun hprivate => hhidden.2 ?_⟩
          exact (privateAt_below haround hm).2 hprivate

end Hidden

/-! ### Names -/

theorem DeclIndex.Settled.le {units : List CompilationUnit} {base t u : NameTable} {x : DeclIndex}
    (h : x.Settled units base t) (hle : t.Le u) : x.Settled units base u where
  sound := h.sound.le hle
  entered := h.entered
  orderly := h.orderly.le hle
  complete := h.complete
  top := h.top

/-- The names that make up a canonical name are those of the batch. -/
theorem segments_issued {units : List CompilationUnit} {base : NameTable} {clean : Prop}
    (hs : ∀ u ∈ units, u.Sound base clean) (unit : Nat) (path : List Nat) :
    ∀ n ∈ packageSegments units unit ++ namesAt units unit path, base.Issued n := by
  intro n hn
  rcases List.mem_append.1 hn with hn | hn
  · unfold packageSegments at hn
    cases hp : (units[unit]?).bind CompilationUnit.package with
    | none =>
      rw [hp] at hn
      cases hn
    | some p =>
      rw [hp] at hn
      obtain ⟨u, hu, hp⟩ := Option.bind_eq_some_iff.1 hp
      exact ((hs u (List.mem_of_getElem? hu)).package p hp n hn).1
  · obtain ⟨q, -, hq⟩ := List.mem_filterMap.1 hn
    obtain ⟨d, hd, hname⟩ := Option.bind_eq_some_iff.1 hq
    obtain ⟨k, rest, u, top, -, hu, htop, hfollow⟩ := treeAt_eq_some.1 hd
    have hsound := (hs u (List.mem_of_getElem? hu)).types top (List.mem_of_getElem? htop)
    exact ((hsound.follow? hfollow).head.name n hname).1

namespace World

/-- The canonical name that belongs to a position. -/
def canonicalName (w : World) : List Nat → String
  | [] => ""
  | unit :: path =>
    ".".intercalate ((packageSegments w.units unit ++ namesAt w.units unit path).map w.text)

/-- **The index of a world is that of its batch, and no declaration is a duplicate.** The table `base`
    is the one that the batch was read with. -/
structure Distinct (w : World) (base : NameTable) : Prop where
  settled : w.index.Settled w.units base w.names
  trees : ∀ u ∈ w.units, u.Sound base False
  names : base.Le w.names
  unique : w.index.duplicates = []

section Client

variable {token : SessionToken} {files : Batch} {provider : Provider} {config : ModelConfig}

/-- The index of the world of a client records all of the batch. -/
theorem settled_of_client :
    let w : World := Client.world token files provider config
    w.index.Settled w.units (parseBatch files).2.1 w.names :=
  (DeclIndex.settled_ofUnits (Client.trees_world token files provider config)
    (parseBatch_fields files).1).le (Client.names_world token files provider config)

/-- The names of the batch are names of the world of a client. -/
theorem names_of_client :
    (parseBatch files).2.1.Le (Client.world token files provider config).names :=
  (DeclIndex.sound_ofUnits (Client.trees_world token files provider config)).1.trans
    (Client.names_world token files provider config)

/-- The world of a client of a batch without duplicates. -/
theorem distinct_of_client
    (h : (Client.start token files provider config).session.index.duplicates = []) :
    (Client.world token files provider config).Distinct (parseBatch files).2.1 where
  settled := settled_of_client
  trees := Client.trees_world token files provider config
  names := names_of_client
  unique := h

end Client

namespace Distinct

variable {w : World} {base : NameTable} {d e : DeclId} {i : DeclInfo} {unit : Nat}
  {path : List Nat} {tree : TypeDecl}

/-- Every declaration has an element of its own. -/
theorem primary (h : w.Distinct base) (hi : w.index.get? d = some i) : w.index.Primary d := by
  -- From the outermost declaration on: the parent has an earlier number.
  induction d using Nat.strongRecOn generalizing i with
  | ind d ih =>
    cases hname : i.qualifiedName.name? with
    | some n =>
      have hnamed : i.qualifiedName = .named n := by
        cases hq : i.qualifiedName <;> rw [hq] at hname <;> cases hname
        rfl
      have hknown := DeclIndex.known?_of_get? hi
      refine .named hi hname ((h.settled.find?_iff hknown hnamed).2 ⟨?_, ?_⟩)
      · refine (h.settled.reached_iff hknown hnamed).2 ?_
        rw [h.unique]
        exact List.forall_mem_nil _
      · rw [h.unique]
        exact List.forall_mem_nil _
    | none =>
      refine .nameless hi hname fun p hp => ?_
      obtain ⟨hlt, hknown⟩ := (h.settled.sound.infos d i hi).parent p hp
      obtain ⟨j, hj⟩ := DeclIndex.info_of_known? hknown
      exact ih p hlt hj

/-- A declaration that is not inside the body of a constant has the name that belongs to its
    position, and is found by it. -/
theorem exists_name (h : w.Distinct base)
    (hd : w.index.placed? w.units d = some (unit :: path, tree))
    (hbody : ¬InBody w.units unit path) : ∃ n, w.index.keyOf d = .type n ∧
      w.names.resolve? n = some (w.canonicalName (unit :: path)) ∧ w.index.find? n = some d := by
  obtain ⟨i, hi, hpos, -⟩ := DeclIndex.placed?_eq_some.1 hd
  obtain ⟨rfl, rfl⟩ : i.unit = unit ∧ i.path = path := List.cons.inj hpos
  obtain ⟨n, hn, hjoins⟩ := h.settled.exists_name hi hbody
  obtain ⟨j, hj, rfl⟩ := DeclIndex.exists_get? hi
  have hkey : w.index.keyOf d = .type n := by
    rw [DeclIndex.keyOf_eq hj, DeclInfo.key, show j.qualifiedName = .named n from hn]
    rfl
  -- The segments are names of the batch, which keep their texts.
  have htexts : (packageSegments w.units j.unit ++ namesAt w.units j.unit j.path).map base.text =
      (packageSegments w.units j.unit ++ namesAt w.units j.unit j.path).map w.text :=
    List.map_congr_left fun m hm => (NameTable.text_le (segments_issued h.trees _ _ m hm)
      h.names).symm
  refine ⟨n, hkey, ?_, ?_⟩
  · rw [hjoins.2]
    exact congrArg (fun texts => some (".".intercalate texts)) htexts
  · cases h.primary hj with
    | named hk hname hfirst =>
      cases hj.symm.trans hk
      rw [show j.qualifiedName = .named n from hn] at hname
      cases hname
      exact hfirst
    | nameless hk hname =>
      cases hj.symm.trans hk
      rw [show j.qualifiedName = .named n from hn] at hname
      cases hname

theorem symbolOf_eq (h : w.Distinct base)
    (hd : w.index.placed? w.units d = some (unit :: path, tree))
    (hbody : ¬InBody w.units unit path) :
    w.symbolOf d = .type (w.canonicalName (unit :: path)) := by
  obtain ⟨n, hkey, hn, -⟩ := h.exists_name hd hbody
  rw [symbolOf, hkey]
  exact congrArg Symbol.type (NameTable.text_eq hn)

/-- The declaration at a position has a number. -/
theorem exists_placed (h : w.Distinct base) (htree : treeAt w.units unit path = some tree) :
    ∃ d, w.index.placed? w.units d = some (unit :: path, tree) := by
  obtain ⟨d, i, hi, hpos⟩ := h.settled.exists_number htree
  refine ⟨d, DeclIndex.placed?_eq_some.2 ⟨i, hi, hpos, ?_⟩⟩
  obtain ⟨rfl, rfl⟩ : i.unit = unit ∧ i.path = path := List.cons.inj hpos
  exact htree

/-- **Names tell declarations apart** that are not inside bodies of constants. -/
theorem canonicalName_inj (h : w.Distinct base) {unit' : Nat} {path' : List Nat} {tree' : TypeDecl}
    (htree : treeAt w.units unit path = some tree)
    (htree' : treeAt w.units unit' path' = some tree') (hbody : ¬InBody w.units unit path)
    (hbody' : ¬InBody w.units unit' path')
    (heq : w.canonicalName (unit :: path) = w.canonicalName (unit' :: path')) :
    (unit :: path, tree) = (unit' :: path', tree') := by
  obtain ⟨d, hd⟩ := h.exists_placed htree
  obtain ⟨e, he⟩ := h.exists_placed htree'
  obtain ⟨n, -, hn, hfind⟩ := h.exists_name hd hbody
  obtain ⟨m, -, hm, hfind'⟩ := h.exists_name he hbody'
  obtain rfl := NameTable.resolve?_inj hn (heq ▸ hm)
  rw [hfind] at hfind'
  cases hfind'
  rw [hd] at he
  exact Option.some.inj he

end Distinct

end World

end JavaAbi
