import Mathlib.Data.List.Nodup
import JavaAbi.Proofs.Enclosure
import JavaAbi.Proofs.ExtractedReports

namespace JavaAbi

/-!
# Lists of elements without repetition

The types of a batch, and those of a package, are collected each once, whatever is declared twice.
The members of a declaration are listed one by one as they are written: two member types of one name
have one element, and that is in the list twice. Variables, constants and member types without a
canonical name have elements of their own.

* `TypeDecl.memberTypeNames` — the names of the member types of a declaration;
* `World.Indexed.keyOf_member_eq_iff` — when two member types have one key;
* `World.Indexed.nodup_allMemberKeys_iff` — when the keys of all members are distinct;
* `Client.listed_once` — where the answers to a client have no element twice;
* `Client.member_type_listed_twice` — and where one has.
-/

open Course Stage

/-- The name of a member type. -/
def Member.typeName? : Member → Option Name
  | .type d => d.head.name
  | _ => none

/-- The names of the member types of a declaration, as often as they are declared. -/
def TypeDecl.memberTypeNames (d : TypeDecl) : List Name := d.members.filterMap Member.typeName?

theorem Member.mem_typeNames {ms : List Member} {a : Name} :
    a ∈ ms.filterMap typeName? ↔ ∃ t, .type t ∈ ms ∧ t.head.name = some a := by
  rw [List.mem_filterMap]
  constructor
  · rintro ⟨m, hm, ha⟩
    cases m with
    | type t => exact ⟨t, hm, ha⟩
    | field | constant => cases ha
  · rintro ⟨t, ht, ha⟩
    exact ⟨_, ht, ha⟩

/-! ### Keys of members -/

/-- Two texts are the same if they are so after the same segments. -/
theorem NameTable.Joins.eq_iff {t base : NameTable} {segments : List Name} {m n n' a b : Name}
    (h : t.Joins base segments m) (hn : t.Joins base (segments ++ [a]) n)
    (hn' : t.Joins base (segments ++ [b]) n') : n = n' ↔ base.text a = base.text b := by
  have hjoined : ∀ c, ".".intercalate ((segments ++ [c]).map base.text) =
      ".".intercalate (segments.map base.text) ++ "." ++ base.text c := fun c => by
    rw [List.map_append, List.map_singleton, ← joined_intercalate h.1, NameTable.joined, if_neg h.1]
  have hsome := hn.2
  have hsome' := hn'.2
  rw [hjoined] at hsome hsome'
  constructor
  · rintro rfl
    exact String.append_right_inj _ |>.1 (Option.some.inj (hsome.symm.trans hsome'))
  · intro heq
    rw [heq] at hsome
    exact NameTable.resolve?_inj hsome hsome'

namespace World.Indexed

variable {w : World} {base : NameTable} {d c c' : DeclId} {i : DeclInfo} {m m' : Nat}
  {tree t t' : TypeDecl}

/-- **Two member types have one key** if they have one name, and there are canonical names where they
    stand. -/
theorem keyOf_member_eq_iff (hw : w.Indexed base) (hi : w.index.get? d = some i)
    (htree : w.index.tree? w.units d = some tree) (hm : tree.members[m]? = some (.type t))
    (hm' : tree.members[m']? = some (.type t')) (hc : w.index.child? d m = some c)
    (hc' : w.index.child? d m' = some c') (hne : m ≠ m') :
    w.index.keyOf c = w.index.keyOf c' ↔
      i.qualifiedName.name?.isSome ∧ t.head.name = t'.head.name := by
  -- Both have canonical names, or neither has one, as the declaration around them has one or not.
  rcases hw.keyOf_member hi htree hm hc with
    ⟨hname, hkey, -⟩ | ⟨n, o, a, hname, hkey, ha, hproper, hjoins, hjoined⟩ <;>
  rcases hw.keyOf_member hi htree hm' hc' with
    ⟨hname', hkey', -⟩ | ⟨n', o', b, hname', hkey', hb, hproper', -, hjoined'⟩
  · -- A declaration stands at one member only.
    refine iff_of_false (fun heq => ?_) fun h => ?_
    · rw [hkey, hkey'] at heq
      cases heq
      obtain ⟨j, hj, hpos⟩ := (hw.settled.child?_eq_some (DeclIndex.known?_of_get? hi)).1 hc
      obtain ⟨j', hj', hpos'⟩ := (hw.settled.child?_eq_some (DeclIndex.known?_of_get? hi)).1 hc'
      cases hj.symm.trans hj'
      exact hne (List.cons.inj (List.append_cancel_left (hpos.symm.trans hpos'))).1
    · rw [hname] at h
      exact absurd h.1 Bool.false_ne_true
  · cases hname.symm.trans hname'
  · cases hname.symm.trans hname'
  · rw [hkey, hkey', ha, hb, hname, ElementKey.type.injEq, hjoins.eq_iff hjoined hjoined',
      Option.some.injEq]
    exact ⟨fun heq => ⟨rfl, NameTable.eq_of_text_eq hproper.1 hproper'.1 heq⟩, fun h => h.2 ▸ rfl⟩

/-- A member type has a number of its own. -/
theorem exists_child (hw : w.Indexed base) (hi : w.index.get? d = some i)
    (htree : w.index.tree? w.units d = some tree) (hm : tree.members[m]? = some (.type t)) :
    ∃ c, w.index.child? d m = some c := by
  have hknown := DeclIndex.known?_of_get? hi
  rw [DeclIndex.tree?_of_known? hknown] at htree
  obtain ⟨c, -, hc, -⟩ := hw.settled.exists_child hknown htree hm rfl
  exact ⟨c, hc⟩

/-- Members that are no types are not listed again further on. -/
theorem not_mem_allMemberKeys {k : Nat} {rest : List Member} {key : ElementKey}
    (hkey : (∃ number, key = .field d k number) ∨ key = .constant d k) :
    key ∉ w.index.allMemberKeys d (k + 1) rest := by
  intro hmem
  obtain ⟨j, m, -, hlater⟩ := DeclIndex.mem_allMemberKeys.1 hmem
  have hne : k ≠ k + 1 + j := by omega
  cases m with
  | type t =>
    obtain ⟨c, -, rfl⟩ := Option.map_eq_some_iff.1 (Option.mem_toList.1 hlater)
    have hisType := w.index.keyOf_isType c
    obtain ⟨number, heq⟩ | heq := hkey <;> rw [heq] at hisType <;> exact hisType
  | field f =>
    obtain ⟨v, -, rfl⟩ := List.mem_map.1 hlater
    obtain ⟨number, heq⟩ | heq := hkey
    · exact hne (ElementKey.field.inj heq).2.1.symm
    · cases heq
  | constant n body sp =>
    obtain rfl := List.mem_singleton.1 hlater
    obtain ⟨number, heq⟩ | heq := hkey
    · cases heq
    · exact hne (ElementKey.constant.inj heq).2.symm

/-- A member type is listed again further on if another one has its name. -/
theorem mem_allMemberKeys_iff (hw : w.Indexed base) (hi : w.index.get? d = some i)
    (htree : w.index.tree? w.units d = some tree) {k : Nat} {rest : List Member}
    (hrest : ∀ j, rest[j]? = tree.members[k + 1 + j]?) (hm : tree.members[k]? = some (.type t))
    (hc : w.index.child? d k = some c) :
    w.index.keyOf c ∈ w.index.allMemberKeys d (k + 1) rest ↔
      i.qualifiedName.name?.isSome ∧ ∃ t', .type t' ∈ rest ∧ t.head.name = t'.head.name := by
  have hisType := w.index.keyOf_isType c
  rw [DeclIndex.mem_allMemberKeys]
  constructor
  · rintro ⟨j, m, hj, hkey⟩
    cases m with
    | type t' =>
      obtain ⟨c', hc', heq⟩ := Option.map_eq_some_iff.1 (Option.mem_toList.1 hkey)
      obtain ⟨hname, hsame⟩ := (hw.keyOf_member_eq_iff hi htree hm (hrest j ▸ hj) hc hc'
        (by omega)).1 heq.symm
      exact ⟨hname, t', List.mem_of_getElem? hj, hsame⟩
    -- The keys of fields and constants are not those of types.
    | field f =>
      obtain ⟨v, -, heq⟩ := List.mem_map.1 hkey
      rw [← heq] at hisType
      exact hisType.elim
    | constant n body sp =>
      rw [List.mem_singleton.1 hkey] at hisType
      exact hisType.elim
  · rintro ⟨hname, t', ht', hsame⟩
    obtain ⟨j, hj⟩ := List.getElem?_of_mem ht'
    obtain ⟨c', hc'⟩ := hw.exists_child hi htree (hrest j ▸ hj)
    refine ⟨j, .type t', hj, Option.mem_toList.2 (Option.map_eq_some_iff.2 ⟨c', hc', ?_⟩)⟩
    exact ((hw.keyOf_member_eq_iff hi htree hm (hrest j ▸ hj) hc hc' (by omega)).2
      ⟨hname, hsame⟩).symm

/-- **The keys of members are distinct** if the member types have distinct names, and without
    canonical names in any case. -/
theorem nodup_allMemberKeys_iff (hw : w.Indexed base) (hi : w.index.get? d = some i)
    (htree : w.index.tree? w.units d = some tree) :
    (w.index.allMemberKeys d 0 tree.members).Nodup ↔
      i.qualifiedName.name? = none ∨ tree.memberTypeNames.Nodup := by
  -- By induction on the members that are left; `k` is the number of the first of them.
  suffices h : ∀ (rest : List Member) (k : Nat), (∀ j, rest[j]? = tree.members[k + j]?) →
      ((w.index.allMemberKeys d k rest).Nodup ↔
        i.qualifiedName.name? = none ∨ (rest.filterMap Member.typeName?).Nodup) from
    h tree.members 0 fun j => by rw [Nat.zero_add]
  intro rest
  induction rest with
  | nil => exact fun k _ => iff_of_true .nil (.inr .nil)
  | cons m rest ih =>
    intro k hk
    have hm : tree.members[k]? = some m := (hk 0).symm
    have hlater : ∀ j, rest[j]? = tree.members[k + 1 + j]? := fun j => by
      rw [Nat.add_assoc, Nat.add_comm 1 j]
      exact hk (j + 1)
    have hrest := ih (k + 1) hlater
    rw [DeclIndex.allMemberKeys, List.nodup_append']
    cases m with
    | field f =>
      rw [List.filterMap_cons_none rfl, ← hrest]
      refine ⟨fun h => h.2.1, fun h => ⟨?_, h, fun key hkey => ?_⟩⟩
      · exact List.nodup_range.map fun a b hab => (ElementKey.field.inj hab).2.2
      · obtain ⟨v, -, rfl⟩ := List.mem_map.1 hkey
        exact not_mem_allMemberKeys (.inl ⟨v, rfl⟩)
    | constant n body sp =>
      rw [List.filterMap_cons_none rfl, ← hrest]
      refine ⟨fun h => h.2.1, fun h => ⟨List.nodup_singleton _, h, fun key hkey => ?_⟩⟩
      obtain rfl := List.mem_singleton.1 hkey
      exact not_mem_allMemberKeys (.inr rfl)
    | type t =>
      obtain ⟨c, hc⟩ := hw.exists_child hi htree hm
      have hagain := hw.mem_allMemberKeys_iff hi htree hlater hm hc
      rw [DeclIndex.memberKeys, hc, Option.map_some, Option.toList_some, List.singleton_disjoint,
        hagain, hrest]
      rcases hw.keyOf_member hi htree hm hc with ⟨hname, -⟩ | ⟨n, o, a, hname, -, ha, -⟩
      · rw [hname]
        refine iff_of_true ⟨List.nodup_singleton _, .inl rfl, fun h => ?_⟩ (.inl rfl)
        exact Bool.false_ne_true h.1
      · have hfirst : (Member.type t).typeName? = some a := ha
        have hlater : (∃ t', .type t' ∈ rest ∧ t.head.name = t'.head.name) ↔
            a ∈ rest.filterMap Member.typeName? := by
          simp only [Member.mem_typeNames, ha, eq_comm]
        rw [hname, List.filterMap_cons_some hfirst, List.nodup_cons, hlater]
        simp [QualifiedName.name?, and_comm]

end World.Indexed

/-! ### Lists of elements -/

section Elements

variable {w : World} {s : Session}

/-- Elements are distinct if their keys are. -/
theorem Session.Sound.nodup_iff (hs : s.Sound) {ids : List ElementId} {keys : List ElementKey}
    (h : List.Forall₂ (fun id key => s.Denotes key id) ids keys) : ids.Nodup ↔ keys.Nodup :=
  List.rel_nodup (r := fun id key => s.Denotes key id)
    ⟨fun _ _ _ hd hd' => hd.functional hd', fun id _ _ hd hd' => hs.unique _ _ id hd hd'⟩ h

/-- **The types of a batch** are collected each once. -/
theorem topLevelTypes_distinct :
    (asking w).Answers s topLevelTypes fun r _ => ∃ ids, r = .ok ids ∧ ids.Nodup :=
  .sound fun hs => .read fun _ => Ends.mono
    (distinctElements_collects hs.resolved.quiet hs.resolved.sound.index.topLevel
      (.nil s)).resolving.asking
    fun _ _ _ _ ⟨ids, hr, hids⟩ => ⟨ids, hr, hids.distinct⟩

/-- The types of a package are collected each once. -/
theorem Session.EnclosedAs.nodup_package {outer : Element} {e : ElementId} {ids : List ElementId}
    (hs : s.Sound) (he : s.elements.get? e = some outer) (hkind : outer.kind = .package)
    (h : s.EnclosedAs outer (.ok ids)) : ids.Nodup := by
  obtain ⟨n, -, hsource, -⟩ := hs.package_of_kind he hkind
  obtain ⟨_, ⟨⟩, -, -, hpackage⟩ := h
  exact (hpackage hsource).distinct

/-- The members of a declaration are listed as they are written. -/
theorem Session.EnclosedAs.nodup_members {base : NameTable} {t : Session} (hw : w.Indexed base)
    (hs : s.Of w) (ht : t.Sound) {d : DeclId} {i : DeclInfo} {tree : TypeDecl} {outer : Element}
    {e : ElementId} {ids : List ElementId} (hmade : s.IsTree e d i tree outer)
    (h : t.EnclosedAs outer (.ok ids)) :
    ids.Nodup ↔ outer.qualifiedName.name? = none ∨ tree.memberTypeNames.Nodup := by
  obtain ⟨_, ⟨⟩, -, hmembers, -⟩ := h
  have hkeys := hmembers _ hmade.source
  rw [show (s.shapeOf d i tree).members = w.index.allMemberKeys d 0 tree.members by
    rw [Session.shapeOf, hs.index]] at hkeys
  rw [ht.nodup_iff hkeys, hmade.qualifiedName]
  exact hw.nodup_allMemberKeys_iff (hmade.info_world hs) (hmade.tree_world hs)

end Elements

/-! ### Clients -/

namespace Client

variable (token : SessionToken) (files : Batch) (provider : Provider) (config : ModelConfig)
  (questions : List Question)

/-- **No element is listed twice**, but for types that are declared twice in one declaration. Whatever
    was asked before: the types of the batch and the types of a package are listed once each; what a
    declaration with a canonical name encloses is listed once each just in case its member types have
    distinct names, and what one without a canonical name encloses is so in any case. -/
theorem listed_once :
    let c : Client := (start token files provider config).askAll questions
    (∃ ids after, c.ask .topLevelTypes = (.elements ids, after) ∧ ids.Nodup) ∧
    (∀ e outer, c.session.elements.get? e = some outer → outer.kind = .package →
      ∃ ids after, c.ask (.enclosed e) = (.elements ids, after) ∧ ids.Nodup) ∧
    ∀ e outer, c.session.elements.get? e = some outer → outer.kind.isType → outer.origin = .tree →
      ∃ d i tree ids after, c.session.IsTree e d i tree outer ∧
        c.ask (.enclosed e) = (.elements ids, after) ∧
        (ids.Nodup ↔ outer.qualifiedName.name? = none ∨ tree.memberTypeNames.Nodup) := by
  intro c
  have hfits : c.Fits _ := fits_asked token files provider config questions
  have hs := hfits.idle.resolved.sound
  refine ⟨?_, fun e outer he hkind => ?_, fun e outer he htype horigin => ?_⟩
  · obtain ⟨ids, t, hask, -, -, hids⟩ := ask_elements .topLevelTypes rfl hfits topLevelTypes_distinct
    exact ⟨ids, _, hask, hids⟩
  · obtain ⟨ids, t, hask, ht, hg, hids⟩ := ask_enclosed hfits he
    obtain ⟨outer', he', hbare⟩ := hg.elements e outer he
    have hkind' : outer'.kind = .package := (congrArg Element.kind hbare).trans hkind
    exact ⟨ids, _, hask, (hids.of_bare hbare).nodup_package ht.resolved.sound he' hkind'⟩
  · obtain ⟨ids, t, hask, ht, hg, hids⟩ := ask_enclosed hfits he
    obtain ⟨d, hbelongs⟩ := hs.belongs he horigin
    cases hbelongs with
    | @part owner made =>
      -- A field or a constant is no type.
      rcases made.kind with hk | hk <;> rw [hk] at htype <;> cases htype
    | @decl i tree denotes made =>
      exact ⟨d, i, tree, ids, _, made, hask, hids.nodup_members World.indexed_of_client
        hfits.idle.resolved.of ht.resolved.sound made⟩

/-- A class that two files declare, with two member types of different names. -/
def declaredTwice : Batch :=
  #[⟨"A.java", "package p; class A { class B {} int x; class C {} }"⟩,
    ⟨"B.java", "package p; class A {} class D {}"⟩]

/-- The class is listed once among the types of the batch and in its package, and so are its
    members. -/
theorem listed_once_declaredTwice :
    let c : Client := (start 0 declaredTwice onlyObject {}).askAll [.lookupType "p.A"]
    (∃ ids after, c.ask .topLevelTypes = (.elements ids, after) ∧ ids = [1, 2] ∧ ids.Nodup) ∧
      (∃ ids after, c.ask (.enclosed 0) = (.elements ids, after) ∧ ids = [1, 2] ∧ ids.Nodup) ∧
      ∃ outer d i tree ids after, c.session.elements.get? 1 = some outer ∧
        c.session.IsTree 1 d i tree outer ∧ c.ask (.enclosed 1) = (.elements ids, after) ∧
        ids = [2, 3, 4] ∧ tree.memberTypeNames.Nodup := by
  intro c
  obtain ⟨⟨top, _, htop, hdistinct⟩, hpackage, htypes⟩ :=
    listed_once 0 declaredTwice onlyObject {} [.lookupType "p.A"]
  have hkinds : (c.session.elements.get? 0).any (fun e => e.kind = .package) ∧
      (c.session.elements.get? 1).any (fun e =>
        e.kind.isType && e.origin = .tree && e.qualifiedName.name?.isSome) := by
    decide +kernel
  obtain ⟨p, hp, hkind⟩ := (Option.any_eq_true _ _).1 hkinds.1
  obtain ⟨outer, hget, houter⟩ := (Option.any_eq_true _ _).1 hkinds.2
  obtain ⟨houter, hname⟩ := Bool.and_eq_true_iff.1 houter
  obtain ⟨htype, horigin⟩ := Bool.and_eq_true_iff.1 houter
  obtain ⟨inside, _, hinside, hinsideOnce⟩ := hpackage 0 p hp (of_decide_eq_true hkind)
  obtain ⟨d, i, tree, ids, _, hmade, hask, hiff⟩ :=
    htypes 1 outer hget htype (of_decide_eq_true horigin)
  have hnamed : (c.ask .topLevelTypes).1.named = [1, 2] ∧ (c.ask (.enclosed 0)).1.named = [1, 2] ∧
      (c.ask (.enclosed 1)).1.named = [2, 3, 4] := by
    decide +kernel
  rw [htop, hinside, hask] at hnamed
  obtain ⟨htopIds, hinsideIds, hids⟩ := hnamed
  -- the facts from the general theorem are about the client as it is written
  unfold c
  refine ⟨⟨top, _, htop, htopIds, hdistinct⟩, ⟨inside, _, hinside, hinsideIds, hinsideOnce⟩,
    outer, d, i, tree, ids, _, hget, hmade, hask, hids, ?_⟩
  have honce : ids.Nodup := by
    rw [show ids = [2, 3, 4] from hids]
    decide
  refine (hiff.1 honce).resolve_left fun hnone => ?_
  rw [hnone] at hname
  exact Bool.false_ne_true hname

/-- A class with two member types of one name. -/
def oneNameTwice : Batch := #[⟨"A.java", "package p; class A { class B {} class B {} }"⟩]

/-- **The second declaration of a member type has the element of the first**, which is listed twice. -/
theorem member_type_listed_twice :
    let c : Client := (start 0 oneNameTwice onlyObject {}).askAll [.lookupType "p.A"]
    (c.session.elements.get? 1).any (fun e => e.kind.isType && e.origin = .tree) ∧
      (c.ask (.enclosed 1)).1.named = [2, 2] := by
  decide +kernel

end Client

end JavaAbi
