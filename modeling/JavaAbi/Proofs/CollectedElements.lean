import JavaAbi.Model.Query
import JavaAbi.Proofs.Construction

namespace JavaAbi

/-!
# Elements of top-level declarations

The types of a batch, or those of one package, are gone through in the order in which they are
declared. Their elements are collected without repetition: a declaration of a name that is taken has
the element of the first one.

* `DeclIndex.inPackage` — the top-level declarations in a package;
* `Session.Collects` — elements that are those of some declarations, each once;
* `distinctElements_collects` — so the elements of top-level declarations are collected.
-/

open Course

variable {s t : Session} {id : ElementId}

/-- Declarations are no packages. -/
theorem DeclIndex.keyOf_ne_package (x : DeclIndex) (d : DeclId) {n : Name} :
    x.keyOf d ≠ .package n := by
  intro h
  have hkey := x.keyOf_isType d
  rw [h] at hkey
  exact hkey

/-- The elements of packages are known by what they are made of. -/
theorem Session.Sound.source_eq_package_iff {e : Element} {key : ElementKey} (hs : s.Sound)
    (hd : s.Denotes key id) (he : s.elements.get? id = some e) :
    e.source = .package ↔ ∃ n, key = .package n := by
  obtain ⟨e', he', hdesc, -⟩ := hs.element key id hd
  cases he.symm.trans he'
  have hbare : e.source = e.bare.source := rfl
  rw [hbare]
  generalize e.bare = b at hdesc
  cases hdesc with
  | package => exact ⟨fun _ => ⟨_, rfl⟩, fun _ => rfl⟩
  | tree =>
    constructor
    · intro h
      cases h
    · rintro ⟨n, hn⟩
      rw [DeclInfo.key] at hn
      split at hn <;> cases hn
  | field | constant | described =>
    constructor
    · intro h
      cases h
    · rintro ⟨n, hn⟩
      cases hn

/-! ### Declarations in packages -/

/-- The top-level declarations of a batch in a package. -/
def DeclIndex.inPackage (x : DeclIndex) (p : Option Name) : List DeclId :=
  x.topLevel.filter fun d => (x.get? d).any fun i => x.package? i.unit = p

theorem DeclIndex.mem_inPackage {x : DeclIndex} {p : Option Name} {d : DeclId} :
    d ∈ x.inPackage p ↔ d ∈ x.topLevel ∧ ∃ i, x.get? d = some i ∧ x.package? i.unit = p := by
  rw [inPackage, List.mem_filter, Option.any_eq_true]
  simp only [decide_eq_true_eq]

/-- They are found by the files of the declarations. -/
theorem reads_inPackage (hs : s.Sound) (p : Option Name) :
    Reads s (s.index.topLevel.filterM fun d =>
      return s.index.package? (← declAt d).unit = p : Query _).run (.ok (s.index.inPackage p)) := by
  refine Reads.filterM fun d hd => ?_
  obtain ⟨i, hi⟩ := DeclIndex.info_of_childOf (hs.index.topLevel d hd)
  rw [hi]
  exact (reads_declAt hi).query (.pure s _)

/-! ### Elements of declarations -/

/-- The elements of some declarations, each once. -/
structure Session.Collects (s : Session) (ds : List DeclId) (ids : List ElementId) : Prop where
  distinct : ids.Nodup
  of : ∀ id ∈ ids, ∃ d ∈ ds, s.Denotes (s.index.keyOf d) id
  all : ∀ d ∈ ds, ∃ id ∈ ids, s.Denotes (s.index.keyOf d) id

theorem Session.Collects.nil (s : Session) : s.Collects [] [] :=
  ⟨.nil, fun _ h => absurd h List.not_mem_nil, fun _ h => absurd h List.not_mem_nil⟩

theorem Session.Collects.grow {ds : List DeclId} {ids : List ElementId} (h : s.Collects ds ids)
    (hk : s.Keeps t) : t.Collects ds ids where
  distinct := h.distinct
  of id hid := by
    obtain ⟨d, hd, hden⟩ := h.of id hid
    exact ⟨d, hd, hk.index ▸ hden.grow hk⟩
  all d hd := by
    obtain ⟨id, hid, hden⟩ := h.all d hd
    exact ⟨id, hid, hk.index ▸ hden.grow hk⟩

/-- The element of one more declaration, unless it is there already. -/
theorem Session.Collects.add {ds : List DeclId} {ids : List ElementId} {d : DeclId}
    (h : s.Collects ds ids) (hd : s.Denotes (s.index.keyOf d) id) :
    s.Collects (ds ++ [d]) (if ids.contains id then ids else ids ++ [id]) := by
  have hold : ∀ k ∈ ids, ∃ c ∈ ds ++ [d], s.Denotes (s.index.keyOf c) k := fun k hk => by
    obtain ⟨c, hc, hden⟩ := h.of k hk
    exact ⟨c, List.mem_append_left _ hc, hden⟩
  -- An element that is there already is that of an earlier declaration of the same name.
  by_cases hmem : id ∈ ids
  · rw [if_pos (List.contains_iff_mem.2 hmem)]
    refine ⟨h.distinct, hold, fun c hc => ?_⟩
    rcases List.mem_append.1 hc with hc | hc
    · exact h.all c hc
    · exact ⟨id, hmem, List.mem_singleton.1 hc ▸ hd⟩
  · rw [if_neg fun hc => hmem (List.contains_iff_mem.1 hc)]
    constructor
    · refine List.nodup_append.2 ⟨h.distinct, List.nodup_cons.2 ⟨List.not_mem_nil, .nil⟩,
        fun a ha b hb => ?_⟩
      rintro rfl
      exact hmem (List.mem_singleton.1 hb ▸ ha)
    · intro k hk
      rcases List.mem_append.1 hk with hk | hk
      · exact hold k hk
      · exact ⟨d, List.mem_append_right _ List.mem_cons_self, List.mem_singleton.1 hk ▸ hd⟩
    · intro c hc
      rcases List.mem_append.1 hc with hc | hc
      · obtain ⟨k, hk, hden⟩ := h.all c hc
        exact ⟨k, List.mem_append_left _ hk, hden⟩
      · exact ⟨id, List.mem_append_right _ List.mem_cons_self, List.mem_singleton.1 hc ▸ hd⟩

/-- **The elements of top-level declarations**, whatever their order. -/
theorem distinctElements_collects {before ds : List DeclId} {seen : List ElementId} (hq : s.Quiet)
    (hds : ∀ d ∈ ds, ChildOf s.index.known? s.index.find? none d) (hseen : s.Collects before seen) :
    building.Answers s (distinctElements seen ds)
      fun r t => ∃ ids, r = .ok ids ∧ t.Collects (before ++ ds) ids := by
  induction ds generalizing s before seen with
  | nil => exact .pure fun _ => ⟨seen, rfl, (List.append_nil before).symm ▸ hseen⟩
  | cons d rest ih =>
    refine .sound fun hs => ?_
    have hchild := hds d List.mem_cons_self
    obtain ⟨i, hi⟩ := DeclIndex.info_of_childOf hchild
    obtain ⟨ha, ho⟩ := Session.askable_child hs (fun _ h => by cases h) hchild
    have helement : building.Answers s (elementOfDecl d)
        fun r t => ∃ id, r = .ok id ∧ t.Denotes (s.index.keyOf d) id :=
      .reads (reads_keyOf hi) (canonical_denotes hq ha ho)
    unfold distinctElements
    -- What is known of the elements so far holds on while one more is built.
    refine helement.bind_ok fun id t _ hg hd => ?_
    rw [← hg.index] at hd
    have hrest : ∀ c ∈ rest, ChildOf t.index.known? t.index.find? none c := fun c hc => by
      rw [hg.index]
      exact hds c (List.mem_cons_of_mem _ hc)
    have hsplit := List.append_cons before d rest
    rw [hsplit]
    exact ih (hq.grow hg) hrest ((hseen.grow hg.toKeeps).add hd)

end JavaAbi
