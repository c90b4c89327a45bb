import Mathlib.Data.List.Nodup
import JavaAbi.Proofs.Clients
import JavaAbi.Proofs.TwinBatches
import JavaAbi.Proofs.TwinSessions

namespace JavaAbi

/-!
# New sessions of twin batches

Two new sessions over batches whose files correspond have learnt the same, namely nothing, and their
worlds correspond, provided that the same declarations are found by their names. That is so if the
files come in the same order, and also if no declaration is reported as a duplicate, in whatever order
the files come.

* `DeclIndex.Resembles.find?_of_order`, `find?_of_no_duplicates` — which declarations are found;
* `FileTwins.InOrder` — files in one order, with `InOrder.finds` and `InOrder.topLevel`;
* `FileTwins.twins` — the worlds correspond;
* `FileTwins.alike_start` — the new sessions have learnt the same.
-/

open Indexing

/-! ### Declarations found by name -/

/-- What is known for good of the declarations of two indexes corresponds. -/
structure DeclIndex.Resembles (t t' : NameTable) (decl : DeclId → DeclId → Prop)
    (x x' : DeclIndex) : Prop where
  known : ∀ {d d'}, decl d d' → ∃ i i', x.known? d = some i ∧ x'.known? d' = some i' ∧
    Option.Rel decl i.parent i'.parent ∧ QualifiedName.Agree t t' i.qualifiedName i'.qualifiedName
  functional : ∀ {d d' e'}, decl d d' → decl d e' → d' = e'
  injective : ∀ {d e d'}, decl d d' → decl e d' → d = e
  total : ∀ {d}, d < x.size → ∃ d', decl d d'
  onto : ∀ {d'}, d' < x'.size → ∃ d, decl d d'

namespace DeclIndex.Resembles

variable {units units' : List CompilationUnit} {t t' : NameTable} {x x' : DeclIndex}
  {decl : DeclId → DeclId → Prop} {d d' : DeclId} {n n' : Name}

theorem symm (h : x.Resembles t t' decl x') :
    x'.Resembles t' t (fun d' d => decl d d') x where
  known hd := by
    obtain ⟨i, i', hi, hi', hparent, hq⟩ := h.known hd
    refine ⟨i', i, hi', hi, ?_, ?_⟩
    · generalize i.parent = p, i'.parent = p' at hparent ⊢
      cases hparent with
      | none => exact .none
      | some hp => exact .some hp
    · generalize i.qualifiedName = q, i'.qualifiedName = q' at hq ⊢
      cases hq with
      | named hn => exact .named hn.symm
      | anonymous => exact .anonymous
      | notApplicable => exact .notApplicable
  functional := fun hd he => h.injective hd he
  injective := fun hd he => h.functional hd he
  total := h.onto
  onto := h.total

theorem lt_size (h : x.Resembles t t' decl x') (hd : decl d d') : d < x.size ∧ d' < x'.size := by
  obtain ⟨i, i', hi, hi', -⟩ := h.known hd
  exact ⟨x.lt_size_of_known? (Option.isSome_iff_exists.2 ⟨i, hi⟩),
    x'.lt_size_of_known? (Option.isSome_iff_exists.2 ⟨i', hi'⟩)⟩

/-- What is found under a name in one index has that name in the other. -/
theorem named (h : x.Resembles t t' decl x') (hx : x.Sound units t) (hd : decl d d')
    (hn : t.Agree t' n n') (hf : x.find? n = some d) :
    ∃ i', x'.known? d' = some i' ∧ i'.qualifiedName = .named n' := by
  obtain ⟨j, hj, hjn, -⟩ := hx.named n d hf
  obtain ⟨i, i', hi, hi', -, hq⟩ := h.known hd
  cases hi.symm.trans hj
  rw [hjn] at hq
  refine ⟨i', hi', ?_⟩
  generalize i'.qualifiedName = q' at hq ⊢
  cases hq with
  | named hm => rw [(hm.eq_iff hn).1 rfl]

/-- The parent of what is found is found in the other index, if finding carries over so far. -/
theorem reached (h : x.Resembles t t' decl x') (hx : x.Sound units t) (hd : decl d d')
    (hparents : ∀ p p' m m', p < d → decl p p' → t.Agree t' m m' → x.find? m = some p →
      x'.find? m' = some p') {i i' : DeclInfo} (hi : x.known? d = some i)
    (hi' : x'.known? d' = some i') (hr : Reached x.known? x.find? i.parent) :
    Reached x'.known? x'.find? i'.parent := by
  obtain ⟨j, j', hj, hj', hparent, -⟩ := h.known hd
  cases hi.symm.trans hj
  cases hi'.symm.trans hj'
  intro p' hp'
  have hrel : ∃ p ∈ i.parent, decl p p' := by
    rw [Option.mem_def.1 hp'] at hparent
    generalize i.parent = parent at hparent
    cases hparent with
    | some hp => exact ⟨_, rfl, hp⟩
  obtain ⟨p, hp, hpp⟩ := hrel
  obtain ⟨m, k, hk, hkm, hfound⟩ := hr p hp
  obtain ⟨k₁, k', hk₁, hk', -, hkq⟩ := h.known hpp
  cases hk.symm.trans hk₁
  rw [hkm] at hkq
  generalize hq' : k'.qualifiedName = q' at hkq
  cases hkq with
  | named hm => exact ⟨_, k', hk', hq', hparents p p' _ _ (hx.parent_lt hi hp) hpp hm hfound⟩

/-- A declaration that is found in one index is found in the other, unless it is a duplicate there,
    if the declarations around it are found there. -/
theorem found_or_duplicate (h : x.Resembles t t' decl x') (hx : x.Sound units t)
    (hx' : x'.Entered x'.size) (hparents : ∀ p p' m m', p < d → decl p p' → t.Agree t' m m' →
      x.find? m = some p → x'.find? m' = some p') (hd : decl d d') (hn : t.Agree t' n n')
    (hf : x.find? n = some d) : x'.find? n' = some d' ∨
      ∃ first, x'.find? n' = some first ∧ (d', first) ∈ x'.duplicates := by
  obtain ⟨i', hi', hname⟩ := h.named hx hd hn hf
  obtain ⟨i, hi, -, -, hreached⟩ := hx.named n d hf
  exact hx'.reached d' (h.lt_size hd).2 i' n' hi' hname
    (h.reached hx hd hparents hi hi' hreached)

/-- **Declarations numbered in one order** are found alike, duplicates included. -/
theorem find?_of_order (h : x.Resembles t t' decl x') (hx : x.Sound units t)
    (he : x.Entered x.size) (hx' : x'.Sound units' t') (he' : x'.Entered x'.size)
    (horder : ∀ {d d' e e'}, decl d d' → decl e e' → (d < e ↔ d' < e')) :
    ∀ d d' n n', decl d d' → t.Agree t' n n' → (x.find? n = some d ↔ x'.find? n' = some d') := by
  intro d
  induction d using Nat.strongRecOn with
  | _ d ih =>
    intro d' n n' hd hn
    constructor
    · intro hf
      rcases h.found_or_duplicate hx he' (fun p p' m m' hp hpp hm => (ih p hp p' m m' hpp hm).1)
        hd hn hf with hfound | ⟨first', hfirst, hdup⟩
      · exact hfound
      · obtain ⟨first, hff⟩ := h.onto (Nat.lt_trans (he'.earlier _ hdup).1 (h.lt_size hd).2)
        have hlt := (horder hff hd).2 (he'.earlier _ hdup).1
        -- If it is a duplicate in the other index, the first one of that name comes earlier here,
        -- too.
        have hfound := (ih first hlt first' n n' hff hn).2 hfirst
        rw [hf] at hfound
        cases hfound
        exact absurd hlt (Nat.lt_irrefl d)
    · intro hf
      rcases h.symm.found_or_duplicate hx' he (fun p' p m' m hp hpp hm =>
        (ih p ((horder hpp hd).2 hp) p' m m' hpp hm.symm).2) hd hn.symm hf with
        hfound | ⟨first, hfirst, hdup⟩
      · exact hfound
      · have hlt := (he.earlier _ hdup).1
        obtain ⟨first', hff⟩ := h.total (Nat.lt_trans hlt (h.lt_size hd).1)
        have hfound := (ih first hlt first' n n' hff hn).1 hfirst
        rw [hf] at hfound
        cases hfound
        exact absurd ((horder hff hd).1 hlt) (Nat.lt_irrefl d')

/-- What is found in an index is found in one without duplicates. -/
theorem found (h : x.Resembles t t' decl x') (hx : x.Sound units t) (he' : x'.Entered x'.size)
    (hdup : x'.duplicates = []) :
    ∀ d d' n n', decl d d' → t.Agree t' n n' → x.find? n = some d → x'.find? n' = some d' := by
  intro d
  induction d using Nat.strongRecOn with
  | _ d ih =>
    intro d' n n' hd hn hf
    rcases h.found_or_duplicate hx he' (fun p p' m m' hp => ih p hp p' m m') hd hn hf with
      hfound | ⟨first, -, hmem⟩
    · exact hfound
    · rw [hdup] at hmem
      cases hmem

/-- If one index has no duplicates, the other has none. -/
theorem no_duplicates (h : x.Resembles t t' decl x') (he : x.Entered x.size)
    (hx' : x'.Sound units' t') (he' : x'.Entered x'.size) (hdup : x.duplicates = []) :
    x'.duplicates = [] := by
  rw [List.eq_nil_iff_forall_not_mem]
  rintro ⟨d', e'⟩ hmem
  obtain ⟨hlt, i', n', hi', hname, hfound, hreached⟩ := he'.earlier _ hmem
  obtain ⟨d, hd⟩ := h.onto (x'.lt_size_of_known? (Option.isSome_iff_exists.2 ⟨i', hi'⟩))
  obtain ⟨e, hee⟩ := h.onto (Nat.lt_trans hlt (h.lt_size hd).2)
  have hback := h.symm.found hx' he hdup
  obtain ⟨i, j', hi, hj', -, hq⟩ := h.known hd
  cases hi'.symm.trans hj'
  have hr : Reached x.known? x.find? i.parent :=
    h.symm.reached hx' hd (fun p' p m' m _ => hback p' p m' m) hi' hi hreached
  rw [hname] at hq
  generalize hqn : i.qualifiedName = q at hq
  cases hq with
  | named hn =>
    have hd' := he.reached d (h.lt_size hd).1 i _ hi hqn hr
    rw [hdup] at hd'
    have he'' := hback e' e n' _ hee hn.symm hfound
    rcases hd' with hd' | ⟨first, -, hmem⟩
    · rw [hd'] at he''
      cases he''
      exact absurd (h.functional hd hee ▸ hlt) (Nat.lt_irrefl _)
    · cases hmem

/-- **Declarations without duplicates** are found alike, in whatever order they are numbered. -/
theorem find?_of_no_duplicates (h : x.Resembles t t' decl x') (hx : x.Sound units t)
    (he : x.Entered x.size) (hx' : x'.Sound units' t') (he' : x'.Entered x'.size)
    (hdup : x.duplicates = []) :
    ∀ d d' n n', decl d d' → t.Agree t' n n' → (x.find? n = some d ↔ x'.find? n' = some d') :=
  fun d d' n n' hd hn => ⟨h.found hx he' (h.no_duplicates he hx' he' hdup) d d' n n' hd hn,
    h.symm.found hx' he hdup d' d n' n hd hn.symm⟩

/-- What is found under a text in one index is found under it in the other. -/
theorem found_text (h : x.Resembles t t' decl x') (hx : x.Sound units t)
    (hfind : ∀ d d' n n', decl d d' → t.Agree t' n n' → x.find? n = some d →
      x'.find? n' = some d') {text : String} (hd : (t.find? text).bind x.find? = some d) :
    ∃ d', decl d d' ∧ (t'.find? text).bind x'.find? = some d' := by
  obtain ⟨n, hn, hd⟩ := Option.bind_eq_some_iff.1 hd
  obtain ⟨j, hj, hjn, -⟩ := hx.named n d hd
  obtain ⟨d', hdd⟩ := h.total (x.lt_size_of_known? (Option.isSome_iff_exists.2 ⟨j, hj⟩))
  obtain ⟨i, i', hi, -, -, hq⟩ := h.known hdd
  cases hj.symm.trans hi
  rw [hjn] at hq
  generalize i'.qualifiedName = q' at hq
  cases hq with
  | @named _ n' hagree =>
    refine ⟨d', hdd, Option.bind_eq_some_iff.2 ⟨n', ?_, hfind d d' n n' hdd hagree hd⟩⟩
    obtain ⟨other, ht, ht'⟩ := hagree
    rw [NameTable.resolve?_of_find? hn] at ht
    cases ht
    exact NameTable.find?_of_resolve? ht'

end DeclIndex.Resembles

/-! ### The special names -/

namespace WellKnown

/-- The texts of the special names. -/
structure Spells (c : ModelConfig) (t : NameTable) (w : WellKnown) : Prop where
  rootObject : t.resolve? w.rootObject = some c.rootObject
  enumBase : t.resolve? w.enumBase = some "java.lang.Enum"
  recordBase : t.resolve? w.recordBase = some "java.lang.Record"
  annotationBase : t.resolve? w.annotationBase = some "java.lang.annotation.Annotation"
  implicitImports : List.Forall₂ (fun n text => t.resolve? n = some text) w.implicitImports
    (c.implicitImports.filter (!·.isEmpty))

theorem spells_internAll (texts : List String) (t : NameTable) : t.Le (t.internAll texts).2 ∧
    List.Forall₂ (fun n text => (t.internAll texts).2.resolve? n = some text)
      (t.internAll texts).1 texts := by
  induction texts generalizing t with
  | nil => exact ⟨.refl t, .nil⟩
  | cons text rest ih =>
    obtain ⟨hle, hall⟩ := ih (t.intern text).2
    exact ⟨(t.le_intern text).trans hle, .cons (hle _ _ (t.resolve?_intern text)) hall⟩

theorem spells_ofConfig (c : ModelConfig) (t : NameTable) :
    (ofConfig c t).1.Spells c (ofConfig c t).2 := by
  obtain ⟨t₁, h₁⟩ : ∃ u, u = (t.intern c.rootObject).2 := ⟨_, rfl⟩
  obtain ⟨t₂, h₂⟩ : ∃ u, u = (t₁.intern "java.lang.Enum").2 := ⟨_, rfl⟩
  obtain ⟨t₃, h₃⟩ : ∃ u, u = (t₂.intern "java.lang.Record").2 := ⟨_, rfl⟩
  obtain ⟨t₄, h₄⟩ : ∃ u, u = (t₃.intern "java.lang.annotation.Annotation").2 := ⟨_, rfl⟩
  obtain ⟨hle, hall⟩ := spells_internAll (c.implicitImports.filter (!·.isEmpty)) t₄
  have hle₃ := (h₄ ▸ t₃.le_intern _ : t₃.Le t₄).trans hle
  have hle₂ := (h₃ ▸ t₂.le_intern _ : t₂.Le t₃).trans hle₃
  have hle₁ := (h₂ ▸ t₁.le_intern _ : t₁.Le t₂).trans hle₂
  subst h₁ h₂ h₃ h₄
  exact ⟨hle₁ _ _ (t.resolve?_intern _), hle₂ _ _ (NameTable.resolve?_intern _ _),
    hle₃ _ _ (NameTable.resolve?_intern _ _), hle _ _ (NameTable.resolve?_intern _ _), hall⟩

theorem Spells.agree {c : ModelConfig} {t t' : NameTable} {w w' : WellKnown} (h : w.Spells c t)
    (h' : w'.Spells c t') : WellKnown.Agree t t' w w' where
  rootObject := ⟨_, h.rootObject, h'.rootObject⟩
  enumBase := ⟨_, h.enumBase, h'.enumBase⟩
  recordBase := ⟨_, h.recordBase, h'.recordBase⟩
  annotationBase := ⟨_, h.annotationBase, h'.annotationBase⟩
  implicitImports := by
    have hall := h.implicitImports
    have hall' := h'.implicitImports
    generalize w.implicitImports = ns, w'.implicitImports = ns', c.implicitImports.filter _ = texts
      at hall hall'
    induction hall generalizing ns' with
    | nil =>
      cases hall'
      exact .nil
    | cons hn _ ih =>
      cases hall' with
      | cons hn' hall' => exact .cons ⟨_, hn, hn'⟩ (ih _ hall')

end WellKnown

/-! ### Worlds -/

namespace FileTwins

variable {units units' : List CompilationUnit} {keep : FieldDecl → Bool} {names : NameTable}
  (F : FileTwins units units' keep)

/-- The indexes of two batches. -/
abbrev index (units : List CompilationUnit) (names : NameTable) : DeclIndex :=
  (upTo units names units.length).index

/-- The names that come with them. -/
abbrev table (units : List CompilationUnit) (names : NameTable) : NameTable :=
  (upTo units names units.length).names

/-- The file of the second batch that corresponds to a file. -/
noncomputable def partner (i : Nat) : Nat := if h : i < units.length then (F.total h).choose else 0

theorem file_partner {i : Nat} (h : i < units.length) : F.file i (F.partner i) := by
  rw [partner, dif_pos h]
  exact (F.total h).choose_spec

/-- The files of the second batch in the order of the first. -/
theorem perm_partner : ((List.range units.length).map F.partner).Perm
    (List.range units'.length) := by
  rw [List.perm_ext_iff_of_nodup ?_ List.nodup_range]
  · intro j
    rw [List.mem_map, List.mem_range]
    constructor
    · rintro ⟨i, hi, rfl⟩
      exact (lt_length (F.file_partner (List.mem_range.1 hi))).2
    · intro hj
      obtain ⟨i, hf⟩ := F.onto hj
      have hi := (lt_length hf).1
      exact ⟨i, List.mem_range.2 hi, F.functional (F.file_partner hi) hf⟩
  · refine List.Nodup.map_on (fun i hi k hk heq => ?_) List.nodup_range
    have hf := F.file_partner (List.mem_range.1 hk)
    rw [← heq] at hf
    exact F.injective (F.file_partner (List.mem_range.1 hi)) hf

/-- Corresponding files have the same numbers. -/
def InOrder : Prop := ∀ {i j}, F.file i j → i = j

theorem InOrder.map_partner (ho : F.InOrder) :
    (List.range units.length).map F.partner = List.range units.length := by
  have hpartner : ∀ i ∈ List.range units.length, F.partner i = id i := fun i hi =>
    (ho (F.file_partner (List.mem_range.1 hi))).symm
  rw [List.map_congr_left hpartner, List.map_id]

theorem InOrder.length_eq (ho : F.InOrder) : units.length = units'.length := by
  have hperm := F.perm_partner
  rw [ho.map_partner] at hperm
  simpa using hperm.length_eq

section Sound

variable (hs : ∀ u ∈ units, u.Sound names False)

/-- How many declarations a file has. -/
def count (units : List CompilationUnit) (names : NameTable) (k : Nat) : Nat :=
  (upTo units names (k + 1)).index.size - (upTo units names k).index.size

/-- The top-level declarations of a file. -/
def tops (units : List CompilationUnit) (names : NameTable) (k : Nat) : List DeclId :=
  (upTo units names (k + 1)).index.topLevel.drop (upTo units names k).index.topLevel.length

include hs

theorem size_eq_length (n : Nat) : (upTo units names n).index.size =
    ((List.range n).flatMap fun k => List.replicate (count units names k) ()).length := by
  induction n with
  | zero => rfl
  | succ n ih =>
    have hle := (precedes_succ hs n).known.size_le
    rw [List.range_succ, List.flatMap_append, List.length_append, ← ih, List.flatMap_singleton,
      List.length_replicate, count]
    omega

theorem topLevel_eq (n : Nat) (hn : n ≤ units.length) :
    (upTo units names n).index.topLevel = (List.range n).flatMap (tops units names) := by
  induction n with
  | zero => rfl
  | succ n ih =>
    obtain ⟨new, -, hnew, -⟩ := ((refl units).recorded hs ⟨rfl, hn⟩).paired.agrees.topLevel
    have hnew' : (upTo units names (n + 1)).index.topLevel =
        (upTo units names n).index.topLevel ++ new := hnew
    rw [List.range_succ, List.flatMap_append, ← ih (Nat.le_of_succ_le hn)]
    simp only [List.flatMap_cons, List.flatMap_nil, List.append_nil, tops, hnew',
      List.drop_left]

include F in
theorem size_eq : (index units names).size = (index units' names).size := by
  rw [index, index, size_eq_length hs, size_eq_length (F.sound_right hs),
    ← (F.perm_partner.flatMap_right _).length_eq, List.flatMap_map]
  refine congrArg List.length (List.flatMap_congr fun i hi => ?_)
  obtain ⟨c, hc, hc'⟩ := (F.recorded hs (F.file_partner (List.mem_range.1 hi))).paired.agrees.size
  have hl : count units names i = c := by
    rw [count, hc]
    exact Nat.add_sub_cancel_left ..
  have hr : count units' names (F.partner i) = c := by
    rw [count, hc']
    exact Nat.add_sub_cancel_left ..
  rw [hl, hr]

/-- The top-level declarations of corresponding files. -/
theorem tops_twins {i j : Nat} (hf : F.file i j) :
    List.Forall₂ (F.Decl names) (tops units names i) (tops units' names j) := by
  obtain ⟨new, new', hnew, hnew', hnews⟩ := (F.recorded hs hf).paired.agrees.topLevel
  have hl : tops units names i = new := by
    rw [tops, hnew]
    exact List.drop_left
  have hr : tops units' names j = new' := by
    rw [tops, hnew']
    exact List.drop_left
  rw [hl, hr]
  exact hnews.imp fun _ _ hd => ⟨i, j, hf, hd⟩

/-- The top-level declarations of the first batch, and those of the files that correspond to its
    files, in their order. -/
theorem topLevel_partner : List.Forall₂ (F.Decl names) (index units names).topLevel
    (((List.range units.length).map F.partner).flatMap (tops units' names)) := by
  rw [index, topLevel_eq hs _ (Nat.le_refl _), List.flatMap_map]
  have hall : ∀ is : List Nat, (∀ i ∈ is, i < units.length) →
      List.Forall₂ (F.Decl names) (is.flatMap (tops units names))
        (is.flatMap fun i => tops units' names (F.partner i)) := by
    intro is
    induction is with
    | nil => exact fun _ => .nil
    | cons i rest ih =>
      intro hi
      obtain ⟨hi, hrest⟩ := List.forall_mem_cons.1 hi
      rw [List.flatMap_cons, List.flatMap_cons]
      exact List.rel_append (F.tops_twins hs (F.file_partner hi)) (ih hrest)
  exact hall _ fun i hi => List.mem_range.1 hi

theorem topLevel : ∃ ds, ds.Perm (index units' names).topLevel ∧
    List.Forall₂ (F.Decl names) (index units names).topLevel ds := by
  refine ⟨_, ?_, F.topLevel_partner hs⟩
  rw [index, topLevel_eq (F.sound_right hs) _ (Nat.le_refl _)]
  exact F.perm_partner.flatMap_right _

theorem package {i j : Nat} (hf : F.file i j) :
    Option.Rel ((table units names).Agree (table units' names))
      ((index units names).package? i) ((index units' names).package? j) := by
  obtain ⟨p, p', hp, hp', hrel⟩ := (F.recorded hs hf).package
  obtain ⟨more, hmore⟩ := (after_left hs hf).packages
  obtain ⟨more', hmore'⟩ := (after_right hs hf).packages
  have hlen : (upTo units names i).index.packages.length = i :=
    (length_files hs (Nat.le_of_lt (lt_length hf).1)).1
  have hlen' : (upTo units' names j).index.packages.length = j :=
    (length_files (F.sound_right hs) (Nat.le_of_lt (lt_length hf).2)).1
  have hget : (index units names).packages[i]? = some p := by
    rw [hmore, hp, List.append_assoc, List.getElem?_append_right (Nat.le_of_eq hlen), hlen,
      Nat.sub_self]
    rfl
  have hget' : (index units' names).packages[j]? = some p' := by
    rw [hmore', hp', List.append_assoc, List.getElem?_append_right (Nat.le_of_eq hlen'), hlen',
      Nat.sub_self]
    rfl
  rw [DeclIndex.package?, DeclIndex.package?, hget, hget']
  exact Option.Rel.mono hrel fun _ _ hn =>
    hn.le (after_left hs hf).names (after_right hs hf).names

theorem imports {i j : Nat} (hf : F.file i j) :
    UnitImports.Agree (table units names) (table units' names)
      ((index units names).importsOf i) ((index units' names).importsOf j) := by
  obtain ⟨is, is', hi, hi', hrel⟩ := (F.recorded hs hf).imports
  obtain ⟨more, hmore⟩ := (after_left hs hf).imports
  obtain ⟨more', hmore'⟩ := (after_right hs hf).imports
  have hlen : (upTo units names i).index.imports.length = i :=
    (length_files hs (Nat.le_of_lt (lt_length hf).1)).2
  have hlen' : (upTo units' names j).index.imports.length = j :=
    (length_files (F.sound_right hs) (Nat.le_of_lt (lt_length hf).2)).2
  have hget : (index units names).imports[i]? = some is := by
    rw [hmore, hi, List.append_assoc, List.getElem?_append_right (Nat.le_of_eq hlen), hlen,
      Nat.sub_self]
    rfl
  have hget' : (index units' names).imports[j]? = some is' := by
    rw [hmore', hi', List.append_assoc, List.getElem?_append_right (Nat.le_of_eq hlen'), hlen',
      Nat.sub_self]
    rfl
  rw [DeclIndex.importsOf, DeclIndex.importsOf, hget, hget']
  exact hrel.le (after_left hs hf).names (after_right hs hf).names

theorem resembles : (index units names).Resembles (table units names) (table units' names)
    (F.Decl names) (index units' names) where
  known h := by
    obtain ⟨i, i', hi, hi', halike, -⟩ := info hs h
    exact ⟨i.fixed, i'.fixed, by rw [DeclIndex.known?, hi]; rfl,
      by rw [DeclIndex.known?, hi']; rfl, halike.parent, halike.qualifiedName⟩
  functional := decl_functional hs
  injective := decl_injective hs
  total := decl_total
  onto := decl_onto hs

/-- Of the declarations of two batches the same are found by their names. -/
def Finds (names : NameTable) : Prop :=
  ∀ d d' n n', F.Decl names d d' → (table units names).Agree (table units' names) n n' →
    ((index units names).find? n = some d ↔ (index units' names).find? n' = some d')

/-! ### Files in one order -/

variable {F}

/-- The top-level declarations correspond in order. -/
theorem InOrder.topLevel (ho : F.InOrder) :
    List.Forall₂ (F.Decl names) (index units names).topLevel (index units' names).topLevel := by
  have hall := F.topLevel_partner hs
  rwa [ho.map_partner, ho.length_eq, ← topLevel_eq (F.sound_right hs) _ (Nat.le_refl _)] at hall

/-- The declarations of files in one order are numbered in one order. -/
theorem InOrder.lt_iff (ho : F.InOrder) {d d' e e' : DeclId} (h : F.Decl names d d')
    (h' : F.Decl names e e') : d < e ↔ d' < e' := by
  obtain ⟨i, j, hf, hd⟩ := h
  obtain ⟨k, l, hf', he⟩ := h'
  obtain rfl := ho hf
  obtain rfl := ho hf'
  have hbounds {n : Nat} {c c' : DeclId} (hf : F.file n n)
      (h : (F.side names n n).Decl (upTo units names (n + 1)) c c') :=
    And.intro (bounds_left h) (bounds_right hs hf h)
  obtain ⟨⟨hd₁, hd₂⟩, hd₃, hd₄⟩ := hbounds hf hd
  obtain ⟨⟨he₁, he₂⟩, he₃, he₄⟩ := hbounds hf' he
  have hle (a b : Nat) (h : a < b) :
      (upTo units names (a + 1)).index.size ≤ (upTo units names b).index.size ∧
      (upTo units' names (a + 1)).index.size ≤ (upTo units' names b).index.size :=
    ⟨(precedes hs h).known.size_le, (precedes (F.sound_right hs) h).known.size_le⟩
  -- Declarations of different files are in the order of the files; those of one are counted from
  -- its start.
  rcases Nat.lt_trichotomy i k with hlt | rfl | hlt
  · obtain ⟨hl, hr⟩ := hle i k hlt
    exact iff_of_true (Nat.lt_of_lt_of_le hd₂ (Nat.le_trans hl he₁))
      (Nat.lt_of_lt_of_le hd₄ (Nat.le_trans hr he₃))
  · obtain ⟨a, rfl, rfl, -⟩ := hd
    obtain ⟨b, rfl, rfl, -⟩ := he
    exact (Nat.add_lt_add_iff_left).trans Nat.add_lt_add_iff_left.symm
  · obtain ⟨hl, hr⟩ := hle k i hlt
    exact iff_of_false (Nat.not_lt.2 (Nat.le_of_lt (Nat.lt_of_lt_of_le he₂ (Nat.le_trans hl hd₁))))
      (Nat.not_lt.2 (Nat.le_of_lt (Nat.lt_of_lt_of_le he₄ (Nat.le_trans hr hd₃))))

/-- Of files in one order the same declarations are found by their names. -/
theorem InOrder.finds (ho : F.InOrder) : F.Finds names := by
  have hx := (sound_upTo hs units.length).1
  have hx' := (sound_upTo (F.sound_right hs) units'.length).1
  exact (F.resembles hs).find?_of_order hx.1 hx.2 hx'.1 hx'.2 fun hd he => ho.lt_iff hs hd he

/-- If no declaration is reported as a duplicate, the same are found by their names in any order. -/
theorem finds_of_no_duplicates (hdup : (index units names).duplicates = []) : F.Finds names := by
  have hx := (sound_upTo hs units.length).1
  have hx' := (sound_upTo (F.sound_right hs) units'.length).1
  exact (F.resembles hs).find?_of_no_duplicates hx.1 hx.2 hx'.1 hx'.2 hdup

end Sound

/-! ### New sessions -/

section Start

variable (token token' : SessionToken) (provider : Provider) (config : ModelConfig)

/-- The world of a new session. -/
abbrev world (units : List CompilationUnit) (names : NameTable) (token : SessionToken)
    (provider : Provider) (config : ModelConfig) : World :=
  (Session.start token units names provider config).world

theorem index_world : (world units names token provider config).index = index units names := by
  show (DeclIndex.ofUnits units names).1 = _
  rw [DeclIndex.ofUnits_eq]

theorem table_world : (table units names).Le (world units names token provider config).names := by
  have h : (DeclIndex.ofUnits units names).2 = table units names := by
    rw [DeclIndex.ofUnits_eq]
  rw [← h]
  exact (WellKnown.issued_ofConfig config _).1

variable {F}

theorem find_world (hs : ∀ u ∈ units, u.Sound names False) (hfind : F.Finds names) (name : String) :
    Option.Rel (F.Decl names) ((world units names token provider config).find? name)
      ((world units' names token' provider config).find? name) := by
  have hx := (sound_upTo hs units.length).1.1
  have hx' := (sound_upTo (F.sound_right hs) units'.length).1.1
  have hle : (table units names).Le (world units names token provider config).names :=
    table_world token provider config
  have hle' : (table units' names).Le (world units' names token' provider config).names :=
    table_world token' provider config
  have hw : (world units names token provider config).find? name =
      ((table units names).find? name).bind (index units names).find? := by
    rw [World.find?, index_world, hx.find?_le hle]
  have hw' : (world units' names token' provider config).find? name =
      ((table units' names).find? name).bind (index units' names).find? := by
    rw [World.find?, index_world, hx'.find?_le hle']
  rw [hw, hw']
  have hr := F.resembles hs
  cases hd : ((table units names).find? name).bind (index units names).find? with
  | some d =>
    obtain ⟨d', hdd, hd'⟩ := hr.found_text hx
      (fun d d' n n' hdd hn => (hfind d d' n n' hdd hn).1) hd
    rw [hd']
    exact .some hdd
  -- If it were found in the other one, it would be found here.
  | none =>
    cases hd' : ((table units' names).find? name).bind (index units' names).find? with
    | none => exact .none
    | some d' =>
      obtain ⟨d, -, hfound⟩ := hr.symm.found_text hx'
        (fun d' d n' n hdd hn => (hfind d d' n n' hdd hn.symm).2) hd'
      rw [hd] at hfound
      cases hfound

/-- **Worlds of corresponding batches correspond**, if the same declarations are found. -/
def twins (F : FileTwins units units' keep) (hs : ∀ u ∈ units, u.Sound names False)
    (hfind : F.Finds names) (token token' : SessionToken) (provider : Provider)
    (config : ModelConfig) :
    Twins (world units names token provider config) (world units' names token' provider config) where
  keep := keep
  base := names
  decl := F.Decl names
  unit := F.file
  left := Session.sound_world_start hs
  right := Session.sound_world_start (F.sound_right hs)
  base_left := (sound_upTo hs units.length).2.trans (table_world token provider config)
  base_right := (sound_upTo (F.sound_right hs) units'.length).2.trans
    (table_world token' provider config)
  trees := hs
  provider := rfl
  size := by
    rw [index_world, index_world]
    exact F.size_eq hs
  functional := decl_functional hs
  injective := decl_injective hs
  tree h := by
    rw [index_world, index_world]
    exact tree hs h
  info h := by
    rw [index_world, index_world]
    obtain ⟨i, i', hi, hi', halike, -⟩ := info hs h
    exact ⟨i, i', hi, hi', halike.mono (table_world token provider config)
      (table_world token' provider config) (fun _ _ h => h) (fun _ _ h => h) fun _ _ _ h => h⟩
  child h htree hstays := by
    rw [index_world] at htree
    rw [index_world, index_world]
    exact child hs h ⟨_, htree, hstays⟩
  find := find_world token token' provider config hs hfind
  package h := by
    rw [index_world, index_world]
    exact Option.Rel.mono (F.package hs h) fun _ _ hn =>
      hn.le (table_world token provider config) (table_world token' provider config)
  imports h := by
    rw [index_world, index_world]
    exact (F.imports hs h).le (table_world token provider config)
      (table_world token' provider config)
  wellKnown := (WellKnown.spells_ofConfig config _).agree (WellKnown.spells_ofConfig config _)
  topLevel := by
    rw [index_world, index_world]
    exact F.topLevel hs

/-- **New sessions of corresponding batches have learnt the same.** -/
theorem alike_start (hs : ∀ u ∈ units, u.Sound names False) (hfind : F.Finds names) :
    (F.twins hs hfind token token' provider config).Alike
      (Session.start token units names provider config)
      (Session.start token' units' names provider config) := by
  have hidle : (Session.start token units names provider config).Idle _ := Session.idle_start hs
  have hidle' : (Session.start token' units' names provider config).Idle _ :=
    Session.idle_start (F.sound_right hs)
  have hblank : ∀ id, (Session.start token units names provider config).memory id = .blank :=
    fun id => rfl
  have hblank' : ∀ id, (Session.start token' units' names provider config).memory id = .blank :=
    fun id => rfl
  exact
    { left := ⟨hidle.resolved.sound, hidle.resolved.quiet, hidle.resolved.of⟩
      right := ⟨hidle'.resolved.sound, hidle'.resolved.quiet, hidle'.resolved.of⟩
      cells := fun _ => .none
      memory := fun key _ id id' _ _ _ => by
        rw [hblank, hblank']
        exact .blank key
      partner := fun id h => absurd (hblank id) h
      partner' := fun id h => absurd (hblank' id) h }

end Start

end FileTwins

end JavaAbi
