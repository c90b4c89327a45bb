import Mathlib.Data.List.Perm.Subperm
import JavaAbi.Proofs.TwinIndexes

namespace JavaAbi

/-!
# Twin batches

The indexes of two batches whose files correspond: the files of the second lack some variables, and
may come in another order. The declarations of a file have consecutive numbers, which start wherever
the files before it end, so the indexes correspond file by file.

* `Indexing.upTo` — the state after some of the files; `Precedes` — what stays from there on;
* `FileTwins` — files that correspond;
* `FileTwins.Decl` — declarations of corresponding files, at the same distance from the first;
* `FileTwins.info`, `FileTwins.child` — what the indexes record of them corresponds.
-/

open Indexing

/-! ### Leaving nothing out -/

mutual

theorem TypeDecl.restrict_true (d : TypeDecl) : d.restrict (fun _ => true) = d := by
  match d with
  | .mk head members => rw [TypeDecl.restrict, Member.restrictAll_true members]

theorem Member.restrict_true (m : Member) : m.restrict (fun _ => true) = m := by
  match m with
  | .type d => rw [Member.restrict, TypeDecl.restrict_true d]
  | .field f => rw [Member.restrict]
  | .constant n none sp => rw [Member.restrict]
  | .constant n (some body) sp => rw [Member.restrict, TypeDecl.restrict_true body]

theorem Member.restrictAll_true (ms : List Member) : Member.restrictAll (fun _ => true) ms = ms := by
  match ms with
  | [] => rw [Member.restrictAll]
  | m :: rest =>
    have hk : m.kept (fun _ => true) = true := by cases m <;> rfl
    rw [Member.restrictAll, if_pos hk, Member.restrict_true m, Member.restrictAll_true rest]

end

theorem CompilationUnit.restrict_true (u : CompilationUnit) : u.restrict (fun _ => true) = u := by
  have h : TypeDecl.restrict (fun _ => true) = id := funext TypeDecl.restrict_true
  rw [restrict, h, List.map_id]

section Sound

variable {t : NameTable} {clean : Prop} {keep : FieldDecl → Bool}

mutual

theorem TypeDecl.Sound.restrict {d : TypeDecl} (h : d.Sound t clean) :
    (d.restrict keep).Sound t clean := by
  match d with
  | .mk head members =>
    rw [TypeDecl.Sound] at h
    rw [TypeDecl.restrict, TypeDecl.Sound]
    exact ⟨h.1, Member.AllSound.restrict h.2⟩

theorem Member.Sound.restrict {m : Member} (h : m.Sound t clean) :
    (m.restrict keep).Sound t clean := by
  match m with
  | .type d =>
    rw [Member.Sound] at h
    rw [Member.restrict, Member.Sound]
    exact h.restrict
  | .field f =>
    rw [Member.restrict]
    exact h
  | .constant n none sp =>
    rw [Member.restrict]
    exact h
  | .constant n (some body) sp =>
    rw [Member.Sound] at h
    rw [Member.restrict, Member.Sound]
    exact ⟨h.1, body.head_restrict.symm ▸ h.2.1, h.2.2.restrict⟩

theorem Member.AllSound.restrict {ms : List Member} (h : Member.AllSound t clean ms) :
    Member.AllSound t clean (Member.restrictAll keep ms) := by
  match ms with
  | [] =>
    rw [Member.restrictAll]
    exact h
  | m :: rest =>
    rw [Member.AllSound] at h
    rw [Member.restrictAll]
    split
    · rw [Member.AllSound]
      exact ⟨h.1.restrict, Member.AllSound.restrict h.2⟩
    · exact Member.AllSound.restrict h.2

end

theorem CompilationUnit.Sound.restrict {u : CompilationUnit} (h : u.Sound t clean) :
    (u.restrict keep).Sound t clean where
  package := h.package
  imports := h.imports
  types d hd := by
    obtain ⟨e, he, rfl⟩ := List.mem_map.1 hd
    exact (h.types e he).restrict

end Sound

/-! ### File after file -/

/-- The state after the first `k` files of a batch. -/
def Indexing.upTo (units : List CompilationUnit) (names : NameTable) : Nat → IndexState
  | 0 => { names }
  | k + 1 =>
    match units[k]? with
    | some u => ((addUnit k u).run (upTo units names k)).2
    | none => upTo units names k

section UpTo

variable {units : List CompilationUnit} {names : NameTable}

theorem Indexing.run_addUnit {k : Nat} {u : CompilationUnit} (h : units[k]? = some u) :
    (addUnit k u).run (upTo units names k) = ((), upTo units names (k + 1)) := by
  rw [upTo, h]
  rfl

theorem Indexing.run_addUnits {before us : List CompilationUnit} (h : units = before ++ us) :
    (addUnits before.length us).run (upTo units names before.length) =
      ((), upTo units names units.length) := by
  induction us generalizing before with
  | nil =>
    rw [h, List.append_nil]
    rfl
  | cons u rest ih =>
    have hu : units[before.length]? = some u := by
      rw [h, List.getElem?_append_right (Nat.le_refl _), Nat.sub_self]
      rfl
    have hrest := ih (h.trans (List.append_cons before u rest))
    rw [List.length_append] at hrest
    rw [addUnits, StateT.run_bind, run_addUnit hu]
    exact hrest

theorem DeclIndex.ofUnits_eq (units : List CompilationUnit) (names : NameTable) :
    ofUnits units names = ((upTo units names units.length).index,
      (upTo units names units.length).names) := by
  have h : (addUnits 0 units).run { names } = ((), upTo units names units.length) :=
    run_addUnits (show units = [] ++ units from rfl)
  rw [ofUnits, h]

theorem Indexing.sound_upTo {clean : Prop} (hs : ∀ u ∈ units, u.Sound names clean) (k : Nat) :
    (indexing units).Sound (upTo units names k) ∧ names.Le (upTo units names k).names := by
  induction k with
  | zero => exact ⟨sound_empty units names, .refl _⟩
  | succ k ih =>
    cases hu : units[k]? with
    | none =>
      rw [upTo, hu]
      exact ih
    | some u =>
      have hsound := (hs u (List.mem_of_getElem? hu)).weaken ih.2 fun h => h
      obtain ⟨_, t, hrun, ht, hgrow, -⟩ := addUnit_yields hu hsound ih.1
      rw [run_addUnit hu] at hrun
      cases hrun
      exact ⟨ht, ih.2.trans hgrow.names⟩

end UpTo

/-! ### Files that correspond -/

/-- The files of two batches correspond: each of the second is one of the first, but for variables
    that are left out. -/
structure FileTwins (units units' : List CompilationUnit) (keep : FieldDecl → Bool) where
  file : Nat → Nat → Prop
  functional : ∀ {i j k}, file i j → file i k → j = k
  injective : ∀ {i j k}, file i k → file j k → i = j
  total : ∀ {i}, i < units.length → ∃ j, file i j
  onto : ∀ {j}, j < units'.length → ∃ i, file i j
  same : ∀ {i j}, file i j → ∃ u, units[i]? = some u ∧ units'[j]? = some (u.restrict keep)

/-- Files correspond, in order, to what is kept of them. -/
def FileTwins.inPlace {units units' : List CompilationUnit} {keep : FieldDecl → Bool}
    (h : units' = units.map (CompilationUnit.restrict keep)) : FileTwins units units' keep where
  file i j := i = j ∧ i < units.length
  functional h h' := h.1.symm.trans h'.1
  injective h h' := h.1.trans h'.1.symm
  total h := ⟨_, rfl, h⟩
  onto hj := ⟨_, rfl, by rwa [h, List.length_map] at hj⟩
  same := by
    rintro i j ⟨rfl, hi⟩
    rw [h, List.getElem?_map, List.getElem?_eq_getElem hi]
    exact ⟨_, rfl, rfl⟩

/-- A batch corresponds to itself. -/
def FileTwins.refl (units : List CompilationUnit) : FileTwins units units fun _ => true :=
  .inPlace (by
    have hid : CompilationUnit.restrict (fun _ => true) = id :=
      funext CompilationUnit.restrict_true
    rw [hid, List.map_id])

namespace FileTwins

variable {units units' : List CompilationUnit} {keep : FieldDecl → Bool} {names : NameTable}
  {i j : Nat}

/-- Indexing of two corresponding files, each after the files before it. -/
def side (_ : FileTwins units units' keep) (names : NameTable) (i j : Nat) : IndexTwins where
  units := units
  units' := units'
  keep := keep
  base := names
  unit k l := k = i ∧ l = j
  start := upTo units names i
  start' := upTo units' names j

variable (F : FileTwins units units' keep)

include F in
theorem sound_right (hs : ∀ u ∈ units, u.Sound names False) :
    ∀ u ∈ units', u.Sound names False := by
  intro u hu
  obtain ⟨j, hj, rfl⟩ := List.mem_iff_getElem.1 hu
  obtain ⟨i, hij⟩ := F.onto hj
  obtain ⟨v, hv, hv'⟩ := F.same hij
  rw [List.getElem?_eq_getElem hj] at hv'
  rw [Option.some.inj hv']
  exact (hs v (List.mem_of_getElem? hv)).restrict

/-- Corresponding files are recorded in step. -/
theorem recorded (hs : ∀ u ∈ units, u.Sound names False) (h : F.file i j) :
    (F.side names i j).Recorded (upTo units names i) (upTo units' names j)
      (upTo units names (i + 1)) (upTo units' names (j + 1)) := by
  obtain ⟨u, hu, hu'⟩ := F.same h
  have hle := (sound_upTo hs i).2
  have hle' := (sound_upTo (F.sound_right hs) j).2
  have hstart : (F.side names i j).Paired (upTo units names i) (upTo units' names j) :=
    { base_left := hle
      base_right := hle'
      agrees :=
        { size := ⟨0, rfl, rfl⟩
          infos := fun k hk => absurd hk (Nat.not_lt.2 (Nat.le_add_right _ k))
          old := fun _ _ => rfl
          old' := fun _ _ => rfl
          children := .refl _ _
          topLevel := .refl _ _ } }
  obtain ⟨t, t', ht, ht', hr⟩ := IndexTwins.addUnit_recorded (S := F.side names i j) hu hu'
    ⟨rfl, rfl⟩ (hs u (List.mem_of_getElem? hu)) hstart
  rw [run_addUnit hu] at ht
  have hrun : (addUnit j (u.restrict keep)).run (upTo units' names j) = ((), t') := ht'
  rw [run_addUnit hu'] at hrun
  cases ht
  cases hrun
  exact hr

end FileTwins

/-! ### What stays -/

/-- What an index has recorded of files stays as it is. -/
structure IndexState.Precedes (s t : IndexState) : Prop where
  names : s.names.Le t.names
  known : Extends s.index.known? t.index.known?
  get? : ∀ d < s.index.size, t.index.get? d = s.index.get? d
  child? : ∀ d < s.index.size, ∀ m, t.index.child? d m = s.index.child? d m
  packages : ∃ new, t.index.packages = s.index.packages ++ new
  imports : ∃ new, t.index.imports = s.index.imports ++ new

theorem IndexState.Precedes.refl (s : IndexState) : s.Precedes s :=
  ⟨.refl _, .refl _, fun _ _ => rfl, fun _ _ _ => rfl, ⟨[], (List.append_nil _).symm⟩,
    ⟨[], (List.append_nil _).symm⟩⟩

theorem IndexState.Precedes.trans {s t u : IndexState} (h : s.Precedes t) (h' : t.Precedes u) :
    s.Precedes u where
  names := h.names.trans h'.names
  known := h.known.trans h'.known
  get? d hd := (h'.get? d (Nat.lt_of_lt_of_le hd h.known.size_le)).trans (h.get? d hd)
  child? d hd m :=
    (h'.child? d (Nat.lt_of_lt_of_le hd h.known.size_le) m).trans (h.child? d hd m)
  packages := by
    obtain ⟨new, hnew⟩ := h.packages
    obtain ⟨more, hmore⟩ := h'.packages
    exact ⟨new ++ more, by rw [hmore, hnew, List.append_assoc]⟩
  imports := by
    obtain ⟨new, hnew⟩ := h.imports
    obtain ⟨more, hmore⟩ := h'.imports
    exact ⟨new ++ more, by rw [hmore, hnew, List.append_assoc]⟩

section UpTo

variable {units : List CompilationUnit} {names : NameTable}

theorem Indexing.upTo_of_length_le {k : Nat} (h : units.length ≤ k) :
    upTo units names (k + 1) = upTo units names k := by
  rw [upTo, List.getElem?_eq_none h]

/-- Entries of members that belong to later declarations do not matter. -/
theorem lookup_later {new : List ((DeclId × Nat) × DeclId)} {size d m : Nat}
    (h : ∀ c ∈ new, size ≤ c.1.1) (hd : d < size) : new.lookup (d, m) = none := by
  rw [List.lookup_eq_none_iff]
  intro c hc
  rw [bne_iff_ne]
  intro heq
  have hle := h c hc
  rw [← heq] at hle
  exact Nat.not_le.2 hd hle

/-- What was recorded before a file stays. -/
theorem Indexing.precedes_succ (hs : ∀ u ∈ units, u.Sound names False) (k : Nat) :
    (upTo units names k).Precedes (upTo units names (k + 1)) := by
  rcases Nat.lt_or_ge k units.length with hk | hk
  · have hr := (FileTwins.refl units).recorded hs ⟨rfl, hk⟩
    obtain ⟨p, -, hp, -⟩ := hr.package
    obtain ⟨is, -, his, -⟩ := hr.imports
    obtain ⟨new, new', hnew, -, hall⟩ := hr.paired.agrees.children
    refine ⟨hr.later.left, hr.later.known, hr.paired.agrees.old, fun d hd m => ?_, ⟨_, hp⟩,
      ⟨_, his⟩⟩
    have hlater : ∀ c ∈ new, (upTo units names k).index.size ≤ c.1.1 := by
      intro c hc
      obtain ⟨c', -, hcc⟩ := forall₂_mem_left hall c hc
      obtain ⟨n, hn, -⟩ := hcc.parent
      exact hn ▸ Nat.le_add_right _ _
    rw [DeclIndex.child?, hnew, List.lookup_append, lookup_later hlater hd, Option.or_none]
    rfl
  · rw [upTo_of_length_le hk]
    exact .refl _

theorem Indexing.precedes (hs : ∀ u ∈ units, u.Sound names False) {k n : Nat} (h : k ≤ n) :
    (upTo units names k).Precedes (upTo units names n) := by
  induction h with
  | refl => exact .refl _
  | step _ ih => exact ih.trans (precedes_succ hs _)

/-- Each file has one package and one list of imports. -/
theorem Indexing.length_files (hs : ∀ u ∈ units, u.Sound names False) {k : Nat}
    (hk : k ≤ units.length) :
    (upTo units names k).index.packages.length = k ∧
      (upTo units names k).index.imports.length = k := by
  induction k with
  | zero => exact ⟨rfl, rfl⟩
  | succ k ih =>
    have hr := (FileTwins.refl units).recorded hs ⟨rfl, hk⟩
    obtain ⟨p, -, hp, -⟩ := hr.package
    obtain ⟨is, -, his, -⟩ := hr.imports
    obtain ⟨h, h'⟩ := ih (Nat.le_of_succ_le hk)
    rw [hp, his, List.length_append, List.length_append, h, h']
    exact ⟨rfl, rfl⟩

/-- Each declaration belongs to one file. -/
theorem Indexing.file_of_decl {d : DeclId} {n : Nat} (hd : d < (upTo units names n).index.size) :
    ∃ k < n, (upTo units names k).index.size ≤ d ∧ d < (upTo units names (k + 1)).index.size := by
  induction n with
  | zero => exact absurd hd (Nat.not_lt_zero d)
  | succ n ih =>
    rcases Nat.lt_or_ge d (upTo units names n).index.size with hlt | hge
    · obtain ⟨k, hk, hblock⟩ := ih hlt
      exact ⟨k, Nat.lt_succ_of_lt hk, hblock⟩
    · exact ⟨n, Nat.lt_succ_self n, hge, hd⟩

theorem Indexing.file_unique (hs : ∀ u ∈ units, u.Sound names False) {d : DeclId} {k l : Nat}
    (hk : (upTo units names k).index.size ≤ d) (hk' : d < (upTo units names (k + 1)).index.size)
    (hl : (upTo units names l).index.size ≤ d) (hl' : d < (upTo units names (l + 1)).index.size) :
    k = l := by
  have hle (a b : Nat) (h : a < b) :
      (upTo units names (a + 1)).index.size ≤ (upTo units names b).index.size :=
    (precedes hs h).known.size_le
  rcases Nat.lt_trichotomy k l with h | h | h
  · exact absurd (Nat.lt_of_lt_of_le hk' (Nat.le_trans (hle k l h) hl)) (Nat.lt_irrefl _)
  · exact h
  · exact absurd (Nat.lt_of_lt_of_le hl' (Nat.le_trans (hle l k h) hk)) (Nat.lt_irrefl _)

end UpTo

/-! ### Declarations that correspond -/

namespace FileTwins

variable {units units' : List CompilationUnit} {keep : FieldDecl → Bool} {names : NameTable}
  {i j : Nat} {d d' e e' : DeclId} {m m' : Nat} (F : FileTwins units units' keep)

/-- Declarations of corresponding files, at the same distance from the first one. -/
def Decl (names : NameTable) (d d' : DeclId) : Prop :=
  ∃ i j, F.file i j ∧ (F.side names i j).Decl (upTo units names (i + 1)) d d'

/-- Members that correspond. -/
def Number (_ : FileTwins units units' keep) (names : NameTable) (d : DeclId) (m m' : Nat) : Prop :=
  ∃ tree, (upTo units names units.length).index.tree? units d = some tree ∧
    Stays keep tree.members m m'

variable {F}

theorem lt_length (h : F.file i j) : i < units.length ∧ j < units'.length := by
  obtain ⟨u, hu, hu'⟩ := F.same h
  exact ⟨(List.getElem?_eq_some_iff.1 hu).1, (List.getElem?_eq_some_iff.1 hu').1⟩

/-- The first of two corresponding declarations belongs to the file. -/
theorem bounds_left (h : (F.side names i j).Decl (upTo units names (i + 1)) d d') :
    (upTo units names i).index.size ≤ d ∧ d < (upTo units names (i + 1)).index.size := by
  obtain ⟨k, rfl, -, hlt⟩ := h
  exact ⟨Nat.le_add_right _ k, hlt⟩

/-- Each declaration of the first batch has a counterpart. -/
theorem decl_total (hd : d < (upTo units names units.length).index.size) :
    ∃ d', F.Decl names d d' := by
  obtain ⟨i, hi, hle, hlt⟩ := file_of_decl hd
  obtain ⟨j, hf⟩ := F.total hi
  obtain ⟨k, rfl⟩ := Nat.exists_eq_add_of_le hle
  exact ⟨_, i, j, hf, k, rfl, rfl, hlt⟩

section Sound

variable (hs : ∀ u ∈ units, u.Sound names False)

include hs

/-- The second one belongs to the other file. -/
theorem bounds_right (hf : F.file i j)
    (h : (F.side names i j).Decl (upTo units names (i + 1)) d d') :
    (upTo units' names j).index.size ≤ d' ∧ d' < (upTo units' names (j + 1)).index.size := by
  obtain ⟨k, rfl, rfl, hlt⟩ := h
  obtain ⟨c, hc, hc'⟩ := (F.recorded hs hf).paired.agrees.size
  refine ⟨Nat.le_add_right _ k, ?_⟩
  rw [hc] at hlt
  rw [hc']
  exact Nat.add_lt_add_left (Nat.lt_of_add_lt_add_left hlt) _

theorem decl_functional (h : F.Decl names d d') (h' : F.Decl names d e') : d' = e' := by
  obtain ⟨i, j, hf, hd⟩ := h
  obtain ⟨k, l, hf', he⟩ := h'
  obtain rfl := file_unique hs (bounds_left hd).1 (bounds_left hd).2 (bounds_left he).1
    (bounds_left he).2
  obtain rfl := F.functional hf hf'
  obtain ⟨a, ha, rfl, -⟩ := hd
  obtain ⟨b, hb, rfl, -⟩ := he
  rw [Nat.add_left_cancel (ha.symm.trans hb)]

theorem decl_injective (h : F.Decl names d d') (h' : F.Decl names e d') : d = e := by
  obtain ⟨i, j, hf, hd⟩ := h
  obtain ⟨k, l, hf', he⟩ := h'
  obtain rfl := file_unique (F.sound_right hs) (bounds_right hs hf hd).1 (bounds_right hs hf hd).2
    (bounds_right hs hf' he).1 (bounds_right hs hf' he).2
  obtain rfl := F.injective hf hf'
  obtain ⟨a, rfl, ha, -⟩ := hd
  obtain ⟨b, rfl, hb, -⟩ := he
  rw [Nat.add_left_cancel (ha.symm.trans hb)]

/-- Each declaration of the second batch has a counterpart. -/
theorem decl_onto (hd : d' < (upTo units' names units'.length).index.size) :
    ∃ d, F.Decl names d d' := by
  obtain ⟨j, hj, hle, hlt⟩ := file_of_decl hd
  obtain ⟨i, hf⟩ := F.onto hj
  obtain ⟨k, rfl⟩ := Nat.exists_eq_add_of_le hle
  obtain ⟨c, hc, hc'⟩ := (F.recorded hs hf).paired.agrees.size
  rw [hc'] at hlt
  refine ⟨_, i, j, hf, k, rfl, rfl, ?_⟩
  rw [hc]
  exact Nat.add_lt_add_left (Nat.lt_of_add_lt_add_left hlt) _

theorem after_left (hf : F.file i j) :
    (upTo units names (i + 1)).Precedes (upTo units names units.length) :=
  precedes hs (lt_length hf).1

theorem after_right (hf : F.file i j) :
    (upTo units' names (j + 1)).Precedes (upTo units' names units'.length) :=
  precedes (F.sound_right hs) (lt_length hf).2

/-- **What is recorded of corresponding declarations** corresponds. -/
theorem info (h : F.Decl names d d') : ∃ i i',
    (upTo units names units.length).index.get? d = some i ∧
    (upTo units' names units'.length).index.get? d' = some i' ∧
    DeclInfo.Alike names (upTo units names units.length).names
      (upTo units' names units'.length).names (F.Decl names) F.file (F.Number names) i i' ∧
    ∃ tree, treeAt units i.unit i.path = some tree ∧
      treeAt units' i'.unit i'.path = some (tree.restrict keep) := by
  obtain ⟨a, b, hf, hd⟩ := h
  have hleft : (upTo units names (a + 1)).Precedes (upTo units names units.length) :=
    after_left hs hf
  have hright : (upTo units' names (b + 1)).Precedes (upTo units' names units'.length) :=
    after_right hs hf
  obtain ⟨-, hlt⟩ := bounds_left hd
  obtain ⟨-, hlt'⟩ := bounds_right hs hf hd
  obtain ⟨k, rfl, rfl, -⟩ := hd
  obtain ⟨i, i', hi, hi', halike, htree⟩ := (F.recorded hs hf).paired.agrees.infos k hlt
  refine ⟨i, i', (hleft.get? _ hlt).trans hi, (hright.get? _ hlt').trans hi', ?_, htree⟩
  refine halike.mono hleft.names hright.names (fun _ _ hd => ⟨a, b, hf, hd⟩) ?_ ?_
  · rintro _ _ ⟨rfl, rfl⟩
    exact hf
  · rintro p n n' ⟨tree, htree, hstays⟩
    refine ⟨tree, ?_, hstays⟩
    rw [DeclIndex.tree?_eq] at htree ⊢
    obtain ⟨j, hj, hat⟩ := Option.bind_eq_some_iff.1 htree
    exact Option.bind_eq_some_iff.2 ⟨j, hleft.known p j hj, hat⟩

/-- The trees of corresponding declarations. -/
theorem tree (h : F.Decl names d d') : ∃ tree,
    (upTo units names units.length).index.tree? units d = some tree ∧
    (upTo units' names units'.length).index.tree? units' d' = some (tree.restrict keep) := by
  obtain ⟨i, i', hi, hi', -, tree, htree, htree'⟩ := info hs h
  refine ⟨tree, ?_, ?_⟩
  · rw [DeclIndex.tree?, hi]
    exact htree
  · rw [DeclIndex.tree?, hi']
    exact htree'

end Sound

/-- Among the entries of one file, those of corresponding members correspond. -/
theorem lookup_children {s : IndexState} {new new' : List ((DeclId × Nat) × DeclId)}
    (hall : List.Forall₂ ((F.side names i j).Children s) new new')
    (hd : (F.side names i j).Decl s d d') (hm : (F.side names i j).Number s d m m') :
    Option.Rel ((F.side names i j).Decl s) (new.lookup (d, m)) (new'.lookup (d', m')) := by
  induction hall with
  | nil => exact .none
  | @cons c c' rest rest' hc _ ih =>
    -- Corresponding members have the same key in both, so the first entry is found in both or in
    -- neither.
    have hkey : (d, m) = c.1 ↔ (d', m') = c'.1 := by
      obtain ⟨k, hk, hk', -⟩ := hd
      obtain ⟨l, hl, hl', -⟩ := hc.parent
      obtain ⟨tree, htree, hstays⟩ := hm
      obtain ⟨tree', htree', hstays'⟩ := hc.number
      constructor
      · intro heq
        have hdc : d = c.1.1 := congrArg Prod.fst heq
        have hmc : m = c.1.2 := congrArg Prod.snd heq
        rw [← hdc, htree] at htree'
        cases htree'
        rw [← hmc] at hstays'
        have hkl : k = l := Nat.add_left_cancel (hk.symm.trans (hdc.trans hl))
        exact Prod.ext (by rw [hk', hkl, ← hl']) (hstays.functional hstays')
      · intro heq
        have hdc : d' = c'.1.1 := congrArg Prod.fst heq
        have hmc : m' = c'.1.2 := congrArg Prod.snd heq
        have hkl : k = l := Nat.add_left_cancel (hk'.symm.trans (hdc.trans hl'))
        have hcd : d = c.1.1 := by rw [hk, hkl, ← hl]
        rw [← hcd, htree] at htree'
        cases htree'
        rw [← hmc] at hstays'
        exact Prod.ext hcd (hstays.injective hstays')
    obtain ⟨key, child⟩ := c
    obtain ⟨key', child'⟩ := c'
    rw [List.lookup_cons, List.lookup_cons]
    by_cases heq : (d, m) = key
    · rw [beq_iff_eq.2 heq, beq_iff_eq.2 (hkey.1 heq)]
      exact .some hc.child
    · rw [beq_eq_false_iff_ne.2 heq, beq_eq_false_iff_ne.2 fun h => heq (hkey.2 h)]
      exact ih

/-- No member of a declaration has an entry before the declaration is known. -/
theorem child?_none (hs : ∀ u ∈ units, u.Sound names False) {k : Nat}
    (hd : (upTo units names k).index.size ≤ d) (m : Nat) :
    (upTo units names k).index.child? d m = none := by
  cases hc : (upTo units names k).index.child? d m with
  | none => rfl
  | some c =>
    obtain ⟨i, hi, -, hlt, -⟩ := (sound_upTo hs k).1.1.children d m c hc
    have hsize := DeclIndex.lt_size_of_known? (Option.isSome_iff_exists.2 ⟨i, hi⟩)
    exact absurd (Nat.lt_trans (hlt d rfl) hsize) (Nat.not_lt.2 hd)

/-- **What corresponding members declare** corresponds. -/
theorem child (hs : ∀ u ∈ units, u.Sound names False) (h : F.Decl names d d')
    (hm : F.Number names d m m') :
    Option.Rel (F.Decl names) ((upTo units names units.length).index.child? d m)
      ((upTo units' names units'.length).index.child? d' m') := by
  obtain ⟨a, b, hf, hd⟩ := h
  obtain ⟨hle, hlt⟩ := bounds_left hd
  obtain ⟨hle', hlt'⟩ := bounds_right hs hf hd
  obtain ⟨new, new', hnew, hnew', hall⟩ := (F.recorded hs hf).paired.agrees.children
  have hnone := child?_none hs hle m
  have hnone' := child?_none (F.sound_right hs) hle' m'
  rw [(after_left hs hf).child? d hlt, (after_right hs hf).child? d' hlt', DeclIndex.child?,
    DeclIndex.child?, hnew, hnew', List.lookup_append, List.lookup_append]
  rw [DeclIndex.child?] at hnone hnone'
  change Option.Rel _ (((upTo units names a).index.children.lookup (d, m)).or _)
    (((upTo units' names b).index.children.lookup (d', m')).or _)
  rw [hnone, hnone', Option.none_or, Option.none_or]
  have hnumber : (F.side names a b).Number (upTo units names (a + 1)) d m m' := by
    obtain ⟨tree, htree, hstays⟩ := hm
    refine ⟨tree, ?_, hstays⟩
    rw [DeclIndex.tree?, (after_left hs hf).get? d hlt] at htree
    exact htree
  exact Option.Rel.mono (lookup_children hall hd hnumber) fun _ _ hc => ⟨a, b, hf, hc⟩

end FileTwins

end JavaAbi
