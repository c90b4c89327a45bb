import JavaAbi.Model.Index
import JavaAbi.Proofs.Courses
import JavaAbi.Proofs.ParsedTrees

namespace JavaAbi

/-!
# The index of a batch

What the index records of the declarations of a batch fits together: each has a tree, encloses only
later ones, and stands where its parent says. A declaration that is found by name has that name, and
so has, up to the top, each declaration around it.

* `DeclIndex.Sound` — the facts; `DeclIndex.Entered` — which declarations are found by their names;
* `Indexing.addDecl_yields` — numbering a declaration keeps them;
* `DeclIndex.sound_ofUnits` — so they hold of the index of every batch of sound trees.
-/

/-! ### Paths -/

theorem TypeDecl.follow?_append {path rest : List Nat} {d : TypeDecl} :
    follow? (path ++ rest) d = (follow? path d).bind (follow? rest) := by
  induction path generalizing d with
  | nil => rfl
  | cons i path ih =>
    rw [List.cons_append, follow?, follow?]
    split
    · exact ih
    · exact ih
    · rfl

theorem treeAt_append {units : List CompilationUnit} {unit : Nat} {path : List Nat}
    {tree : TypeDecl} (h : treeAt units unit path = some tree) (i : Nat) :
    treeAt units unit (path ++ [i]) = TypeDecl.follow? [i] tree := by
  match path with
  | first :: rest =>
    rw [treeAt] at h
    rw [List.cons_append, treeAt]
    obtain ⟨u, hu, h⟩ := Option.bind_eq_some_iff.1 h
    obtain ⟨top, htop, h⟩ := Option.bind_eq_some_iff.1 h
    simp only [hu, htop, Option.bind_eq_bind, Option.bind_some]
    rw [TypeDecl.follow?_append, h]
    rfl

/-- A member type stands below its declaration. -/
theorem treeAt_member {units : List CompilationUnit} {unit : Nat} {path : List Nat}
    {tree t : TypeDecl} {i : Nat} (h : treeAt units unit path = some tree)
    (hm : tree.members[i]? = some (.type t)) : treeAt units unit (path ++ [i]) = some t := by
  rw [treeAt_append h, TypeDecl.follow?, hm]
  rfl

/-- So does the body of a constant. -/
theorem treeAt_body {units : List CompilationUnit} {unit : Nat} {path : List Nat}
    {tree t : TypeDecl} {i : Nat} {n : Name} {sp : Span}
    (h : treeAt units unit path = some tree)
    (hm : tree.members[i]? = some (.constant n (some t) sp)) :
    treeAt units unit (path ++ [i]) = some t := by
  rw [treeAt_append h, TypeDecl.follow?, hm]
  rfl

/-! ### Sound indexes -/

/-- What is recorded of a declaration and does not change: all but its member types, which are
    recorded last. -/
def DeclInfo.fixed (i : DeclInfo) : DeclInfo := { i with memberTypes := [] }

/-- What is known for good of a declaration. -/
def DeclIndex.known? (x : DeclIndex) (d : DeclId) : Option DeclInfo :=
  (x.get? d).map DeclInfo.fixed

/-- A declaration, if there is one, has a canonical name. -/
def HasName (known : DeclId → Option DeclInfo) (parent : Option DeclId) : Prop :=
  ∀ p ∈ parent, ∃ n i, known p = some i ∧ i.qualifiedName = .named n

/-- A declaration is known, and has a parent. If it has a canonical name, so has the parent, and the
    name is found, unless the parent is not found by any name. -/
def ChildOf (known : DeclId → Option DeclInfo) (find : Name → Option DeclId)
    (parent : Option DeclId) (d : DeclId) : Prop :=
  ∃ i, known d = some i ∧ i.parent = parent ∧ (∀ p ∈ parent, p < d) ∧
    ∀ n, i.qualifiedName = .named n → HasName known parent ∧
      ((find n).isSome ∨ ∃ p ∈ parent, ∀ m, find m ≠ some p)

/-- Member `m` of the parent of a declaration is an enum constant. -/
def InConstant (known : DeclId → Option DeclInfo) (units : List CompilationUnit)
    (parent : Option DeclId) (m : Nat) : Prop :=
  ∃ p i tree n body sp, parent = some p ∧ known p = some i ∧
    treeAt units i.unit i.path = some tree ∧ tree.members[m]? = some (.constant n body sp)

/-- The parent of a declaration, if it has one, is found under its own name. -/
def Reached (known : DeclId → Option DeclInfo) (find : Name → Option DeclId)
    (parent : Option DeclId) : Prop :=
  ∀ p ∈ parent, ∃ n i, known p = some i ∧ i.qualifiedName = .named n ∧ find n = some p

/-- What is recorded of a declaration fits the trees and the other declarations. -/
structure DeclInfo.Fits (known : DeclId → Option DeclInfo) (find : Name → Option DeclId)
    (units : List CompilationUnit) (t : NameTable) (d : DeclId) (i : DeclInfo) : Prop where
  parent : ∀ p ∈ i.parent, p < d ∧ (known p).isSome
  tree : (treeAt units i.unit i.path).isSome
  nameSpan : ∀ tree ∈ treeAt units i.unit i.path, i.nameSpan = tree.head.nameSpan
  simple : ∀ tree ∈ treeAt units i.unit i.path, i.simpleName = tree.head.name.getD .empty
  constant : ∀ m ∈ i.constant, InConstant known units i.parent m
  body : ∀ tree ∈ treeAt units i.unit i.path, i.constant.isSome → tree.head.IsBody
  simpleName : t.Issued i.simpleName
  qualified : ∀ n ∈ i.qualifiedName.name?, t.Issued n
  typeParams : ∀ n ∈ i.typeParams, t.Issued n
  memberTypes : ∀ c ∈ i.memberTypes, ChildOf known find (some d) c

/-- The names among the imports of a file are names of a table. A single-type import is listed under
    what its name ends in. -/
structure UnitImports.Issued (t : NameTable) (u : UnitImports) : Prop where
  single : ∀ i ∈ u.single, t.EndsIn i.2 i.1
  onDemand : ∀ n ∈ u.onDemand, t.Issued n

/-- An index fits a batch and a name table. -/
structure DeclIndex.Sound (units : List CompilationUnit) (t : NameTable) (x : DeclIndex) :
    Prop where
  infos : ∀ d i, x.get? d = some i → i.Fits x.known? x.find? units t d
  named : ∀ n d, x.find? n = some d → ∃ i, x.known? d = some i ∧ i.qualifiedName = .named n ∧
    i.constant = none ∧ Reached x.known? x.find? i.parent
  children : ∀ d m c, x.child? d m = some c → ChildOf x.known? x.find? (some d) c
  topLevel : ∀ d ∈ x.topLevel, ChildOf x.known? x.find? none d
  packages : ∀ p ∈ x.packages, ∀ n ∈ p, t.Issued n
  imports : ∀ u ∈ x.imports, u.Issued t
  duplicates : ∀ e ∈ x.duplicates, (x.known? e.1).isSome ∧ (x.known? e.2).isSome

theorem DeclIndex.lt_size_of_known? {x : DeclIndex} {d : DeclId} (h : (x.known? d).isSome) :
    d < x.size := by
  rw [known?, Option.isSome_map] at h
  obtain ⟨i, hi⟩ := Option.isSome_iff_exists.1 h
  exact (Array.getElem?_eq_some_iff.1 hi).1

/-- The parent of a declaration is known before it. -/
theorem DeclIndex.Sound.parent_lt {units : List CompilationUnit} {t : NameTable}
    {x : DeclIndex} {d p : DeclId} {i : DeclInfo} (h : x.Sound units t)
    (hi : x.known? d = some i) (hp : p ∈ i.parent) : p < d := by
  obtain ⟨j, hj, rfl⟩ := Option.map_eq_some_iff.1 hi
  exact ((h.infos d j hj).parent p hp).1

/-- Of the first `size` declarations, each whose parent is found under its own name is found under
    its name, unless it is reported as a duplicate of an earlier one. -/
structure DeclIndex.Entered (x : DeclIndex) (size : Nat) : Prop where
  reached : ∀ d < size, ∀ i n, x.known? d = some i → i.qualifiedName = .named n →
    Reached x.known? x.find? i.parent →
      x.find? n = some d ∨ ∃ first, x.find? n = some first ∧ (d, first) ∈ x.duplicates
  earlier : ∀ e ∈ x.duplicates, e.2 < e.1 ∧ ∃ i n, x.known? e.1 = some i ∧
    i.qualifiedName = .named n ∧ x.find? n = some e.2 ∧ Reached x.known? x.find? i.parent

theorem DeclIndex.Entered.congr {x y : DeclIndex} {size size' : Nat} (h : x.Entered size)
    (hk : y.known? = x.known?) (hf : y.find? = x.find?) (hd : y.duplicates = x.duplicates)
    (hs : size' = size) : y.Entered size' where
  reached := by
    rw [hk, hf, hd, hs]
    exact h.reached
  earlier := by
    rw [hk, hf, hd]
    exact h.earlier

/-! ### Growth -/

/-- What one index knows, another knows. -/
def Extends (known known' : DeclId → Option DeclInfo) : Prop :=
  ∀ d i, known d = some i → known' d = some i

/-- What is found by name is still found, and what is found in addition comes after the first `size`
    declarations. -/
structure Enters (find find' : Name → Option DeclId) (size : Nat) : Prop where
  old : ∀ n d, find n = some d → find' n = some d
  new : ∀ n d, find' n = some d → find n = some d ∨ size ≤ d

section Extend

variable {known known' : DeclId → Option DeclInfo} {find find' : Name → Option DeclId}
  {units : List CompilationUnit} {t u : NameTable} {parent : Option DeclId} {d : DeclId} {size : Nat}

theorem Enters.refl (find : Name → Option DeclId) (size : Nat) : Enters find find size :=
  ⟨fun _ _ h => h, fun _ _ h => .inl h⟩

theorem Enters.trans {find'' : Name → Option DeclId} {size' : Nat} (h : Enters find find' size)
    (h' : Enters find' find'' size') (hle : size ≤ size') : Enters find find'' size where
  old n d hd := h'.old n d (h.old n d hd)
  new n d hd := by
    rcases h'.new n d hd with hd | hd
    · exact h.new n d hd
    · exact .inr (Nat.le_trans hle hd)

theorem Extends.refl (known : DeclId → Option DeclInfo) : Extends known known := fun _ _ h => h

theorem Extends.trans {known'' : DeclId → Option DeclInfo} (h : Extends known known')
    (h' : Extends known' known'') : Extends known known'' := fun d i hd => h' d i (h d i hd)

theorem Extends.isSome (h : Extends known known') (hd : (known d).isSome) : (known' d).isSome := by
  obtain ⟨i, hi⟩ := Option.isSome_iff_exists.1 hd
  exact Option.isSome_iff_exists.2 ⟨i, h d i hi⟩

theorem HasName.extend (hn : HasName known parent) (h : Extends known known') :
    HasName known' parent := by
  intro p hp
  obtain ⟨n, i, hi, hq⟩ := hn p hp
  exact ⟨n, i, h p i hi, hq⟩

theorem ChildOf.extend (hc : ChildOf known find parent d) (h : Extends known known')
    (hf : Enters find find' size) (hd : d ≤ size) : ChildOf known' find' parent d := by
  obtain ⟨i, hi, hp, hlt, hname⟩ := hc
  refine ⟨i, h d i hi, hp, hlt, fun n hn => ⟨(hname n hn).1.extend h, ?_⟩⟩
  rcases (hname n hn).2 with hfound | ⟨p, hpp, hnot⟩
  · obtain ⟨e, he⟩ := Option.isSome_iff_exists.1 hfound
    exact .inl (Option.isSome_iff_exists.2 ⟨e, hf.old n e he⟩)
  · refine .inr ⟨p, hpp, fun m hm => ?_⟩
    rcases hf.new m p hm with hm | hm
    · exact hnot m hm
    · exact absurd (Nat.lt_of_lt_of_le (Nat.lt_of_lt_of_le (hlt p hpp) hd) hm) (Nat.lt_irrefl _)

theorem InConstant.extend {m : Nat} (hc : InConstant known units parent m)
    (h : Extends known known') : InConstant known' units parent m := by
  obtain ⟨p, i, tree, n, body, sp, hp, hi, htree, hm⟩ := hc
  exact ⟨p, i, tree, n, body, sp, hp, h p i hi, htree, hm⟩

theorem Reached.extend (hr : Reached known find parent) (h : Extends known known')
    (hf : Enters find find' size) : Reached known' find' parent := by
  intro p hp
  obtain ⟨n, i, hi, hq, hn⟩ := hr p hp
  exact ⟨n, i, h p i hi, hq, hf.old n p hn⟩

theorem DeclInfo.Fits.extend {i : DeclInfo} (hf : i.Fits known find units t d)
    (h : Extends known known') (hle : t.Le u) (he : Enters find find' size)
    (hsize : ∀ c, (known c).isSome → c ≤ size) : i.Fits known' find' units u d where
  parent p hp := ⟨(hf.parent p hp).1, h.isSome (hf.parent p hp).2⟩
  tree := hf.tree
  nameSpan := hf.nameSpan
  simple := hf.simple
  constant m hm := (hf.constant m hm).extend h
  body := hf.body
  simpleName := hf.simpleName.le hle
  qualified n hn := (hf.qualified n hn).le hle
  typeParams n hn := (hf.typeParams n hn).le hle
  memberTypes c hc := by
    obtain ⟨j, hj, hrest⟩ := hf.memberTypes c hc
    exact ChildOf.extend ⟨j, hj, hrest⟩ h he (hsize c (Option.isSome_iff_exists.2 ⟨j, hj⟩))

theorem UnitImports.Issued.le {i : UnitImports} (h : i.Issued t) (hle : t.Le u) : i.Issued u :=
  ⟨fun e he => (h.single e he).le hle, fun n hn => (h.onDemand n hn).le hle⟩

theorem DeclIndex.Sound.le {x : DeclIndex} (h : x.Sound units t) (hle : t.Le u) :
    x.Sound units u where
  infos d i hd :=
    (h.infos d i hd).extend (.refl _) hle (.refl _ x.size) fun _ hc => Nat.le_of_lt (x.lt_size_of_known? hc)
  named := h.named
  children := h.children
  topLevel := h.topLevel
  packages p hp n hn := (h.packages p hp n hn).le hle
  imports i hi := (h.imports i hi).le hle
  duplicates := h.duplicates

end Extend

theorem Extends.size_le {x y : DeclIndex} (h : Extends x.known? y.known?) : x.size ≤ y.size := by
  cases hx : x.size with
  | zero => exact Nat.zero_le _
  | succ k =>
    have hk : k < x.decls.size := by
      show k < x.size
      omega
    have hknown : (x.known? k).isSome := by
      rw [DeclIndex.known?, DeclIndex.get?, Array.getElem?_eq_getElem hk]
      rfl
    exact y.lt_size_of_known? (h.isSome hknown)

/-- How an index under construction changes. -/
structure IndexState.Grows (s t : IndexState) : Prop where
  names : s.names.Le t.names
  known : Extends s.index.known? t.index.known?
  entered : Enters s.index.find? t.index.find? s.index.size

theorem IndexState.Grows.refl (s : IndexState) : s.Grows s := ⟨.refl _, .refl _, .refl _ _⟩

theorem IndexState.Grows.trans {s t u : IndexState} (h : s.Grows t) (h' : t.Grows u) : s.Grows u :=
  ⟨h.names.trans h'.names, h.known.trans h'.known, h.entered.trans h'.entered h.known.size_le⟩

theorem IndexState.Grows.childOf {s t : IndexState} (h : s.Grows t) {parent : Option DeclId}
    {d : DeclId} (hd : ChildOf s.index.known? s.index.find? parent d) :
    ChildOf t.index.known? t.index.find? parent d := by
  obtain ⟨i, hi, hrest⟩ := hd
  exact ChildOf.extend ⟨i, hi, hrest⟩ h.known h.entered
    (Nat.le_of_lt (DeclIndex.lt_size_of_known? (Option.isSome_iff_exists.2 ⟨i, hi⟩)))

/-- The course of indexing: sound indexes that learn more. -/
def indexing (units : List CompilationUnit) : Course IndexState where
  Sound s := s.index.Sound units s.names ∧ s.index.Entered s.index.size
  Grows := IndexState.Grows
  refl := .refl
  trans := .trans

namespace Indexing

variable {units : List CompilationUnit} {s : IndexState}

/-! ### Names -/

theorem qualify_yields {outer : Option Name} {simple : Name}
    (ho : ∀ o ∈ outer, s.names.Issued o) (hs : s.names.Proper simple) :
    (indexing units).Yields s (qualify outer simple) fun n t => t.names.EndsIn n simple := by
  obtain ⟨n, u, hq, hle, hn⟩ := NameTable.qualify?_eq_some ho hs.1 hs.2
  have hq' : s.names.qualify outer simple = (n, u) := by rw [NameTable.qualify, hq]; rfl
  unfold qualify
  refine .step (fun h => ?_) (fun _ => ?_) (fun _ => ?_)
  · rw [hq']
    exact ⟨h.1.le hle, h.2⟩
  · rw [hq']
    exact ⟨hle, .refl _, .refl _ _⟩
  · rw [hq']
    exact NameTable.endsIn_of_joined hs.1 hle hn

/-- The name of a path ends in its last segment. -/
theorem qualifyPath_yields {path : List Name} {outer : Option Name}
    (ho : ∀ o ∈ outer, s.names.Issued o) (hs : ∀ n ∈ path, s.names.Proper n) :
    (indexing units).Yields s (qualifyPath outer path) fun r t => ∀ n ∈ r,
      t.names.Issued n ∧ ∀ last ∈ path.getLast?, t.names.EndsIn n last := by
  induction path generalizing s outer with
  | nil => exact .pure fun _ n hn => ⟨ho n hn, fun last hlast => by cases hlast⟩
  | cons first rest ih =>
    refine (qualify_yields ho (hs first List.mem_cons_self)).bind fun n t _ hg hn => ?_
    have hissued : ∀ o ∈ some n, t.names.Issued o := fun _ ho => Option.some.inj ho ▸ hn.1
    cases rest with
    | nil =>
      refine .pure fun _ m hm => ?_
      obtain rfl := Option.some.inj hm
      exact ⟨hn.1, fun last hlast => Option.some.inj hlast ▸ hn⟩
    | cons second rest =>
      refine (ih hissued fun m hm => (hs m (List.mem_cons_of_mem _ hm)).le hg.names).mono
        fun r u _ _ hr m hm => ⟨(hr m hm).1, fun last hlast => (hr m hm).2 last ?_⟩
      rwa [List.getLast?_cons_cons] at hlast

/-! ### Entries -/

theorem get?_push (x : DeclIndex) (info : DeclInfo) (d : DeclId) :
    DeclIndex.get? { x with decls := x.decls.push info } d
      = if d = x.size then some info else x.get? d := Array.getElem?_push

theorem known?_push (x : DeclIndex) {info : DeclInfo} (hm : info.memberTypes = []) (d : DeclId) :
    DeclIndex.known? { x with decls := x.decls.push info } d
      = if d = x.size then some info else x.known? d := by
  have hfixed : info.fixed = info := by rw [DeclInfo.fixed, ← hm]
  by_cases h : d = x.size
  · rw [if_pos h, h]
    show (x.decls.push info)[x.decls.size]?.map DeclInfo.fixed = _
    rw [Array.getElem?_push_size, Option.map_some, hfixed]
  · rw [if_neg h]
    show (x.decls.push info)[d]?.map DeclInfo.fixed = x.decls[d]?.map DeclInfo.fixed
    rw [Array.getElem?_push, if_neg (show ¬d = x.decls.size from h)]

theorem extends_push (x : DeclIndex) {info : DeclInfo} (hm : info.memberTypes = []) :
    Extends x.known? (DeclIndex.known? { x with decls := x.decls.push info }) := by
  intro d i h
  have hd : d ≠ x.size := by
    rintro rfl
    simp [DeclIndex.known?, DeclIndex.get?, DeclIndex.size] at h
  rw [known?_push x hm, if_neg hd]
  exact h

/-- A declaration that fits is added. -/
theorem sound_push {info : DeclInfo} (hs : s.index.Sound units s.names)
    (hm : info.memberTypes = [])
    (hf : info.Fits s.index.known? s.index.find? units s.names s.index.size) :
    DeclIndex.Sound units s.names { s.index with decls := s.index.decls.push info } := by
  have hext := extends_push s.index hm
  have hlt : ∀ c, (s.index.known? c).isSome → c ≤ s.index.size := fun _ hc =>
    Nat.le_of_lt (DeclIndex.lt_size_of_known? hc)
  have hchild {p : Option DeclId} {d : DeclId} (h : ChildOf s.index.known? s.index.find? p d) :
      ChildOf (DeclIndex.known? { s.index with decls := s.index.decls.push info })
        s.index.find? p d := by
    obtain ⟨i, hi, hrest⟩ := h
    exact ChildOf.extend ⟨i, hi, hrest⟩ hext (.refl _ s.index.size)
      (hlt d (Option.isSome_iff_exists.2 ⟨i, hi⟩))
  exact
    { infos := by
        intro d i hd
        simp only [DeclIndex.get?, Array.getElem?_push] at hd
        -- A declaration is the new one or was there before; what was said of it remains.
        split at hd
        · rename_i hsize
          cases hd
          rw [hsize]
          exact hf.extend hext (.refl _) (.refl _ _) hlt
        · exact (hs.infos d i hd).extend hext (.refl _) (.refl _ _) hlt
      named := by
        intro n d hn
        obtain ⟨i, hi, hq, hc, hr⟩ := hs.named n d hn
        exact ⟨i, hext d i hi, hq, hc, hr.extend hext (.refl _ s.index.size)⟩
      children := fun d m c hc => hchild (hs.children d m c hc)
      topLevel := fun d hd => hchild (hs.topLevel d hd)
      packages := hs.packages
      imports := hs.imports
      duplicates := fun e he =>
        ⟨hext.isSome (hs.duplicates e he).1, hext.isSome (hs.duplicates e he).2⟩ }

theorem entered_push {info : DeclInfo} (hs : s.index.Sound units s.names)
    (h : s.index.Entered s.index.size) (hm : info.memberTypes = []) :
    DeclIndex.Entered { s.index with decls := s.index.decls.push info } s.index.size where
  reached d hd i n hi hn hr := by
    rw [known?_push s.index hm, if_neg (Nat.ne_of_lt hd)] at hi
    refine h.reached d hd i n hi hn fun p hp => ?_
    obtain ⟨m, j, hj, hjm, hfound⟩ := hr p hp
    rw [known?_push s.index hm, if_neg ?_] at hj
    · exact ⟨m, j, hj, hjm, hfound⟩
    · exact Nat.ne_of_lt (Nat.lt_trans (hs.parent_lt hi hp) hd)
  earlier e he := by
    have hext := extends_push s.index hm
    obtain ⟨hlt, i, n, hi, hn, hfound, hr⟩ := h.earlier e he
    exact ⟨hlt, i, n, hext e.1 i hi, hn, hfound, hr.extend hext (.refl _ s.index.size)⟩

/-- A name that was free is found from now on. -/
theorem find?_enter {x : DeclIndex} {n : Name} {id : DeclId} (h : x.find? n = none) (m : Name) :
    DeclIndex.find? { x with byName := x.byName ++ [(n, id)] } m
      = if m = n then some id else x.find? m := by
  show (x.byName ++ [(n, id)]).lookup m = _
  rw [List.lookup_append]
  by_cases hm : m = n
  · rw [if_pos hm, hm]
    show (x.find? n).or _ = _
    rw [h]
    simp
  · rw [if_neg hm]
    have hne : (m == n) = false := by simpa using hm
    simp [List.lookup_cons, hne, DeclIndex.find?]

/-- The last declaration is entered under a name that is free. -/
theorem sound_enter {x : DeclIndex} {t : NameTable} {n : Name} {id : DeclId} {i : DeclInfo}
    (hs : x.Sound units t) (hfree : x.find? n = none) (hi : x.known? id = some i)
    (hsize : x.size = id + 1) (hq : i.qualifiedName = .named n) (hc : i.constant = none)
    (hr : Reached x.known? x.find? i.parent) :
    DeclIndex.Sound units t { x with byName := x.byName ++ [(n, id)] } ∧
      Enters x.find? (DeclIndex.find? { x with byName := x.byName ++ [(n, id)] }) id := by
  have hfind : ∀ m, DeclIndex.find? { x with byName := x.byName ++ [(n, id)] } m
      = if m = n then some id else x.find? m := find?_enter hfree
  have henters : Enters x.find? (DeclIndex.find? { x with byName := x.byName ++ [(n, id)] }) id :=
    { old := by
        intro m d hd
        rw [hfind, if_neg ?_]
        · exact hd
        · rintro rfl
          rw [hfree] at hd
          cases hd
      new := by
        intro m d hd
        rw [hfind] at hd
        split at hd
        · cases hd
          exact .inr (Nat.le_refl _)
        · exact .inl hd }
  -- All declarations have numbers up to that of the last one, so only it is entered newly.
  have hle : ∀ c, (x.known? c).isSome → c ≤ id := fun c hc => by
    have hlt := x.lt_size_of_known? hc
    rw [hsize] at hlt
    exact Nat.le_of_lt_succ hlt
  have hchild {p : Option DeclId} {d : DeclId} (h : ChildOf x.known? x.find? p d) :
      ChildOf x.known? (DeclIndex.find? { x with byName := x.byName ++ [(n, id)] }) p d := by
    obtain ⟨j, hj, hrest⟩ := h
    exact ChildOf.extend ⟨j, hj, hrest⟩ (.refl _) henters
      (hle d (Option.isSome_iff_exists.2 ⟨j, hj⟩))
  refine ⟨?_, henters⟩
  exact
    { infos := fun d j hj => (hs.infos d j hj).extend (.refl _) (.refl _) henters hle
      named := by
        intro m d hd
        rw [hfind] at hd
        split at hd
        · rename_i hm
          cases hd
          exact ⟨i, hi, hm ▸ hq, hc, hr.extend (.refl _) henters⟩
        · obtain ⟨j, hj, hjq, hjc, hjp⟩ := hs.named m d hd
          exact ⟨j, hj, hjq, hjc, hjp.extend (.refl _) henters⟩
      children := fun d m c hc => hchild (hs.children d m c hc)
      topLevel := fun d hd => hchild (hs.topLevel d hd)
      packages := hs.packages
      imports := hs.imports
      duplicates := hs.duplicates }

/-- A declaration entered under a free name is found by it, and the earlier ones are as before. -/
theorem entered_enter {x : DeclIndex} {t : NameTable} {n : Name} {id : DeclId} {i : DeclInfo}
    (hs : x.Sound units t) (h : x.Entered id) (hfree : x.find? n = none)
    (hi : x.known? id = some i) (hq : i.qualifiedName = .named n)
    (henters : Enters x.find? (DeclIndex.find? { x with byName := x.byName ++ [(n, id)] }) id) :
    DeclIndex.Entered { x with byName := x.byName ++ [(n, id)] } (id + 1) where
  reached d hd j m hj hm hr := by
    change x.known? d = some j at hj
    change Reached x.known? _ j.parent at hr
    simp only [find?_enter hfree]
    rcases Nat.lt_succ_iff_lt_or_eq.1 hd with hd | rfl
    · -- What is around an earlier declaration is not the one that has just got its name.
      have hr' : Reached x.known? x.find? j.parent := by
        intro p hp
        obtain ⟨o, k, hk, hko, hfound⟩ := hr p hp
        rw [find?_enter hfree] at hfound
        split at hfound
        · cases hfound
          exact absurd (Nat.lt_trans (hs.parent_lt hj hp) hd) (Nat.lt_irrefl _)
        · exact ⟨o, k, hk, hko, hfound⟩
      -- Names that were taken lead where they did.
      have hne : (x.find? m).isSome → m ≠ n := by
        rintro hsome rfl
        rw [hfree] at hsome
        cases hsome
      rcases h.reached d hd j m hj hm hr' with hfound | ⟨first, hfound, hdup⟩
      · rw [if_neg (hne (Option.isSome_of_mem hfound))]
        exact .inl hfound
      · rw [if_neg (hne (Option.isSome_of_mem hfound))]
        exact .inr ⟨first, hfound, hdup⟩
    · cases hi.symm.trans hj
      cases hq.symm.trans hm
      exact .inl (if_pos rfl)
  earlier e he := by
    obtain ⟨hlt, j, m, hj, hm, hfound, hr⟩ := h.earlier e he
    exact ⟨hlt, j, m, hj, hm, henters.old m e.2 hfound, hr.extend (.refl _) henters⟩

/-- A declaration whose name is taken is reported. -/
theorem entered_duplicate {x : DeclIndex} {n : Name} {id first : DeclId} {i : DeclInfo}
    (h : x.Entered id) (hfind : x.find? n = some first) (hlt : first < id)
    (hi : x.known? id = some i) (hq : i.qualifiedName = .named n)
    (hr : Reached x.known? x.find? i.parent) :
    DeclIndex.Entered { x with duplicates := x.duplicates ++ [(id, first)] } (id + 1) where
  reached d hd j m hj hm hr := by
    rcases Nat.lt_succ_iff_lt_or_eq.1 hd with hd | rfl
    · refine (h.reached d hd j m hj hm hr).imp_right fun ⟨e, hfound, hdup⟩ => ?_
      exact ⟨e, hfound, List.mem_append_left _ hdup⟩
    · cases hi.symm.trans hj
      cases hq.symm.trans hm
      exact .inr ⟨first, hfind, List.mem_append_right _ List.mem_cons_self⟩
  earlier e he := by
    rcases List.mem_append.1 he with he | he
    · exact h.earlier e he
    · cases List.mem_singleton.1 he
      exact ⟨hlt, i, n, hi, hq, hfind, hr⟩

/-- The last declaration need not be entered if it cannot be found by a name. -/
theorem entered_succ {x : DeclIndex} {id : DeclId} {i : DeclInfo} (h : x.Entered id)
    (hi : x.known? id = some i)
    (hno : ∀ n, i.qualifiedName = .named n → ¬Reached x.known? x.find? i.parent) :
    x.Entered (id + 1) where
  reached d hd j m hj hm hr := by
    rcases Nat.lt_succ_iff_lt_or_eq.1 hd with hd | rfl
    · exact h.reached d hd j m hj hm hr
    · cases hi.symm.trans hj
      exact absurd hr (hno m hm)
  earlier := h.earlier

/-- What entering a declaration under its name comes to. -/
structure EnteredAs (s t : IndexState) (id : DeclId) (name : QualifiedName)
    (tried reached : Bool) : Prop where
  names : t.names = s.names
  known : t.index.known? = s.index.known?
  entered : Enters s.index.find? t.index.find? id
  found : reached = true → ∀ n, name = .named n → t.index.find? n = some id
  hidden : reached = false → ∀ m, t.index.find? m ≠ some id
  taken : tried = true → ∀ n, name = .named n → (t.index.find? n).isSome

theorem enter_run {id : DeclId} {i : DeclInfo} {reachable : Bool} (hs : s.index.Sound units s.names)
    (he : s.index.Entered id) (hi : s.index.known? id = some i) (hsize : s.index.size = id + 1)
    (hnew : ∀ m, s.index.find? m ≠ some id)
    (hr : reachable = true → ∀ n, i.qualifiedName = .named n →
      i.constant = none ∧ Reached s.index.known? s.index.find? i.parent)
    (hno : reachable = false → ¬Reached s.index.known? s.index.find? i.parent) :
    ∃ r t, (enter id i.qualifiedName reachable).run s = (r, t) ∧ t.index.Sound units t.names ∧
      t.index.Entered (id + 1) ∧ EnteredAs s t id i.qualifiedName reachable r := by
  unfold enter
  split
  · rename_i n hq
    cases reachable with
    | false =>
      exact ⟨false, s, rfl, hs, entered_succ he hi fun _ _ => hno rfl, rfl, rfl, .refl _ _, nofun,
        fun _ => hnew, nofun⟩
    | true =>
      cases hfind : s.index.find? n with
      | some first =>
        -- The name is taken: the declaration is a duplicate of an earlier one.
        obtain ⟨j, hj, -⟩ := hs.named n first hfind
        have hlt : first < id := by
          have hfirst := s.index.lt_size_of_known? (Option.isSome_iff_exists.2 ⟨j, hj⟩)
          rw [hsize] at hfirst
          exact Nat.lt_of_le_of_ne (Nat.le_of_lt_succ hfirst) fun h => hnew n (h ▸ hfind)
        refine ⟨false, { s with index.duplicates := s.index.duplicates ++ [(id, first)] }, ?_, ?_,
          entered_duplicate he hfind hlt hi hq (hr rfl n hq).2, rfl, rfl, .refl _ _, nofun, fun _ => hnew, ?_⟩
        · simp only [Bool.not_true, Bool.false_eq_true, if_false, StateT.run_bind, StateT.run_get,
            pure_bind, hfind]
          rfl
        · refine { hs with duplicates := fun e he => ?_ }
          rcases List.mem_append.1 he with he | he
          · exact hs.duplicates e he
          · rw [List.mem_singleton.1 he]
            exact ⟨Option.isSome_iff_exists.2 ⟨i, hi⟩, Option.isSome_iff_exists.2 ⟨j, hj⟩⟩
        · rintro - m hm
          rw [hq] at hm
          cases hm
          exact Option.isSome_iff_exists.2 ⟨first, hfind⟩
      | none =>
        -- The name is free, and leads to the declaration from now on.
        obtain ⟨hc, hp⟩ := hr rfl n hq
        obtain ⟨hsound, henters⟩ := sound_enter hs hfind hi hsize hq hc hp
        have hself : DeclIndex.find?
            { s.index with byName := s.index.byName ++ [(n, id)] } n = some id :=
          (find?_enter hfind n).trans (if_pos rfl)
        refine ⟨true, { s with index.byName := s.index.byName ++ [(n, id)] }, ?_, hsound,
          entered_enter hs he hfind hi hq henters, rfl, rfl, henters, ?_, nofun, ?_⟩
        · simp only [Bool.not_true, Bool.false_eq_true, if_false, StateT.run_bind, StateT.run_get,
            pure_bind, hfind]
          rfl
        · rintro - m hm
          rw [hq] at hm
          cases hm
          exact hself
        · rintro - m hm
          rw [hq] at hm
          cases hm
          exact Option.isSome_iff_exists.2 ⟨id, hself⟩
  · rename_i hq
    exact ⟨reachable, s, rfl, hs, entered_succ he hi fun n hn => absurd hn (hq n), rfl, rfl,
      .refl _ _, fun _ n hn => absurd hn (hq n), fun _ => hnew, fun _ n hn => absurd hn (hq n)⟩

/-- **A declaration is numbered.** It is found under its name if what is around it is found under its
    own, unless the name is taken. -/
theorem number_yields {info : DeclInfo} {reachable : Bool} (hm : info.memberTypes = [])
    (hf : info.Fits s.index.known? s.index.find? units s.names s.index.size)
    (hr : reachable = true → ∀ n, info.qualifiedName = .named n →
      info.constant = none ∧ Reached s.index.known? s.index.find? info.parent)
    (hh : reachable = false → ∃ p ∈ info.parent, ∀ m, s.index.find? m ≠ some p) :
    (indexing units).Yields s (number info reachable) fun r t =>
      t.index.known? r.1 = some info ∧
      (r.2 = true → ∀ n, info.qualifiedName = .named n → t.index.find? n = some r.1) ∧
      (r.2 = false → ∀ m, t.index.find? m ≠ some r.1) ∧
      (reachable = true → ∀ n, info.qualifiedName = .named n → (t.index.find? n).isSome) := by
  rintro ⟨hs, he⟩
  let x : DeclIndex := { s.index with decls := s.index.decls.push info }
  have hext : Extends s.index.known? x.known? := extends_push s.index hm
  have hid : x.known? s.index.size = some info := (known?_push s.index hm _).trans (if_pos rfl)
  have hsize : x.size = s.index.size + 1 := Array.size_push ..
  -- No name leads to a number that was not there.
  have hnew : ∀ m, x.find? m ≠ some s.index.size := by
    intro m hm
    obtain ⟨j, hj, -⟩ := hs.named m s.index.size hm
    exact Nat.lt_irrefl _ (s.index.lt_size_of_known? (Option.isSome_iff_exists.2 ⟨j, hj⟩))
  have hreach : reachable = true → ∀ n, info.qualifiedName = .named n →
      info.constant = none ∧ Reached x.known? x.find? info.parent := fun h n hn =>
    ⟨(hr h n hn).1, (hr h n hn).2.extend hext (.refl _ s.index.size)⟩
  have hno : reachable = false → ¬Reached x.known? x.find? info.parent := by
    intro h hreached
    obtain ⟨p, hp, hnot⟩ := hh h
    obtain ⟨m, -, -, -, hfound⟩ := hreached p hp
    exact hnot m hfound
  obtain ⟨r, u, hrun, hu, heu, henter⟩ := enter_run (s := { s with index := x })
    (sound_push hs hm hf) (entered_push hs he hm) hid hsize hnew hreach hno
  have hsizes : u.index.size = s.index.size + 1 := by
    refine Nat.le_antisymm ?_ ?_
    · rw [← hsize]
      exact Extends.size_le (henter.known ▸ .refl _)
    · rw [← hsize]
      exact Extends.size_le (henter.known ▸ .refl _)
  refine ⟨(s.index.size, r), u, ?_, ⟨hu, hsizes ▸ heu⟩, ⟨?_, ?_, henter.entered⟩, ?_, henter.found,
    henter.hidden, henter.taken⟩
  · unfold number
    rw [StateT.run_bind]
    show ((enter s.index.size info.qualifiedName reachable >>= fun r =>
      pure (s.index.size, r)).run { s with index := x }) = _
    rw [StateT.run_bind, hrun]
    rfl
  · exact henter.names ▸ .refl _
  · exact henter.known ▸ hext
  · exact henter.known ▸ hid

/-- Entering a declaration under its name changes no more than which names are taken, and reports
    that declaration if it does not get its name. -/
theorem enter_eq (id : DeclId) (name : QualifiedName) (reachable : Bool) (s : IndexState) :
    ∃ r byName more, (enter id name reachable).run s = (r, { s with
        index.byName := byName, index.duplicates := s.index.duplicates ++ more }) ∧
      (more = [] ∨ ∃ first, more = [(id, first)]) := by
  -- Without a canonical name, or where it could not be found, nothing changes.
  have hsame (r : Bool) (h : (enter id name reachable).run s = (r, s)) :
      ∃ r byName more, (enter id name reachable).run s = (r, { s with
          index.byName := byName, index.duplicates := s.index.duplicates ++ more }) ∧
        (more = [] ∨ ∃ first, more = [(id, first)]) :=
    ⟨r, s.index.byName, [], by rw [h, List.append_nil], .inl rfl⟩
  cases name with
  | anonymous => exact hsame reachable rfl
  | notApplicable => exact hsame reachable rfl
  | named n =>
    cases reachable with
    | false => exact hsame false rfl
    | true =>
      unfold enter
      cases hfind : s.index.find? n with
      | some first =>
        refine ⟨false, s.index.byName, [(id, first)], ?_, .inr ⟨first, rfl⟩⟩
        simp only [Bool.not_true, Bool.false_eq_true, if_false, StateT.run_bind, StateT.run_get,
          pure_bind, hfind]
        rfl
      | none =>
        refine ⟨true, s.index.byName ++ [(n, id)], [], ?_, .inl rfl⟩
        simp only [Bool.not_true, Bool.false_eq_true, if_false, StateT.run_bind, StateT.run_get,
          pure_bind, hfind, List.append_nil]
        rfl

theorem addChild_yields {parent member child : Nat}
    (hc : ChildOf s.index.known? s.index.find? (some parent) child) :
    (indexing units).Yields s (addChild parent member child) fun _ _ => True := by
  refine .step (fun ⟨h, he⟩ => ⟨?_, he.congr rfl rfl rfl rfl⟩)
    (fun _ => ⟨.refl _, .refl _, .refl _ _⟩) fun _ => trivial
  refine { h with children := fun d m c hd => ?_ }
  have hd' : ((s.index.children ++ [((parent, member), child)]).lookup (d, m)) = some c := hd
  rw [List.lookup_append] at hd'
  cases ho : s.index.children.lookup (d, m) with
  | some c' =>
    rw [ho] at hd'
    cases hd'
    exact h.children d m c ho
  | none =>
    rw [ho, Option.none_or, List.lookup_cons] at hd'
    split at hd'
    · rename_i heq
      cases hd'
      cases eq_of_beq heq
      exact hc
    · cases hd'

theorem get?_setMemberTypes (x : DeclIndex) (id d : DeclId) (types : List DeclId) :
    DeclIndex.get? { x with
        decls := x.decls.modify id fun i => { i with memberTypes := types } } d
      = if id = d then (x.get? d).map fun i => { i with memberTypes := types } else x.get? d :=
  Array.getElem?_modify

theorem known?_setMemberTypes (x : DeclIndex) (id : DeclId) (types : List DeclId) :
    DeclIndex.known? { x with
        decls := x.decls.modify id fun i => { i with memberTypes := types } } = x.known? := by
  funext d
  rw [DeclIndex.known?, get?_setMemberTypes, DeclIndex.known?]
  split
  · rw [Option.map_map]
    rfl
  · rfl

theorem setMemberTypes_yields {id : DeclId} {types : List DeclId}
    (ht : ∀ c ∈ types, ChildOf s.index.known? s.index.find? (some id) c) :
    (indexing units).Yields s (setMemberTypes id types) fun _ _ => True := by
  have hknown := known?_setMemberTypes s.index id types
  have hsize : (s.index.decls.modify id fun d => { d with memberTypes := types }).size =
      s.index.size := Array.size_modify ..
  refine .step (fun ⟨h, he⟩ => ⟨?_, ?_⟩) (fun _ => ⟨.refl _, ?_, .refl _ _⟩) fun _ => trivial
  · exact
      { infos := by
          intro d i hd
          rw [hknown]
          simp only [DeclIndex.get?, Array.getElem?_modify] at hd
          -- The entry of the declaration itself is the only other one.
          split at hd
          · rename_i hid
            obtain ⟨j, hj, rfl⟩ := Option.map_eq_some_iff.1 hd
            exact { h.infos d j hj with memberTypes := fun c hc => hid ▸ ht c hc }
          · exact h.infos d i hd
        named := by
          rw [hknown]
          exact h.named
        children := by
          rw [hknown]
          exact h.children
        topLevel := by
          rw [hknown]
          exact h.topLevel
        packages := h.packages
        imports := h.imports
        duplicates := by
          rw [hknown]
          exact h.duplicates }
  · exact he.congr hknown rfl rfl hsize
  · rw [hknown]
    exact .refl _

/-! ### Declarations -/

/-- A place where a declaration can be numbered. -/
structure Place.Fits (units : List CompilationUnit) (s : IndexState) (place : Place)
    (tree : TypeDecl) : Prop where
  body : place.constant.isSome → tree.head.IsBody
  tree : treeAt units place.unit place.path = some tree
  parent : ∀ p ∈ place.parent, p < s.index.size ∧ (s.index.known? p).isSome
  constant : ∀ m ∈ place.constant, InConstant s.index.known? units place.parent m
  qualified : ∀ n ∈ place.qualifiedName.name?, s.names.Issued n
  reachable : place.reachable = true → ∀ n, place.qualifiedName = .named n →
    place.constant = none ∧ Reached s.index.known? s.index.find? place.parent
  hidden : place.reachable = false → ∃ p ∈ place.parent, ∀ m, s.index.find? m ≠ some p
  named : ∀ n, place.qualifiedName = .named n → HasName s.index.known? place.parent

/-- What is entered for the declaration of this header. -/
def Place.entry (place : Place) (head : DeclHead) : DeclInfo where
  unit := place.unit
  parent := place.parent
  path := place.path
  simpleName := head.name.getD .empty
  qualifiedName := place.qualifiedName
  typeParams := head.typeParams.map TypeParam.name
  nameSpan := head.nameSpan
  constant := place.constant

theorem addDecl_eq (place : Place) (head : DeclHead) (members : List Member) :
    addDecl place (.mk head members) = (do
      let (id, reachable) ← number (place.entry head) place.reachable
      let types ← addMembers { place with parent := some id, reachable } id 0 members
      setMemberTypes id types
      return id) := by
  rw [addDecl]
  rfl

/-- The simple name that is entered is a name of the table. -/
theorem Place.entry_simpleName {t : NameTable} {clean : Prop} {place : Place} {head : DeclHead}
    (h : head.Sound t clean) : t.Issued (place.entry head).simpleName := by
  show t.Issued (head.name.getD .empty)
  cases hn : head.name with
  | none => exact t.issued_empty
  | some n => exact (h.name n hn).1

/-- So are the type parameters. -/
theorem Place.entry_typeParams {t : NameTable} {clean : Prop} {place : Place} {head : DeclHead}
    (h : head.Sound t clean) : ∀ n ∈ (place.entry head).typeParams, t.Issued n := by
  intro n hn
  obtain ⟨p, hp, rfl⟩ := List.mem_map.1 hn
  exact (h.typeParams p hp).1

theorem Place.Fits.entry {place : Place} {head : DeclHead} {members : List Member} {clean : Prop}
    (h : place.Fits units s (.mk head members)) (hs : head.Sound s.names clean) :
    (place.entry head).Fits s.index.known? s.index.find? units s.names s.index.size where
  parent := h.parent
  tree := Option.isSome_iff_exists.2 ⟨_, h.tree⟩
  nameSpan found hfound := by
    cases h.tree.symm.trans hfound
    rfl
  simple found hfound := by
    cases h.tree.symm.trans hfound
    rfl
  constant := h.constant
  body found hfound hc := by
    cases h.tree.symm.trans hfound
    exact h.body hc
  simpleName := entry_simpleName hs
  qualified := h.qualified
  typeParams := entry_typeParams hs
  memberTypes c hc := nomatch hc

/-- A declaration that has been numbered is a child of the declaration around it. -/
theorem Place.Fits.childOf {place : Place} {tree : TypeDecl} {id : DeclId} {u : IndexState}
    (h : place.Fits units s tree) (hg : (indexing units).Grows s u)
    (hu : u.index.Sound units u.names)
    (hid : u.index.known? id = some (place.entry tree.head))
    (htaken : place.reachable = true → ∀ n, place.qualifiedName = .named n →
      (u.index.find? n).isSome) :
    ChildOf u.index.known? u.index.find? place.parent id := by
  refine ⟨_, hid, rfl, ?_, fun n hn => ⟨(h.named n hn).extend hg.known, ?_⟩⟩
  · obtain ⟨j, hj, hji⟩ := Option.map_eq_some_iff.1 hid
    have hparent : j.parent = place.parent := congrArg DeclInfo.parent hji
    rw [← hparent]
    exact fun p hp => ((hu.infos id j hj).parent p hp).1
  · cases hr : place.reachable with
    | true => exact .inl (htaken hr n hn)
    | false =>
      -- The declaration around it is not found, and stays so.
      obtain ⟨p, hpp, hnot⟩ := h.hidden hr
      refine .inr ⟨p, hpp, fun m hm => ?_⟩
      rcases hg.entered.new m p hm with hm | hle
      · exact hnot m hm
      · exact Nat.lt_irrefl _ (Nat.lt_of_lt_of_le (h.parent p hpp).1 hle)

/-- The place of what the declaration `id` encloses. -/
structure Place.Around (units : List CompilationUnit) (s : IndexState) (outer : Place)
    (id : DeclId) (tree : TypeDecl) : Prop where
  tree : treeAt units outer.unit outer.path = some tree
  parent : outer.parent = some id
  known : ∃ i, s.index.known? id = some i ∧ i.unit = outer.unit ∧ i.path = outer.path ∧
    i.qualifiedName = outer.qualifiedName
  qualified : ∀ n ∈ outer.qualifiedName.name?, s.names.Issued n
  reachable : outer.reachable = true → ∀ o, outer.qualifiedName = .named o →
    s.index.find? o = some id
  hidden : outer.reachable = false → ∀ m, s.index.find? m ≠ some id

theorem Place.Around.grow {outer : Place} {id : DeclId} {tree : TypeDecl} {t : IndexState}
    (h : outer.Around units s id tree) (hg : (indexing units).Grows s t) :
    outer.Around units t id tree where
  tree := h.tree
  parent := h.parent
  known := by
    obtain ⟨i, hi, hu, hp, hq⟩ := h.known
    exact ⟨i, hg.known id i hi, hu, hp, hq⟩
  qualified n hn := (h.qualified n hn).le hg.names
  reachable hr o ho := hg.entered.old o id (h.reachable hr o ho)
  hidden hr m hm := by
    obtain ⟨i, hi, -⟩ := h.known
    rcases hg.entered.new m id hm with hm | hle
    · exact h.hidden hr m hm
    · have hlt := s.index.lt_size_of_known? (Option.isSome_iff_exists.2 ⟨i, hi⟩)
      exact Nat.lt_irrefl _ (Nat.lt_of_lt_of_le hlt hle)

/-- Inside a declaration, the parent is known. -/
theorem Place.Around.parent_known {outer : Place} {id : DeclId} {tree : TypeDecl}
    (h : outer.Around units s id tree) :
    ∀ p ∈ outer.parent, p < s.index.size ∧ (s.index.known? p).isSome := by
  obtain ⟨i, hi, -⟩ := h.known
  rw [h.parent]
  rintro _ ⟨⟩
  have hk := Option.isSome_iff_exists.2 ⟨i, hi⟩
  exact ⟨s.index.lt_size_of_known? hk, hk⟩

/-- Inside a declaration with a canonical name, the parent has one. -/
theorem Place.Around.hasName {outer : Place} {id : DeclId} {tree : TypeDecl} {o : Name}
    (h : outer.Around units s id tree) (ho : outer.qualifiedName = .named o) :
    HasName s.index.known? outer.parent := by
  obtain ⟨i, hi, -, -, hq⟩ := h.known
  rw [h.parent]
  rintro _ ⟨⟩
  exact ⟨o, i, hi, hq.trans ho⟩

/-- Inside a declaration that is found under its name, the parent is found under its own. -/
theorem Place.Around.reached {outer : Place} {id : DeclId} {tree : TypeDecl} {o : Name}
    (h : outer.Around units s id tree) (hr : outer.reachable = true)
    (ho : outer.qualifiedName = .named o) :
    Reached s.index.known? s.index.find? outer.parent := by
  obtain ⟨i, hi, -, -, hq⟩ := h.known
  rw [h.parent]
  rintro _ ⟨⟩
  exact ⟨o, i, hi, hq.trans ho, h.reachable hr o ho⟩

/-- Inside a declaration, a constant of it can have a body. -/
theorem Place.Around.inConstant {outer : Place} {id : DeclId} {tree : TypeDecl} {k : Nat} {n : Name}
    {body : Option TypeDecl} {sp : Span} (h : outer.Around units s id tree)
    (hk : tree.members[k]? = some (.constant n body sp)) :
    InConstant s.index.known? units outer.parent k := by
  obtain ⟨i, hi, hu, hp, -⟩ := h.known
  exact ⟨id, i, tree, n, body, sp, h.parent, hi, by rw [hu, hp]; exact h.tree, hk⟩

/-- The name of a member type is a name of the table, and only a named declaration gives one. -/
theorem memberName_yields {outer : QualifiedName} {name : Option Name}
    (ho : ∀ o ∈ outer.name?, s.names.Issued o) (hn : ∀ n ∈ name, s.names.Proper n) :
    (indexing units).Yields s (memberName outer name) fun q t =>
      (∀ n ∈ q.name?, t.names.Issued n) ∧ ∀ n, q = .named n → ∃ o, outer = .named o := by
  unfold memberName
  split
  · rename_i o simple
    refine (qualify_yields ho (hn simple rfl)).bind fun n t _ _ hnt => .pure fun _ => ⟨?_, ?_⟩
    · rintro _ ⟨⟩
      exact hnt.1
    · exact fun _ _ => ⟨o, rfl⟩
  · exact .pure fun _ => ⟨fun n hn => (nomatch hn), fun n hn => (nomatch hn)⟩

mutual

theorem addDecl_yields {place : Place} {tree : TypeDecl} {clean : Prop} {s : IndexState}
    (hp : place.Fits units s tree) (hs : tree.Sound s.names clean) :
    (indexing units).Yields s (addDecl place tree) fun id t =>
      ChildOf t.index.known? t.index.find? place.parent id := by
  match tree with
  | .mk head members =>
    rw [TypeDecl.Sound] at hs
    rw [addDecl_eq]
    refine (number_yields rfl (hp.entry hs.1) hp.reachable hp.hidden).bind
      fun ⟨id, reachable⟩ u ⟨hu, _⟩ hg ⟨hid, hfound, hhidden, htaken⟩ => ?_
    have haround : Place.Around units u { place with parent := some id, reachable } id
        (.mk head members) :=
      { tree := hp.tree
        parent := rfl
        known := ⟨_, hid, rfl, rfl, rfl⟩
        qualified := fun n hn => (hp.qualified n hn).le hg.names
        reachable := hfound
        hidden := hhidden }
    have hms := Member.AllSound.weaken hs.2 hg.names (fun h => h)
    refine (addMembers_yields (k := 0) haround (by simp [TypeDecl.members]) hms).bind
      fun types v hv hg₂ htypes => ?_
    refine (setMemberTypes_yields htypes).bind fun _ w hw hg₃ _ => .pure fun _ => ?_
    exact (IndexState.Grows.trans hg₂ hg₃).childOf (hp.childOf hg hu hid htaken)

theorem addMembers_yields {outer : Place} {id : DeclId} {tree : TypeDecl} {clean : Prop} {k : Nat}
    {ms : List Member} {s : IndexState} (ho : outer.Around units s id tree)
    (hk : ∀ j, ms[j]? = tree.members[k + j]?) (hms : Member.AllSound s.names clean ms) :
    (indexing units).Yields s (addMembers outer id k ms) fun found t =>
      ∀ c ∈ found, ChildOf t.index.known? t.index.find? (some id) c := by
  match ms with
  | [] => rw [addMembers]; exact .pure fun _ c hc => nomatch hc
  | m :: rest =>
    rw [Member.AllSound] at hms
    rw [addMembers]
    have hm : tree.members[k]? = some m := (hk 0).symm
    refine (addMember_yields ho hm hms.1).bind fun found t ht hg hfound => ?_
    have hrest (j : Nat) : rest[j]? = tree.members[k + 1 + j]? := by
      rw [Nat.add_assoc, Nat.add_comm 1 j, ← hk (j + 1)]
      rfl
    have hms' := Member.AllSound.weaken hms.2 hg.names (fun h => h)
    refine (addMembers_yields (ho.grow hg) hrest hms').bind
      fun more u hu hg₁ hmore => .pure fun _ c hc => ?_
    rcases List.mem_append.1 hc with hc | hc
    · exact IndexState.Grows.childOf hg₁ (hfound c (Option.mem_toList.1 hc))
    · exact hmore c hc

theorem addMember_yields {outer : Place} {id : DeclId} {tree : TypeDecl} {clean : Prop} {k : Nat}
    {m : Member} {s : IndexState} (ho : outer.Around units s id tree)
    (hk : tree.members[k]? = some m) (hm : m.Sound s.names clean) :
    (indexing units).Yields s (addMember outer id k m) fun found t =>
      ∀ c ∈ found, ChildOf t.index.known? t.index.find? (some id) c := by
  match m with
  | .type d =>
    rw [Member.Sound] at hm
    rw [addMember]
    have hname : ∀ n ∈ d.head.name, s.names.Proper n := by
      match d with
      | .mk head members =>
        rw [TypeDecl.Sound] at hm
        exact hm.1.name
    -- A member type has a canonical name if the type around it has one, and is found only if that
    -- is found.
    refine (memberName_yields ho.qualified hname).bind fun name t ht hg ⟨hissued, hnamed⟩ => ?_
    have ho' := ho.grow hg
    have hfits : Place.Fits units t
        { outer with path := outer.path ++ [k], qualifiedName := name, constant := none } d :=
      { tree := treeAt_member ho.tree hk
        parent := ho'.parent_known
        constant := fun m hm => nomatch hm
        body := nofun
        qualified := hissued
        reachable := fun hr n hn => by
          obtain ⟨o, hoq⟩ := hnamed n hn
          exact ⟨rfl, ho'.reached hr hoq⟩
        hidden := fun hr => ⟨id, ho.parent, ho'.hidden hr⟩
        named := fun n hn => by
          obtain ⟨o, hoq⟩ := hnamed n hn
          exact ho'.hasName hoq }
    refine (addDecl_yields hfits (hm.weaken hg.names fun h => h)).bind fun child u hu hg₁ hchild => ?_
    rw [ho.parent] at hchild
    refine (addChild_yields hchild).bind fun _ v hv hg₂ _ => .pure fun _ => ?_
    rintro _ ⟨⟩
    exact IndexState.Grows.childOf hg₂ hchild
  | .constant n (some body) sp =>
    rw [Member.Sound] at hm
    rw [addMember]
    -- The body of a constant has no canonical name.
    have hfits : Place.Fits units s
        { outer with path := outer.path ++ [k], qualifiedName := .anonymous, constant := some k }
        body :=
      { tree := treeAt_body ho.tree hk
        parent := ho.parent_known
        constant := by
          rintro _ ⟨⟩
          exact ho.inConstant hk
        body := fun _ => hm.2.1
        qualified := fun n hn => nomatch hn
        reachable := fun _ n hn => nomatch hn
        hidden := fun hr => ⟨id, ho.parent, ho.hidden hr⟩
        named := fun n hn => nomatch hn }
    refine (addDecl_yields hfits hm.2.2).bind fun child t ht hg hchild => ?_
    rw [ho.parent] at hchild
    exact (addChild_yields hchild).bind fun _ u _ _ _ => .pure fun _ c hc => nomatch hc
  | .constant _ none _ => rw [addMember]; exact .pure fun _ c hc => nomatch hc
  | .field _ => rw [addMember]; exact .pure fun _ c hc => nomatch hc

end

/-! ### Files -/

/-- Changes of what the index records of files keep the rest. -/
theorem record_yields {f : DeclIndex → DeclIndex} (hk : (f s.index).decls = s.index.decls)
    (hf : (f s.index).byName = s.index.byName) (hd : (f s.index).duplicates = s.index.duplicates)
    (hs : s.index.Sound units s.names → (f s.index).Sound units s.names) :
    (indexing units).Yields s (modify fun s => { s with index := f s.index }) fun _ _ => True := by
  have hknown : (f s.index).known? = s.index.known? := by
    funext d
    rw [DeclIndex.known?, DeclIndex.known?, DeclIndex.get?, DeclIndex.get?, hk]
  have hfind : (f s.index).find? = s.index.find? := by
    funext n
    rw [DeclIndex.find?, DeclIndex.find?, hf]
  have hsize : (f s.index).size = s.index.size := congrArg Array.size hk
  refine .step (fun ⟨h, he⟩ => ⟨hs h, ?_⟩) (fun _ => ⟨.refl _, ?_, ?_⟩) fun _ => trivial
  · exact he.congr hknown hfind hd hsize
  · exact hknown ▸ .refl _
  · exact hfind ▸ .refl _ s.index.size

theorem addImport_yields {imports : UnitImports} {i : ImportDecl} (hi : imports.Issued s.names)
    (hn : ∀ n ∈ i.path.segments, s.names.Proper n) :
    (indexing units).Yields s (addImport imports i) fun r t => r.Issued t.names := by
  unfold addImport
  refine (qualifyPath_yields (fun _ => (absurd · (Option.not_mem_none _))) hn).bind fun path t _ hg hpath => ?_
  have hi' := hi.le hg.names
  split
  · rename_i p last hlast
    obtain ⟨hissued, hends⟩ := hpath p rfl
    split
    · refine .pure fun _ => ⟨hi'.single, fun n hn => ?_⟩
      rcases List.mem_append.1 hn with hn | hn
      · exact hi'.onDemand n hn
      · exact List.mem_singleton.1 hn ▸ hissued
    · refine .pure fun _ => ⟨fun e he => ?_, hi'.onDemand⟩
      rcases List.mem_append.1 he with he | he
      · exact hi'.single e he
      · rw [List.mem_singleton.1 he]
        exact hends last hlast
  · exact .pure fun _ => hi'

theorem addImports_yields {is : List ImportDecl} {imports : UnitImports}
    (hi : imports.Issued s.names) (hn : ∀ i ∈ is, ∀ n ∈ i.path.segments, s.names.Proper n) :
    (indexing units).Yields s (is.foldlM addImport imports) fun r t => r.Issued t.names := by
  induction is generalizing s imports with
  | nil => exact .pure fun _ => hi
  | cons i rest ih =>
    rw [List.foldlM_cons]
    refine (addImport_yields hi (hn i List.mem_cons_self)).bind fun r t _ hg hr => ?_
    exact ih hr fun j hj n hjn => (hn j (List.mem_cons_of_mem i hj) n hjn).le hg.names

/-- The name of a top-level declaration is a name of the table. -/
theorem topName_yields {package name : Option Name} (hp : ∀ n ∈ package, s.names.Issued n)
    (hn : ∀ n ∈ name, s.names.Proper n) :
    (indexing units).Yields s (topName package name) fun q t =>
      ∀ n ∈ q.name?, t.names.Issued n := by
  unfold topName
  split
  · rename_i simple
    refine (qualify_yields hp (hn simple rfl)).bind fun n t _ _ hnt => .pure fun _ => ?_
    rintro _ ⟨⟩
    exact hnt.1
  · exact .pure fun _ n hn => nomatch hn

/-- The package of a file is a name of the table. -/
theorem packageName_yields {p : Option PackageDecl}
    (hn : ∀ d ∈ p, ∀ n ∈ d.path.segments, s.names.Proper n) :
    (indexing units).Yields s (packageName p) fun r t => ∀ n ∈ r, t.names.Issued n := by
  unfold packageName
  split
  · rename_i d
    exact (qualifyPath_yields (fun _ => (absurd · (Option.not_mem_none _))) (hn d rfl)).mono
      fun _ _ _ _ h n hn => (h n hn).1
  · exact .pure fun _ n hn => absurd hn (Option.not_mem_none n)

theorem addTypes_yields {unit k : Nat} {package : Option Name} {clean : Prop} {u : CompilationUnit}
    {ds : List TypeDecl} (hu : units[unit]? = some u) (hk : ∀ j, ds[j]? = u.types[k + j]?)
    (hp : ∀ n ∈ package, s.names.Issued n) (hs : ∀ d ∈ ds, d.Sound s.names clean) :
    (indexing units).Yields s (addTypes unit package k ds) fun _ _ => True := by
  induction ds generalizing s k with
  | nil => exact .pure fun _ => trivial
  | cons d rest ih =>
    rw [addTypes]
    have hname : ∀ n ∈ d.head.name, s.names.Proper n := by
      have hd := hs d List.mem_cons_self
      match d with
      | .mk head members =>
        rw [TypeDecl.Sound] at hd
        exact hd.1.name
    refine (topName_yields hp hname).bind fun name t _ hg hissued => ?_
    have hfits : Place.Fits units t ⟨unit, none, [k], name, none, true⟩ d :=
      { tree := by
          have hd : u.types[k]? = some d := (hk 0).symm
          simp [treeAt, hu, hd, TypeDecl.follow?]
        parent := fun p hp => nomatch hp
        constant := fun m hm => nomatch hm
        body := nofun
        qualified := hissued
        reachable := fun _ n _ => ⟨rfl, fun p hp => nomatch hp⟩
        hidden := nofun
        named := fun _ _ p hp => nomatch hp }
    have hd := (hs d List.mem_cons_self).weaken hg.names fun h => h
    refine (addDecl_yields hfits hd).bind fun id v _ hg₁ hid => ?_
    -- The number of the type is recorded; it is a child of no declaration.
    have htop : (indexing units).Yields v
        (modify fun s => { s with index.topLevel := s.index.topLevel ++ [id] })
        fun _ _ => True := by
      refine record_yields (f := fun x => { x with topLevel := x.topLevel ++ [id] }) rfl rfl rfl
        fun h => { h with topLevel := fun e he => ?_ }
      rcases List.mem_append.1 he with he | he
      · exact h.topLevel e he
      · rw [List.mem_singleton.1 he]
        exact hid
    refine htop.bind fun _ w _ hg₂ _ => ih ?_ ?_ ?_
    · intro j
      rw [Nat.add_assoc, Nat.add_comm 1 j, ← hk (j + 1)]
      rfl
    · exact fun n hn => (hp n hn).le ((hg.names.trans hg₁.names).trans hg₂.names)
    · exact fun e he => (hs e (List.mem_cons_of_mem d he)).weaken
        ((hg.names.trans hg₁.names).trans hg₂.names) fun h => h

theorem addUnit_yields {unit : Nat} {clean : Prop} {u : CompilationUnit}
    (hu : units[unit]? = some u) (hs : u.Sound s.names clean) :
    (indexing units).Yields s (addUnit unit u) fun _ _ => True := by
  unfold addUnit
  refine (packageName_yields hs.package).bind fun package t _ hg hpackage => ?_
  -- Package and imports are recorded by names of the table.
  have hadd : (indexing units).Yields t
      (modify fun s => { s with index.packages := s.index.packages ++ [package] })
      fun _ _ => True := by
    refine record_yields (f := fun x => { x with packages := x.packages ++ [package] }) rfl rfl rfl
      fun h => { h with packages := fun p hp n hn => ?_ }
    rcases List.mem_append.1 hp with hp | hp
    · exact h.packages p hp n hn
    · rw [List.mem_singleton.1 hp] at hn
      exact hpackage n hn
  refine hadd.bind fun _ v _ hg₁ _ => ?_
  have hl := hg.names.trans hg₁.names
  have hnone : UnitImports.Issued v.names {} :=
    { single := fun i hi => nomatch hi
      onDemand := fun n hn => nomatch hn }
  refine (addImports_yields hnone
    fun i hi n hn => (hs.imports i hi n hn).le hl).bind fun imports w _ hg₂ himports => ?_
  have hadd' : (indexing units).Yields w
      (modify fun s => { s with index.imports := s.index.imports ++ [imports] })
      fun _ _ => True := by
    refine record_yields (f := fun x => { x with imports := x.imports ++ [imports] }) rfl rfl rfl
      fun h => { h with imports := fun i hi => ?_ }
    rcases List.mem_append.1 hi with hi | hi
    · exact h.imports i hi
    · rw [List.mem_singleton.1 hi]
      exact himports
  refine hadd'.bind fun _ x _ hg₃ _ => ?_
  have hl' := hg₁.names.trans (hg₂.names.trans hg₃.names)
  have htypes : ∀ d ∈ u.types, d.Sound x.names clean := fun d hd =>
    (hs.types d hd).weaken (hg.names.trans hl') fun h => h
  exact addTypes_yields hu (fun j => by rw [Nat.zero_add]) (fun n hn => (hpackage n hn).le hl')
    htypes

theorem addUnits_yields {k : Nat} {clean : Prop} {us : List CompilationUnit}
    (hk : ∀ j, us[j]? = units[k + j]?) (hs : ∀ u ∈ us, u.Sound s.names clean) :
    (indexing units).Yields s (addUnits k us) fun _ _ => True := by
  induction us generalizing s k with
  | nil => exact .pure fun _ => trivial
  | cons u rest ih =>
    rw [addUnits]
    have hu : units[k]? = some u := (hk 0).symm
    refine (addUnit_yields hu (hs u List.mem_cons_self)).bind fun _ t _ hg _ => ih ?_ ?_
    · intro j
      rw [Nat.add_assoc, Nat.add_comm 1 j, ← hk (j + 1)]
      rfl
    · exact fun v hv => (hs v (List.mem_cons_of_mem u hv)).weaken hg.names fun h => h

end Indexing

/-- The empty index is sound. -/
theorem sound_empty (units : List CompilationUnit) (names : NameTable) :
    (indexing units).Sound { names } where
  left :=
    { infos := fun d i h => by simp [DeclIndex.get?] at h
      named := fun n d h => by simp [DeclIndex.find?] at h
      children := fun d m c h => by simp [DeclIndex.child?] at h
      topLevel := fun d h => nomatch h
      packages := fun p h => nomatch h
      imports := fun u h => nomatch h
      duplicates := fun e h => nomatch h }
  right :=
    { reached := fun d hd => absurd hd (Nat.not_lt_zero d)
      earlier := fun e h => nomatch h }

/-- An index of sound trees is sound, and so is what it enters under names. -/
theorem DeclIndex.sound_and_entered {units : List CompilationUnit} {names : NameTable}
    {clean : Prop} (hs : ∀ u ∈ units, u.Sound names clean) :
    names.Le (DeclIndex.ofUnits units names).2 ∧
      (DeclIndex.ofUnits units names).1.Sound units (DeclIndex.ofUnits units names).2 ∧
      (DeclIndex.ofUnits units names).1.Entered (DeclIndex.ofUnits units names).1.size := by
  have hrun : (indexing units).Yields { names } (Indexing.addUnits 0 units) fun _ _ => True :=
    Indexing.addUnits_yields (fun j => by rw [Nat.zero_add]) hs
  obtain ⟨_, s, hrun, hsound, hgrow, -⟩ := hrun (sound_empty units names)
  rw [DeclIndex.ofUnits, hrun]
  exact ⟨hgrow.1, hsound⟩

/-- **The index of a batch fits it.** The trees being sound, so is their index, for the name table
    that comes with it. -/
theorem DeclIndex.sound_ofUnits {units : List CompilationUnit} {names : NameTable} {clean : Prop}
    (hs : ∀ u ∈ units, u.Sound names clean) :
    names.Le (DeclIndex.ofUnits units names).2 ∧
      (DeclIndex.ofUnits units names).1.Sound units (DeclIndex.ofUnits units names).2 :=
  ⟨(sound_and_entered hs).1, (sound_and_entered hs).2.1⟩

end JavaAbi
