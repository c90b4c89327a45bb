import JavaAbi.Proofs.IndexOrder

namespace JavaAbi

/-!
# What is recorded of files

While the declarations of a file are numbered, what is recorded of files stays as it is, and a
declaration is marked as the body of a constant just if it stands at one. So an index gives each file
the package that is written in it.

* `recording` — the course of work inside of a file;
* `Indexing.addDecl_keeps` — numbering a declaration is such work;
* `DeclIndex.Filed` — packages are those of the files, and bodies are marked as such;
* `DeclIndex.filed_ofUnits` — so it is in the index of every batch.

The course asks nothing of the names of a file, and so no work in it has a condition on the state
that it starts from.
-/

/-- The mark of a declaration says whether it is the body of a constant. -/
def DeclInfo.Marked (units : List CompilationUnit) (i : DeclInfo) : Prop :=
  i.constant.isSome ↔ BodyAt units i.unit i.path

/-- All declarations are marked rightly. -/
def DeclIndex.Marked (units : List CompilationUnit) (x : DeclIndex) : Prop :=
  ∀ d i, x.get? d = some i → i.Marked units

/-- The course of work inside of a file: what is recorded of files stays. -/
def recording (units : List CompilationUnit) : Course IndexState where
  Sound s := s.index.Marked units
  Grows s t := s.names.Le t.names ∧ t.index.packages = s.index.packages
  refl _ := ⟨.refl _, rfl⟩
  trans h h' := ⟨h.1.trans h'.1, h'.2.trans h.2⟩

/-- Names stay what they are when one is qualified. -/
theorem NameTable.le_qualify (t : NameTable) (outer : Option Name) (simple : Name) :
    t.Le (t.qualify outer simple).2 := by
  unfold qualify qualify?
  by_cases hs : simple = .empty
  · rw [if_pos hs]
    exact .refl t
  · rw [if_neg hs]
    cases outer with
    | none => exact .refl t
    | some o =>
      dsimp only
      by_cases ho : o = .empty
      · rw [if_pos ho]
        exact .refl t
      · rw [if_neg ho]
        cases t.resolve? o with
        | none => exact .refl t
        | some outerText =>
          cases t.resolve? simple with
          | none => exact .refl t
          | some text => exact t.le_intern (outerText ++ "." ++ text)

namespace Indexing

/-- Work inside of a file of a batch. -/
def Keeps (units : List CompilationUnit) {α : Type} (m : Indexing α) : Prop :=
  ∀ s, (recording units).Yields s m fun _ _ => True

variable {units : List CompilationUnit} {α β : Type}

section Rules

theorem Keeps.pure (a : α) : Keeps units (pure a) := fun _ => .pure fun _ => trivial

theorem Keeps.bind {m : Indexing α} {f : α → Indexing β} (h : Keeps units m)
    (hf : ∀ a, Keeps units (f a)) : Keeps units (m >>= f) :=
  fun s => (h s).bind fun a t _ _ _ => hf a t

theorem Keeps.map {m : Indexing α} (f : α → β) (h : Keeps units m) : Keeps units (f <$> m) := by
  rw [map_eq_pure_bind]
  exact h.bind fun a => .pure (f a)

/-- A change that leaves declarations, names and packages alone. -/
theorem Keeps.modify {f : DeclIndex → DeclIndex} (hdecls : ∀ x, (f x).decls = x.decls)
    (hpackages : ∀ x, (f x).packages = x.packages) :
    Keeps units (modify fun s => { s with index := f s.index }) := fun s => by
  refine .step (fun hs d i hi => hs d i ?_) (fun _ => ⟨.refl _, hpackages s.index⟩) fun _ => trivial
  rw [DeclIndex.get?, ← hdecls s.index]
  exact hi

end Rules

/-! ### Names and entries -/

theorem qualify_keeps (outer : Option Name) (simple : Name) :
    Keeps units (qualify outer simple) := fun s =>
  .step (fun hs => hs) (fun _ => ⟨s.names.le_qualify outer simple, rfl⟩) fun _ => trivial

theorem qualifyPath_keeps (outer : Option Name) (path : List Name) :
    Keeps units (qualifyPath outer path) := by
  induction path generalizing outer with
  | nil => exact .pure outer
  | cons first rest ih => exact (qualify_keeps outer first).bind fun n => ih (some n)

theorem packageName_keeps (p : Option PackageDecl) : Keeps units (packageName p) := by
  cases p with
  | none => exact .pure none
  | some d => exact qualifyPath_keeps none d.path.segments

theorem memberName_keeps (outer : QualifiedName) (name : Option Name) :
    Keeps units (memberName outer name) := by
  unfold memberName
  split
  · exact (qualify_keeps _ _).map QualifiedName.named
  · exact .pure QualifiedName.anonymous

theorem topName_keeps (package name : Option Name) : Keeps units (topName package name) := by
  cases name with
  | none => exact .pure QualifiedName.anonymous
  | some simple => exact (qualify_keeps package simple).map QualifiedName.named

theorem push_keeps {info : DeclInfo} (h : info.Marked units) : Keeps units (push info) := fun s => by
  refine .step (fun hs d i hi => ?_) (fun _ => ⟨.refl _, rfl⟩) fun _ => trivial
  rw [get?_push] at hi
  split at hi
  · cases hi
    exact h
  · exact hs d i hi

theorem enter_keeps (id : DeclId) (name : QualifiedName) (reachable : Bool) :
    Keeps units (enter id name reachable) := fun s hs => by
  obtain ⟨r, byName, more, hrun, -⟩ := enter_eq id name reachable s
  exact ⟨r, _, hrun, hs, ⟨.refl _, rfl⟩, trivial⟩

theorem number_keeps {info : DeclInfo} (h : info.Marked units) (reachable : Bool) :
    Keeps units (number info reachable) :=
  (push_keeps h).bind fun id => (enter_keeps id info.qualifiedName reachable).bind fun found =>
    .pure (id, found)

theorem addChild_keeps (p : DeclId) (m : Nat) (c : DeclId) : Keeps units (addChild p m c) :=
  .modify (f := fun x => { x with children := x.children ++ [((p, m), c)] }) (fun _ => rfl)
    fun _ => rfl

theorem setMemberTypes_keeps (id : DeclId) (types : List DeclId) :
    Keeps units (setMemberTypes id types) := fun s => by
  refine .step (fun hs d i hi => ?_) (fun _ => ⟨.refl _, rfl⟩) fun _ => trivial
  rw [get?_setMemberTypes] at hi
  split at hi
  · obtain ⟨j, hj, rfl⟩ := Option.map_eq_some_iff.1 hi
    exact hs d j hj
  · exact hs d i hi

/-! ### Declarations -/

mutual

theorem addDecl_keeps {place : Place} {tree : TypeDecl}
    (ht : treeAt units place.unit place.path = some tree)
    (hc : place.constant.isSome ↔ BodyAt units place.unit place.path) :
    Keeps units (addDecl place tree) := by
  match tree with
  | .mk head members =>
    rw [addDecl]
    -- The mark of a declaration is given from outside; those of its members follow from the tree.
    refine (number_keeps (by exact hc) place.reachable).bind fun ⟨id, reachable⟩ => ?_
    have hmembers : Keeps units
        (addMembers { place with parent := some id, reachable } id 0 members) :=
      addMembers_keeps ht fun j => by rw [Nat.zero_add]; rfl
    exact hmembers.bind fun types => (setMemberTypes_keeps id types).bind fun _ => .pure id

theorem addMembers_keeps {outer : Place} {tree : TypeDecl} {id : DeclId} {k : Nat}
    {ms : List Member} (ht : treeAt units outer.unit outer.path = some tree)
    (hk : ∀ j, ms[j]? = tree.members[k + j]?) : Keeps units (addMembers outer id k ms) := by
  match ms with
  | [] => rw [addMembers]; exact .pure []
  | m :: rest =>
    rw [addMembers]
    have hrest (j : Nat) : rest[j]? = tree.members[k + 1 + j]? := by
      rw [Nat.add_assoc, Nat.add_comm 1 j, ← hk (j + 1)]
      rfl
    exact (addMember_keeps ht (hk 0).symm).bind fun found =>
      (addMembers_keeps ht hrest).bind fun more => .pure (found.toList ++ more)

theorem addMember_keeps {outer : Place} {tree : TypeDecl} {id : DeclId} {k : Nat} {m : Member}
    (ht : treeAt units outer.unit outer.path = some tree) (hm : tree.members[k]? = some m) :
    Keeps units (addMember outer id k m) := by
  have hbody := bodyAt_below ht hm
  match m with
  | .type d =>
    rw [addMember]
    refine (memberName_keeps outer.qualifiedName d.head.name).bind fun name => ?_
    have hdecl : Keeps units (addDecl
        { outer with path := outer.path ++ [k], qualifiedName := name, constant := none } d) :=
      addDecl_keeps (treeAt_member ht hm) (iff_of_false Bool.false_ne_true fun h => by
        obtain ⟨n, body, sp, hconstant⟩ := hbody.1 h
        cases hconstant)
    exact hdecl.bind fun child => (addChild_keeps id k child).bind fun _ => .pure (some child)
  | .constant n (some body) sp =>
    rw [addMember]
    have hdecl : Keeps units (addDecl { outer with
        path := outer.path ++ [k], qualifiedName := .anonymous, constant := some k } body) :=
      addDecl_keeps (treeAt_body ht hm) (iff_of_true rfl (hbody.2 ⟨n, some body, sp, rfl⟩))
    exact hdecl.bind fun child => (addChild_keeps id k child).bind fun _ => .pure none
  | .constant _ none _ => rw [addMember]; exact .pure none
  | .field _ => rw [addMember]; exact .pure none

end

/-! ### Files -/

theorem addImport_keeps (imports : UnitImports) (i : ImportDecl) :
    Keeps units (addImport imports i) := by
  unfold addImport
  refine (qualifyPath_keeps none i.path.segments).bind fun path => ?_
  split
  · exact .pure _
  · exact .pure imports

theorem addImports_keeps (imports : UnitImports) (is : List ImportDecl) :
    Keeps units (is.foldlM addImport imports) := by
  induction is generalizing imports with
  | nil => exact .pure imports
  | cons i rest ih =>
    rw [List.foldlM_cons]
    exact (addImport_keeps imports i).bind ih

theorem addTypes_keeps {unit k : Nat} {package : Option Name} {u : CompilationUnit}
    {ds : List TypeDecl} (hu : units[unit]? = some u) (hk : ∀ j, ds[j]? = u.types[k + j]?) :
    Keeps units (addTypes unit package k ds) := by
  induction ds generalizing k with
  | nil => exact .pure ()
  | cons d rest ih =>
    rw [addTypes]
    have htree : treeAt units unit [k] = some d :=
      treeAt_eq_some.2 ⟨k, [], u, d, rfl, hu, (hk 0).symm, rfl⟩
    have htop : ¬BodyAt units unit [k] := fun h => not_inBody_top k ⟨[k], by simp, h⟩
    refine (topName_keeps package d.head.name).bind fun name => ?_
    have hdecl : Keeps units (addDecl ⟨unit, none, [k], name, none, true⟩ d) :=
      addDecl_keeps htree (iff_of_false Bool.false_ne_true htop)
    refine hdecl.bind fun id => Keeps.bind (.modify
      (f := fun x => { x with topLevel := x.topLevel ++ [id] }) (fun _ => rfl) fun _ => rfl)
      fun _ => ih fun j => ?_
    rw [Nat.add_assoc, Nat.add_comm 1 j, ← hk (j + 1)]
    rfl

section Files

variable {base : NameTable} {s : IndexState}

/-- **A file is recorded** with the package that is written in it. -/
theorem addUnit_records (hs : ∀ u ∈ units, u.Sound base False) (hn : BatchNamed units)
    {unit : Nat} {u : CompilationUnit} (hu : units[unit]? = some u)
    (hbefore : s.index.Before [unit]) (hm : s.index.Marked units) :
    (arranging units base).Yields s (addUnit unit u) fun _ t =>
      t.index.Before [unit + 1] ∧ t.index.Marked units ∧ ∃ p,
        t.index.packages = s.index.packages ++ [p] ∧
          Joined t.names base (packageSegments units unit) p := by
  intro ha
  obtain ⟨_, t, hrun, ht, hg, hindexed⟩ := addUnit_arranges hs hn hu hbefore ha
  obtain ⟨p, v, hp, -, -, -, hjoined⟩ :=
    packageName_arranges hu (hs u (List.mem_of_getElem? hu)) ha
  obtain ⟨_, _, hp', hv, hgv, -⟩ := packageName_keeps u.package s hm
  cases hp.symm.trans hp'
  -- What follows the package is work inside of the file, but for the list of imports.
  let rest : Indexing Unit := do
    let imports ← u.imports.foldlM addImport {}
    modify fun s => { s with index.imports := s.index.imports ++ [imports] }
    addTypes unit p 0 u.types
  have hrest : Keeps units rest :=
    (addImports_keeps {} u.imports).bind fun imports => Keeps.bind (.modify
      (f := fun x => { x with imports := x.imports ++ [imports] }) (fun _ => rfl) fun _ => rfl)
      fun _ => addTypes_keeps hu fun j => by rw [Nat.zero_add]
  obtain ⟨_, x, hx, hmx, hgx, -⟩ :=
    hrest { v with index.packages := v.index.packages ++ [p] } hv
  have hsplit : (addUnit unit u).run s =
      rest.run { v with index.packages := v.index.packages ++ [p] } := by
    unfold addUnit
    rw [StateT.run_bind, hp]
    rfl
  -- Both courses speak of the one run.
  cases hrun.symm.trans (hsplit.trans hx)
  refine ⟨(), t, hrun, ht, hg, hindexed.before, hmx, p, ?_, ?_⟩
  · rw [hgx.2]
    exact congrArg (· ++ [p]) hgv.2
  · cases p with
    | none => exact hjoined
    | some n => exact NameTable.Joins.le hjoined hgx.1

/-- Files are recorded with their packages. -/
theorem addUnits_records (hs : ∀ u ∈ units, u.Sound base False) (hn : BatchNamed units) {k : Nat}
    {us : List CompilationUnit} (hk : ∀ j, us[j]? = units[k + j]?)
    (hbefore : s.index.Before [k]) (hm : s.index.Marked units) :
    (arranging units base).Yields s (addUnits k us) fun _ t =>
      t.index.Marked units ∧ ∃ ps, t.index.packages = s.index.packages ++ ps ∧
        ps.length = us.length ∧
        ∀ j p, ps[j]? = some p → Joined t.names base (packageSegments units (k + j)) p := by
  induction us generalizing s k with
  | nil =>
    refine .pure fun _ => ⟨hm, [], (List.append_nil _).symm, rfl, fun j p hp => ?_⟩
    cases hp
  | cons u rest ih =>
    have hrest (j : Nat) : rest[j]? = units[k + 1 + j]? := by
      rw [Nat.add_assoc, Nat.add_comm 1 j, ← hk (j + 1)]
      rfl
    rw [addUnits]
    refine (addUnit_records hs hn (hk 0).symm hbefore hm).bind
      fun _ t _ hg hrecorded => ?_
    obtain ⟨hbefore, hm, p, hp, hjoined⟩ := hrecorded
    refine (ih hrest hbefore hm).mono fun _ v _ hg' hmore => ?_
    obtain ⟨hm', ps, hps, hlen, hall⟩ := hmore
    refine ⟨hm', p :: ps, ?_, congrArg (· + 1) hlen, fun j q hq => ?_⟩
    · rw [hps, hp, List.append_assoc]
      rfl
    · cases j with
      -- The first file is this one; names that are issued later do not change its package.
      | zero =>
        cases hq
        cases p with
        | none => exact hjoined
        | some n => exact NameTable.Joins.le hjoined hg'.names
      | succ j =>
        rw [Nat.add_comm j 1, ← Nat.add_assoc]
        exact hall j q hq

end Files

end Indexing

/-- **What an index records of files** is what is written in them: the package, and which
    declarations are bodies of constants. The table `base` is the one that the files were read with,
    and the table `t` is the one of the names in the index. -/
structure DeclIndex.Filed (units : List CompilationUnit) (base t : NameTable) (x : DeclIndex) :
    Prop where
  marked : x.Marked units
  package : ∀ unit, Indexing.Joined t base (packageSegments units unit) (x.package? unit)

theorem DeclIndex.Filed.le {units : List CompilationUnit} {base t u : NameTable} {x : DeclIndex}
    (h : x.Filed units base t) (hle : t.Le u) : x.Filed units base u where
  marked := h.marked
  package unit := by
    have hp := h.package unit
    cases hx : x.package? unit with
    | none => rwa [hx] at hp
    | some n =>
      rw [hx] at hp
      exact NameTable.Joins.le hp hle

/-- **The index of a batch** records of each file what is written in it. -/
theorem DeclIndex.filed_ofUnits {units : List CompilationUnit} {names : NameTable}
    (hs : ∀ u ∈ units, u.Sound names False) (hn : BatchNamed units) :
    (DeclIndex.ofUnits units names).1.Filed units names (DeclIndex.ofUnits units names).2 := by
  have hbefore : DeclIndex.Before {} [0] := fun d i hi => by simp [known?, get?] at hi
  have hmarked : DeclIndex.Marked units {} := fun d i hi => by simp [get?] at hi
  obtain ⟨_, t, hrun, -, -, hm, ps, hps, hlen, hall⟩ :=
    Indexing.addUnits_records (s := { names }) hs hn (k := 0) (fun j => by rw [Nat.zero_add])
      hbefore hmarked ⟨.refl _, orderly_empty⟩
  rw [DeclIndex.ofUnits, hrun]
  refine ⟨hm, fun unit => ?_⟩
  have hpackages : t.index.packages = ps := hps
  rw [package?, hpackages]
  cases hp : ps[unit]? with
  | some p =>
    have hjoined := hall unit p hp
    rwa [Nat.zero_add] at hjoined
  | none =>
    -- There is no such file, and so no package is written in it.
    have hunit : units[unit]? = none :=
      List.getElem?_eq_none (hlen ▸ List.getElem?_eq_none_iff.1 hp)
    show packageSegments units unit = []
    rw [packageSegments, hunit]
    rfl

end JavaAbi
