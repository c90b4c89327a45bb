import JavaAbi.Proofs.IndexedBatch
import JavaAbi.Proofs.TwinWorlds

namespace JavaAbi

/-!
# Indexing side by side

Two runs of indexing over files that correspond: the trees of the second are those of the first but
for variables that are left out. Variables have no numbers, so the declarations are numbered in step,
whatever either run has numbered before. Which names are taken has no part in that.

* `IndexTwins` — the files and the states from which the two runs start;
* `IndexTwins.Paired` — states in which both have recorded the same since then;
* `IndexTwins.Runs` — the judgement, with one lemma for each function of indexing;
* `addUnit_recorded` — files that correspond are recorded in step.
-/

open Indexing

/-! ### Parallel growth -/

/-- What two lists have gained corresponds. -/
def Gained {α β : Type} (rel : α → β → Prop) (xs ys : List α) (xs' ys' : List β) : Prop :=
  ∃ new new', ys = xs ++ new ∧ ys' = xs' ++ new' ∧ List.Forall₂ rel new new'

namespace Gained

variable {α β : Type} {rel rel' : α → β → Prop} {xs ys : List α} {xs' ys' : List β}

theorem refl (xs : List α) (xs' : List β) : Gained rel xs xs xs' xs' :=
  ⟨[], [], (List.append_nil _).symm, (List.append_nil _).symm, .nil⟩

theorem mono (h : Gained rel xs ys xs' ys') (hm : ∀ a b, rel a b → rel' a b) :
    Gained rel' xs ys xs' ys' := by
  obtain ⟨new, new', hn, hn', hr⟩ := h
  exact ⟨new, new', hn, hn', hr.imp hm⟩

theorem snoc (h : Gained rel xs ys xs' ys') {a : α} {b : β} (hr : rel a b) :
    Gained rel xs (ys ++ [a]) xs' (ys' ++ [b]) := by
  obtain ⟨new, new', rfl, rfl, hall⟩ := h
  exact ⟨new ++ [a], new' ++ [b], List.append_assoc .., List.append_assoc ..,
    List.rel_append hall (.cons hr .nil)⟩

end Gained

/-- The path to a declaration is known for good. -/
theorem DeclIndex.tree?_eq (x : DeclIndex) (units : List CompilationUnit) (d : DeclId) :
    x.tree? units d = (x.known? d).bind fun i => treeAt units i.unit i.path := by
  rw [tree?, known?]
  cases x.get? d <;> rfl

theorem DeclInfo.Alike.mono {base t t' u u' : NameTable} {decl decl' : DeclId → DeclId → Prop}
    {unit unit' : Nat → Nat → Prop} {number number' : DeclId → Nat → Nat → Prop} {i i' : DeclInfo}
    (h : DeclInfo.Alike base t t' decl unit number i i') (ht : t.Le u) (ht' : t'.Le u')
    (hd : ∀ d d', decl d d' → decl' d d') (hu : ∀ k k', unit k k' → unit' k k')
    (hn : ∀ p m m', number p m m' → number' p m m') :
    DeclInfo.Alike base u u' decl' unit' number' i i' where
  unit := hu _ _ h.unit
  parent := Option.Rel.mono h.parent hd
  simpleName := h.simpleName
  simple_issued := h.simple_issued
  qualifiedName := h.qualifiedName.le ht ht'
  typeParams := h.typeParams
  params_issued := h.params_issued
  nameSpan := h.nameSpan
  constant := Option.Rel.mono h.constant fun _ _ ⟨p, hp, hm⟩ => ⟨p, hp, hn _ _ _ hm⟩
  memberTypes := h.memberTypes.imp hd

theorem UnitImports.Agree.le {t t' u u' : NameTable} {i i' : UnitImports}
    (h : UnitImports.Agree t t' i i') (ht : t.Le u) (ht' : t'.Le u') :
    UnitImports.Agree u u' i i' :=
  ⟨h.single.imp fun _ _ ⟨heq, hn⟩ => ⟨heq, hn.le ht ht'⟩, h.onDemand.imp fun _ _ hn => hn.le ht ht'⟩

/-! ### Two runs -/

/-- Two runs of indexing: the batches, the variables that the second keeps, a table of the names in
    the trees, the files that correspond, and the states from which the runs start. -/
structure IndexTwins where
  units : List CompilationUnit
  units' : List CompilationUnit
  keep : FieldDecl → Bool
  base : NameTable
  unit : Nat → Nat → Prop
  start : IndexState
  start' : IndexState

namespace IndexTwins

variable (S : IndexTwins)

/-- Declarations that were numbered in step. -/
def Decl (s : IndexState) (d d' : DeclId) : Prop :=
  ∃ k, d = S.start.index.size + k ∧ d' = S.start'.index.size + k ∧ d < s.index.size

/-- Members that correspond. -/
def Number (s : IndexState) (p : DeclId) (m m' : Nat) : Prop :=
  ∃ tree, s.index.tree? S.units p = some tree ∧ Stays S.keep tree.members m m'

/-- What is recorded of declarations that correspond. -/
structure Infos (s s' : IndexState) (i i' : DeclInfo) : Prop where
  alike : DeclInfo.Alike S.base s.names s'.names (S.Decl s) S.unit (S.Number s) i i'
  tree : ∃ tree, treeAt S.units i.unit i.path = some tree ∧
    treeAt S.units' i'.unit i'.path = some (tree.restrict S.keep)

/-- Entries for members that correspond. -/
structure Children (s : IndexState) (c c' : (DeclId × Nat) × DeclId) : Prop where
  parent : S.Decl s c.1.1 c'.1.1
  number : S.Number s c.1.1 c.1.2 c'.1.2
  child : S.Decl s c.2 c'.2

/-- Two indexes have recorded the same since the start, as seen from two states. -/
structure Agrees (s s' : IndexState) (x x' : DeclIndex) : Prop where
  size : ∃ k, x.size = S.start.index.size + k ∧ x'.size = S.start'.index.size + k
  infos : ∀ k, S.start.index.size + k < x.size → ∃ i i', x.get? (S.start.index.size + k) = some i ∧
    x'.get? (S.start'.index.size + k) = some i' ∧ S.Infos s s' i i'
  old : ∀ d < S.start.index.size, x.get? d = S.start.index.get? d
  old' : ∀ d < S.start'.index.size, x'.get? d = S.start'.index.get? d
  children : Gained (S.Children s) S.start.index.children x.children S.start'.index.children
    x'.children
  topLevel : Gained (S.Decl s) S.start.index.topLevel x.topLevel S.start'.index.topLevel
    x'.topLevel

/-- **States in which two runs have recorded the same** since the start. -/
structure Paired (s s' : IndexState) : Prop where
  base_left : S.base.Le s.names
  base_right : S.base.Le s'.names
  agrees : S.Agrees s s' s.index s'.index

/-- Two states go on. -/
structure Later (s s' t t' : IndexState) : Prop where
  left : s.names.Le t.names
  right : s'.names.Le t'.names
  known : Extends s.index.known? t.index.known?

variable {S} {s s' t t' u u' : IndexState} {x x' : DeclIndex} {d d' : DeclId} {m m' : Nat}

theorem Later.refl (s s' : IndexState) : Later s s' s s' := ⟨.refl _, .refl _, .refl _⟩

theorem Later.trans (h : Later s s' t t') (h' : Later t t' u u') : Later s s' u u' :=
  ⟨h.left.trans h'.left, h.right.trans h'.right, h.known.trans h'.known⟩

theorem Decl.later (h : S.Decl s d d') (hl : Later s s' t t') : S.Decl t d d' := by
  obtain ⟨k, hd, hd', hlt⟩ := h
  exact ⟨k, hd, hd', Nat.lt_of_lt_of_le hlt hl.known.size_le⟩

theorem tree?_later {tree : TypeDecl} (h : s.index.tree? S.units d = some tree)
    (hl : Later s s' t t') : t.index.tree? S.units d = some tree := by
  rw [DeclIndex.tree?_eq] at h ⊢
  obtain ⟨i, hi, htree⟩ := Option.bind_eq_some_iff.1 h
  exact Option.bind_eq_some_iff.2 ⟨i, hl.known d i hi, htree⟩

theorem Number.later (h : S.Number s d m m') (hl : Later s s' t t') : S.Number t d m m' := by
  obtain ⟨tree, htree, hs⟩ := h
  exact ⟨tree, tree?_later htree hl, hs⟩

theorem Agrees.later (h : S.Agrees s s' x x') (hl : Later s s' t t') : S.Agrees t t' x x' where
  size := h.size
  infos k hk := by
    obtain ⟨i, i', hi, hi', halike, htree⟩ := h.infos k hk
    exact ⟨i, i', hi, hi', halike.mono hl.left hl.right (fun _ _ hd => hd.later hl)
      (fun _ _ hu => hu) fun _ _ _ hn => hn.later hl, htree⟩
  old := h.old
  old' := h.old'
  children := h.children.mono fun _ _ hc =>
    ⟨hc.parent.later hl, hc.number.later hl, hc.child.later hl⟩
  topLevel := h.topLevel.mono fun _ _ hd => hd.later hl

/-! ### The judgement -/

/-- A run goes on inside of a file. -/
structure SameFiles (s t : IndexState) : Prop where
  packages : t.index.packages = s.index.packages
  imports : t.index.imports = s.index.imports

theorem SameFiles.trans (h : SameFiles s t) (h' : SameFiles t u) : SameFiles s u :=
  ⟨h'.packages.trans h.packages, h'.imports.trans h.imports⟩

variable (S)

/-- **Work of two runs** inside of files: it takes states that agree to states that agree, with
    corresponding answers. -/
def Runs {α β : Type} (s s' : IndexState) (m : Indexing α) (m' : Indexing β)
    (rel : α → β → IndexState → IndexState → Prop) : Prop :=
  S.Paired s s' → ∃ a b t t', m.run s = (a, t) ∧ m'.run s' = (b, t') ∧ S.Paired t t' ∧
    Later s s' t t' ∧ (SameFiles s t ∧ SameFiles s' t') ∧ rel a b t t'

variable {S} {α β γ δ : Type} {m : Indexing α} {m' : Indexing β}
  {rel : α → β → IndexState → IndexState → Prop} {rel' : γ → δ → IndexState → IndexState → Prop}

theorem Runs.pure {a : α} {b : β} (h : S.Paired s s' → rel a b s s') :
    S.Runs s s' (pure a) (pure b) rel := fun hs =>
  ⟨a, b, s, s', rfl, rfl, hs, .refl _ _, ⟨⟨rfl, rfl⟩, ⟨rfl, rfl⟩⟩, h hs⟩

theorem Runs.bind {f : α → Indexing γ} {f' : β → Indexing δ} (h : S.Runs s s' m m' rel)
    (hf : ∀ a b t t', Later s s' t t' → rel a b t t' → S.Runs t t' (f a) (f' b) rel') :
    S.Runs s s' (m >>= f) (m' >>= f') rel' := by
  intro hs
  obtain ⟨a, b, t, t', hm, hm', ht, hl, hfiles, hr⟩ := h hs
  obtain ⟨c, e, u, u', hc, he, hu, hl', hfiles', hr'⟩ := hf a b t t' hl hr ht
  refine ⟨c, e, u, u', ?_, ?_, hu, hl.trans hl', ⟨hfiles.1.trans hfiles'.1,
    hfiles.2.trans hfiles'.2⟩, hr'⟩
  · rw [StateT.run_bind, hm]
    exact hc
  · rw [StateT.run_bind, hm']
    exact he

theorem Runs.map {f : α → γ} {f' : β → δ} (h : S.Runs s s' m m' rel)
    (hf : ∀ a b t t', rel a b t t' → rel' (f a) (f' b) t t') :
    S.Runs s s' (f <$> m) (f' <$> m') rel' := by
  intro hs
  obtain ⟨a, b, t, t', hm, hm', ht, hl, hfiles, hr⟩ := h hs
  refine ⟨f a, f' b, t, t', ?_, ?_, ht, hl, hfiles, hf a b t t' hr⟩
  · rw [StateT.run_map, hm]
    rfl
  · rw [StateT.run_map, hm']
    rfl

theorem Runs.paired (h : S.Paired s s' → S.Runs s s' m m' rel) : S.Runs s s' m m' rel :=
  fun hs => h hs hs

/-- Work that is one change of each state. -/
theorem Runs.step {f : IndexState → α × IndexState} {f' : IndexState → β × IndexState}
    (hp : S.Paired s s' → S.Paired (f s).2 (f' s').2)
    (hl : S.Paired s s' → Later s s' (f s).2 (f' s').2)
    (hfiles : SameFiles s (f s).2 ∧ SameFiles s' (f' s').2)
    (hr : S.Paired s s' → rel (f s).1 (f' s').1 (f s).2 (f' s').2) :
    S.Runs s s' (modifyGet f) (modifyGet f') rel := fun hs =>
  ⟨_, _, _, _, rfl, rfl, hp hs, hl hs, hfiles, hr hs⟩

/-! ### Names -/

/-- Names that agree where the runs end. -/
def agreed (n n' : Name) (t t' : IndexState) : Prop := t.names.Agree t'.names n n'

theorem qualify_runs {o o' : Option Name} {simple : Name}
    (ho : Option.Rel (s.names.Agree s'.names) o o') (hn : S.base.Proper simple) :
    S.Runs s s' (qualify o simple) (qualify o' simple) agreed := by
  refine .paired fun hs => ?_
  have hsimple : s.names.Agree s'.names simple simple :=
    .of_issued hn.1 hs.base_left hs.base_right
  obtain ⟨n, v, hq, hle, htext⟩ :=
    NameTable.qualify?_eq_some (NameTable.Agree.outer_left ho) hsimple.left hn.2
  obtain ⟨n', v', hq', hle', htext'⟩ :=
    NameTable.qualify?_eq_some (NameTable.Agree.outer_right ho) hsimple.right hn.2
  have hv : s.names.qualify o simple = (n, v) := by rw [NameTable.qualify, hq]; rfl
  have hv' : s'.names.qualify o' simple = (n', v') := by rw [NameTable.qualify, hq']; rfl
  have hl : Later s s' { s with names := v } { s' with names := v' } := ⟨hle, hle', .refl _⟩
  refine fun _ => ⟨n, n', { s with names := v }, { s' with names := v' }, ?_, ?_,
    ⟨hs.base_left.trans hle, hs.base_right.trans hle', hs.agrees.later hl⟩, hl,
    ⟨⟨rfl, rfl⟩, ⟨rfl, rfl⟩⟩, _, htext, ?_⟩
  · show (fun r : Name × NameTable => (r.1, { s with names := r.2 })) (s.names.qualify o simple) = _
    rw [hv]
  · show (fun r : Name × NameTable => (r.1, { s' with names := r.2 }))
      (s'.names.qualify o' simple) = _
    rw [hv']
  · rw [htext', NameTable.Agree.joined ho hsimple]

theorem qualifyPath_runs {path : List Name} {o o' : Option Name}
    (ho : Option.Rel (s.names.Agree s'.names) o o') (hn : ∀ n ∈ path, S.base.Proper n) :
    S.Runs s s' (qualifyPath o path) (qualifyPath o' path)
      fun r r' t t' => Option.Rel (t.names.Agree t'.names) r r' := by
  induction path generalizing s s' o o' with
  | nil => exact .pure fun _ => ho
  | cons first rest ih =>
    refine (qualify_runs ho (hn first List.mem_cons_self)).bind fun n n' t t' _ hr => ?_
    exact ih (.some hr) fun m hm => hn m (List.mem_cons_of_mem _ hm)

/-- The name of a member type. -/
theorem memberName_runs {q q' : QualifiedName} {name : Option Name}
    (hq : QualifiedName.Agree s.names s'.names q q') (hn : ∀ n ∈ name, S.base.Proper n) :
    S.Runs s s' (memberName q name) (memberName q' name)
      fun r r' t t' => QualifiedName.Agree t.names t'.names r r' := by
  cases hq with
  | anonymous => exact .pure fun _ => .anonymous
  | notApplicable => exact .pure fun _ => .anonymous
  | named h =>
    cases name with
    | none => exact .pure fun _ => .anonymous
    | some simple =>
      exact (qualify_runs (.some h) (hn simple rfl)).map fun _ _ _ _ hr => .named hr

/-- The name of a top-level declaration. -/
theorem topName_runs {package package' : Option Name} {name : Option Name}
    (hp : Option.Rel (s.names.Agree s'.names) package package')
    (hn : ∀ n ∈ name, S.base.Proper n) :
    S.Runs s s' (topName package name) (topName package' name)
      fun r r' t t' => QualifiedName.Agree t.names t'.names r r' := by
  cases name with
  | none => exact .pure fun _ => .anonymous
  | some simple => exact (qualify_runs hp (hn simple rfl)).map fun _ _ _ _ hr => .named hr

/-! ### Entries -/

/-- Declarations that correspond are numbered in step. -/
theorem push_runs {info info' : DeclInfo} (hm : info.memberTypes = [])
    (hi : S.Infos s s' info info') :
    S.Runs s s' (push info) (push info') fun id id' t _ =>
      S.Decl t id id' ∧ t.index.known? id = some info := by
  refine .paired fun hs => ?_
  obtain ⟨k, hk, hk'⟩ := hs.agrees.size
  let t : IndexState := { s with index.decls := s.index.decls.push info }
  let t' : IndexState := { s' with index.decls := s'.index.decls.push info' }
  have hl : Later s s' t t' := ⟨.refl _, .refl _, extends_push s.index hm⟩
  have hsize : t.index.size = S.start.index.size + (k + 1) := by
    show (s.index.decls.push info).size = _
    rw [Array.size_push, ← Nat.add_assoc, ← hk]
    rfl
  have hsize' : t'.index.size = S.start'.index.size + (k + 1) := by
    show (s'.index.decls.push info').size = _
    rw [Array.size_push, ← Nat.add_assoc, ← hk']
    rfl
  have hagrees := hs.agrees.later hl
  refine .step (fun _ => ⟨hs.base_left, hs.base_right, { hagrees with
      size := ⟨k + 1, hsize, hsize'⟩, infos := fun j hj => ?_, old := fun d hd => ?_,
      old' := fun d hd => ?_ }⟩) (fun _ => hl) ⟨⟨rfl, rfl⟩, ⟨rfl, rfl⟩⟩ fun _ => ⟨⟨k, hk, hk', ?_⟩, ?_⟩
  · rw [get?_push, get?_push, hk, hk']
    have hne (a : Nat) (h : j < k) : ¬a + j = a + k := by omega
    have hj : j < k + 1 := by
      change S.start.index.size + j < t.index.size at hj
      omega
    -- A number below the new one leads where it did, and the new one to the new entries.
    rcases Nat.lt_succ_iff_lt_or_eq.1 hj with hlt | rfl
    · rw [if_neg (hne _ hlt), if_neg (hne _ hlt)]
      exact hagrees.infos j (hk ▸ Nat.add_lt_add_left hlt _)
    · rw [if_pos rfl, if_pos rfl]
      exact ⟨info, info', rfl, rfl, hi.alike.mono hl.left hl.right (fun _ _ hd => hd.later hl)
        (fun _ _ hu => hu) fun _ _ _ hn => hn.later hl, hi.tree⟩
  · have hne : ¬d = s.index.size := by omega
    rw [get?_push, if_neg hne]
    exact hs.agrees.old d hd
  · have hne : ¬d = s'.index.size := by omega
    rw [get?_push, if_neg hne]
    exact hs.agrees.old' d hd
  · show s.index.size < t.index.size
    omega
  · exact (known?_push s.index hm _).trans (if_pos rfl)

theorem enter_runs (id id' : DeclId) (name name' : QualifiedName) (reachable reachable' : Bool) :
    S.Runs s s' (enter id name reachable) (enter id' name' reachable')
      fun _ _ t _ => t.index.known? = s.index.known? := by
  intro hs
  obtain ⟨r, byName, more, hr, -⟩ := enter_eq id name reachable s
  obtain ⟨r', byName', more', hr', -⟩ := enter_eq id' name' reachable' s'
  have hl : Later s s'
      { s with index.byName := byName, index.duplicates := s.index.duplicates ++ more }
      { s' with index.byName := byName', index.duplicates := s'.index.duplicates ++ more' } :=
    ⟨.refl _, .refl _, .refl _⟩
  exact ⟨r, r', _, _, hr, hr', ⟨hs.base_left, hs.base_right, { hs.agrees.later hl with }⟩, hl,
    ⟨⟨rfl, rfl⟩, ⟨rfl, rfl⟩⟩, rfl⟩

theorem number_runs {info info' : DeclInfo} {reachable reachable' : Bool}
    (hm : info.memberTypes = []) (hi : S.Infos s s' info info') :
    S.Runs s s' (number info reachable) (number info' reachable') fun r r' t _ =>
      S.Decl t r.1 r'.1 ∧ t.index.known? r.1 = some info := by
  unfold number
  refine (push_runs hm hi).bind fun id id' t t' _ ⟨hid, hknown⟩ => ?_
  exact (enter_runs id id' _ _ _ _).bind fun _ _ u u' hl heq => .pure fun _ =>
    ⟨hid.later hl, heq ▸ hknown⟩

theorem addChild_runs {p p' c c' : DeclId} {m m' : Nat} (hp : S.Decl s p p') (hm : S.Number s p m m')
    (hc : S.Decl s c c') :
    S.Runs s s' (addChild p m c) (addChild p' m' c') fun _ _ _ _ => True := by
  have hl : Later s s'
      { s with index.children := s.index.children ++ [((p, m), c)] }
      { s' with index.children := s'.index.children ++ [((p', m'), c')] } :=
    ⟨.refl _, .refl _, .refl _⟩
  refine .step (fun hs => ?_) (fun _ => hl) ⟨⟨rfl, rfl⟩, ⟨rfl, rfl⟩⟩ fun _ => trivial
  have hagrees := hs.agrees.later hl
  exact ⟨hs.base_left, hs.base_right, { hagrees with
    children := hagrees.children.snoc ⟨hp.later hl, hm.later hl, hc.later hl⟩ }⟩

theorem setMemberTypes_runs {id id' : DeclId} {types types' : List DeclId} (hd : S.Decl s id id')
    (ht : List.Forall₂ (S.Decl s) types types') :
    S.Runs s s' (setMemberTypes id types) (setMemberTypes id' types') fun _ _ _ _ => True := by
  refine .paired fun hs => ?_
  obtain ⟨k, rfl, rfl, hlt⟩ := hd
  let t : IndexState := { s with
    index.decls := s.index.decls.modify (S.start.index.size + k) fun i =>
      { i with memberTypes := types } }
  let t' : IndexState := { s' with
    index.decls := s'.index.decls.modify (S.start'.index.size + k) fun i =>
      { i with memberTypes := types' } }
  have hknown : t.index.known? = s.index.known? := known?_setMemberTypes s.index _ types
  have hl : Later s s' t t' := ⟨.refl _, .refl _, hknown ▸ .refl _⟩
  have hagrees := hs.agrees.later hl
  obtain ⟨n, hn, hn'⟩ := hs.agrees.size
  have hsize : t.index.size = s.index.size := Array.size_modify ..
  have hsize' : t'.index.size = s'.index.size := Array.size_modify ..
  refine .step (fun _ => ⟨hs.base_left, hs.base_right, { hagrees with
      size := ⟨n, hsize.trans hn, hsize'.trans hn'⟩, infos := fun j hj => ?_,
      old := fun e he => ?_, old' := fun e he => ?_ }⟩) (fun _ => hl) ⟨⟨rfl, rfl⟩, ⟨rfl, rfl⟩⟩
    fun _ => trivial
  · obtain ⟨i, i', hi, hi', hinfos⟩ := hagrees.infos j (hsize ▸ hj)
    rw [get?_setMemberTypes, get?_setMemberTypes, hi, hi']
    -- Only the entry of the declaration itself changes, and no declaration from before the batch.
    by_cases hk : k = j
    · subst hk
      rw [if_pos rfl, if_pos rfl]
      exact ⟨_, _, rfl, rfl, { hinfos.alike with memberTypes := ht.imp fun _ _ h => h.later hl },
        hinfos.tree⟩
    · have hne (a : Nat) : ¬a + k = a + j := fun h => hk (Nat.add_left_cancel h)
      rw [if_neg (hne _), if_neg (hne _)]
      exact ⟨i, i', rfl, rfl, hinfos⟩
  · have hne : ¬S.start.index.size + k = e := by omega
    rw [get?_setMemberTypes, if_neg hne]
    exact hs.agrees.old e he
  · have hne : ¬S.start'.index.size + k = e := by omega
    rw [get?_setMemberTypes, if_neg hne]
    exact hs.agrees.old' e he

/-! ### Declarations -/

variable (S)

/-- Places at which corresponding declarations can be numbered. -/
structure Places (s s' : IndexState) (place place' : Indexing.Place) (tree : TypeDecl) : Prop where
  unit : S.unit place.unit place'.unit
  parent : Option.Rel (S.Decl s) place.parent place'.parent
  left : treeAt S.units place.unit place.path = some tree
  right : treeAt S.units' place'.unit place'.path = some (tree.restrict S.keep)
  qualifiedName : QualifiedName.Agree s.names s'.names place.qualifiedName place'.qualifiedName
  constant : Option.Rel (fun m m' => ∃ p ∈ place.parent, S.Number s p m m') place.constant
    place'.constant

/-- The places of what corresponding declarations enclose. -/
structure Around (s s' : IndexState) (outer outer' : Indexing.Place) (id id' : DeclId)
    (tree : TypeDecl) : Prop where
  unit : S.unit outer.unit outer'.unit
  parent : outer.parent = some id
  parent' : outer'.parent = some id'
  decl : S.Decl s id id'
  left : treeAt S.units outer.unit outer.path = some tree
  right : treeAt S.units' outer'.unit outer'.path = some (tree.restrict S.keep)
  known : s.index.tree? S.units id = some tree
  qualifiedName : QualifiedName.Agree s.names s'.names outer.qualifiedName outer'.qualifiedName

variable {S}

/-- What is entered there corresponds. -/
theorem Places.entries {place place' : Indexing.Place} {head : DeclHead} {members : List Member}
    (h : S.Places s s' place place' (.mk head members)) (hs : head.Sound S.base False) :
    S.Infos s s' (place.entry head) (place'.entry head) where
  alike :=
    { unit := h.unit
      parent := h.parent
      simpleName := rfl
      simple_issued := Place.entry_simpleName hs
      qualifiedName := h.qualifiedName
      typeParams := rfl
      params_issued := Place.entry_typeParams hs
      nameSpan := rfl
      constant := h.constant
      memberTypes := .nil }
  tree := ⟨.mk head members, h.left, TypeDecl.restrict.eq_1 S.keep head members ▸ h.right⟩

theorem Around.later {outer outer' : Indexing.Place} {id id' : DeclId} {tree : TypeDecl}
    (h : S.Around s s' outer outer' id id' tree) (hl : Later s s' t t') :
    S.Around t t' outer outer' id id' tree :=
  { h with
    decl := h.decl.later hl
    known := tree?_later h.known hl
    qualifiedName := h.qualifiedName.le hl.left hl.right }

mutual

/-- **Corresponding declarations are numbered in step**, with all that they enclose. -/
theorem addDecl_runs {place place' : Indexing.Place} {tree : TypeDecl} {s s' : IndexState}
    (hp : S.Places s s' place place' tree) (hs : tree.Sound S.base False) :
    S.Runs s s' (addDecl place tree) (addDecl place' (tree.restrict S.keep))
      fun id id' t _ => S.Decl t id id' := by
  match tree with
  | .mk head members =>
    rw [TypeDecl.Sound] at hs
    rw [TypeDecl.restrict, addDecl_eq, addDecl_eq]
    refine (number_runs rfl (hp.entries hs.1)).bind fun r r' u u' hl ⟨hid, hknown⟩ => ?_
    have haround : S.Around u u' { place with parent := some r.1, reachable := r.2 }
        { place' with parent := some r'.1, reachable := r'.2 } r.1 r'.1 (.mk head members) :=
      { unit := hp.unit
        parent := rfl
        parent' := rfl
        decl := hid
        left := hp.left
        right := hp.right
        known := by
          rw [DeclIndex.tree?_eq, hknown]
          exact hp.left
        qualifiedName := hp.qualifiedName.le hl.left hl.right }
    refine (addMembers_runs [] members haround rfl hs.2).bind fun types types' v v' hl' ht => ?_
    refine (setMemberTypes_runs (hid.later hl') ht).bind fun _ _ x x' hl'' _ => .pure fun _ => ?_
    exact (hid.later hl').later hl''

theorem addMembers_runs {outer outer' : Indexing.Place} {id id' : DeclId} {tree : TypeDecl}
    {s s' : IndexState} (before ms : List Member) (ho : S.Around s s' outer outer' id id' tree)
    (hsplit : tree.members = before ++ ms) (hms : Member.AllSound S.base False ms) :
    S.Runs s s' (addMembers outer id before.length ms)
      (addMembers outer' id' (before.countP (Member.kept S.keep)) (Member.restrictAll S.keep ms))
      fun types types' t _ => List.Forall₂ (S.Decl t) types types' := by
  match ms with
  | [] =>
    rw [Member.restrictAll, addMembers, addMembers]
    exact .pure fun _ => .nil
  | m :: rest =>
    rw [Member.AllSound] at hms
    have hsplit' := hsplit.trans (List.append_cons before m rest)
    rw [Member.restrictAll, addMembers]
    by_cases hk : m.kept S.keep = true
    · rw [if_pos hk, addMembers]
      have hstays : Stays S.keep tree.members before.length
          (before.countP (Member.kept S.keep)) := hsplit ▸ Stays.at_split hk
      have hget : tree.members[before.length]? = some m := by
        rw [hsplit, List.getElem?_append_right (Nat.le_refl _), Nat.sub_self]
        rfl
      refine (addMember_runs ho hstays hget hms.1).bind fun found found' t t' hl hfound => ?_
      have hrest := addMembers_runs (before ++ [m]) rest (ho.later hl) hsplit' hms.2
      rw [List.length_append, List.countP_append, List.countP_singleton, if_pos hk] at hrest
      refine hrest.bind fun more more' u u' hl' hmore => .pure fun _ => ?_
      refine List.rel_append ?_ hmore
      cases hfound with
      | none => exact .nil
      | some hd => exact .cons (hd.later hl') .nil
    · rw [if_neg hk]
      -- A field that is left out has no declaration, so numbering goes on as if it were not there.
      cases m with
      | field f =>
        have hrest := addMembers_runs (before ++ [.field f]) rest ho hsplit' hms.2
        rw [List.length_append, List.countP_append, List.countP_singleton, if_neg hk] at hrest
        rw [Indexing.addMember, pure_bind]
        rw [← bind_pure (addMembers outer id _ rest)] at hrest
        exact hrest
      | type t => exact absurd rfl hk
      | constant n body sp => exact absurd rfl hk

theorem addMember_runs {outer outer' : Indexing.Place} {id id' : DeclId} {tree : TypeDecl}
    {k k' : Nat} {m : Member} {s s' : IndexState} (ho : S.Around s s' outer outer' id id' tree)
    (hk : Stays S.keep tree.members k k') (hget : tree.members[k]? = some m)
    (hm : m.Sound S.base False) :
    S.Runs s s' (Indexing.addMember outer id k m) (Indexing.addMember outer' id' k' (m.restrict S.keep))
      fun found found' t _ => Option.Rel (S.Decl t) found found' := by
  -- In the other batch the member stands at the number that it keeps there.
  have hget' : (tree.restrict S.keep).members[k']? = some (m.restrict S.keep) := by
    rw [TypeDecl.members_restrict, hk.get, hget]
    rfl
  have hnumber : S.Number s id k k' := ⟨tree, ho.known, hk⟩
  match m with
  | .type d =>
    rw [Member.Sound] at hm
    rw [Member.restrict] at hget' ⊢
    rw [Indexing.addMember, Indexing.addMember, TypeDecl.head_restrict]
    have hname : ∀ n ∈ d.head.name, S.base.Proper n := by
      match d with
      | .mk head members =>
        rw [TypeDecl.Sound] at hm
        exact hm.1.name
    refine (memberName_runs ho.qualifiedName hname).bind fun q q' t t' hl hq => ?_
    have hplaces : S.Places t t'
        { outer with path := outer.path ++ [k], qualifiedName := q, constant := none }
        { outer' with path := outer'.path ++ [k'], qualifiedName := q', constant := none } d :=
      { unit := ho.unit
        parent := by
          rw [ho.parent, ho.parent']
          exact .some (ho.decl.later hl)
        left := treeAt_member ho.left hget
        right := treeAt_member ho.right hget'
        qualifiedName := hq
        constant := .none }
    refine (addDecl_runs hplaces hm).bind fun c c' u u' hl' hc => ?_
    have hlater := hl.trans hl'
    exact (addChild_runs (ho.decl.later hlater) (hnumber.later hlater) hc).bind
      fun _ _ _ _ hl'' _ => .pure fun _ => .some (hc.later hl'')
  | .constant n (some body) sp =>
    rw [Member.Sound] at hm
    rw [Member.restrict] at hget' ⊢
    rw [Indexing.addMember, Indexing.addMember]
    have hplaces : S.Places s s'
        { outer with path := outer.path ++ [k], qualifiedName := .anonymous, constant := some k }
        { outer' with path := outer'.path ++ [k'], qualifiedName := .anonymous, constant := some k' }
        body :=
      { unit := ho.unit
        parent := by
          rw [ho.parent, ho.parent']
          exact .some ho.decl
        left := treeAt_body ho.left hget
        right := treeAt_body ho.right hget'
        qualifiedName := .anonymous
        constant := .some ⟨id, ho.parent, hnumber⟩ }
    refine (addDecl_runs hplaces hm.2.2).bind fun c c' u u' hl hc => ?_
    exact (addChild_runs (ho.decl.later hl) (hnumber.later hl) hc).bind
      fun _ _ _ _ _ _ => .pure fun _ => .none
  | .constant _ none _ =>
    rw [Member.restrict, Indexing.addMember, Indexing.addMember]
    exact .pure fun _ => .none
  | .field _ =>
    rw [Member.restrict, Indexing.addMember, Indexing.addMember]
    exact .pure fun _ => .none

end

/-! ### Files -/

theorem addImport_runs {imports imports' : UnitImports} {i : ImportDecl}
    (hi : UnitImports.Agree s.names s'.names imports imports')
    (hn : ∀ n ∈ i.path.segments, S.base.Proper n) :
    S.Runs s s' (addImport imports i) (addImport imports' i)
      fun r r' t t' => UnitImports.Agree t.names t'.names r r' := by
  unfold addImport
  refine (qualifyPath_runs .none hn).bind fun path path' t t' hl hpath => ?_
  have hi' := hi.le hl.left hl.right
  cases hpath with
  | none => exact .pure fun _ => hi'
  | some hp =>
    generalize i.path.segments.getLast? = last
    cases last with
    | none => exact .pure fun _ => hi'
    | some last =>
      by_cases hd : i.onDemand = true
      · simp only [hd, if_true]
        exact .pure fun _ => ⟨hi'.single, List.rel_append hi'.onDemand (.cons hp .nil)⟩
      · simp only [hd]
        exact .pure fun _ => ⟨List.rel_append hi'.single (.cons ⟨rfl, hp⟩ .nil), hi'.onDemand⟩

theorem addImports_runs {is : List ImportDecl} {imports imports' : UnitImports}
    (hi : UnitImports.Agree s.names s'.names imports imports')
    (hn : ∀ i ∈ is, ∀ n ∈ i.path.segments, S.base.Proper n) :
    S.Runs s s' (is.foldlM addImport imports) (is.foldlM addImport imports')
      fun r r' t t' => UnitImports.Agree t.names t'.names r r' := by
  induction is generalizing s s' imports imports' with
  | nil => exact .pure fun _ => hi
  | cons i rest ih =>
    rw [List.foldlM_cons, List.foldlM_cons]
    refine (addImport_runs hi (hn i List.mem_cons_self)).bind fun r r' t t' _ hr => ?_
    exact ih hr fun j hj => hn j (List.mem_cons_of_mem i hj)

theorem packageName_runs {p : Option PackageDecl}
    (hn : ∀ d ∈ p, ∀ n ∈ d.path.segments, S.base.Proper n) :
    S.Runs s s' (packageName p) (packageName p)
      fun r r' t t' => Option.Rel (t.names.Agree t'.names) r r' := by
  cases p with
  | none => exact .pure fun _ => .none
  | some d => exact qualifyPath_runs .none (hn d rfl)

theorem addTopLevel_runs {id id' : DeclId} (h : S.Decl s id id') :
    S.Runs s s' (modify fun s => { s with index.topLevel := s.index.topLevel ++ [id] })
      (modify fun s => { s with index.topLevel := s.index.topLevel ++ [id'] })
      fun _ _ _ _ => True := by
  have hl : Later s s' { s with index.topLevel := s.index.topLevel ++ [id] }
      { s' with index.topLevel := s'.index.topLevel ++ [id'] } :=
    ⟨.refl _, .refl _, .refl _⟩
  refine .step (fun hs => ?_) (fun _ => hl) ⟨⟨rfl, rfl⟩, ⟨rfl, rfl⟩⟩ fun _ => trivial
  have hagrees := hs.agrees.later hl
  exact ⟨hs.base_left, hs.base_right, { hagrees with
    topLevel := hagrees.topLevel.snoc (h.later hl) }⟩

theorem addTypes_runs {unit unit' k : Nat} {package package' : Option Name} {u : CompilationUnit}
    {ds : List TypeDecl} (hu : S.units[unit]? = some u)
    (hu' : S.units'[unit']? = some (u.restrict S.keep)) (hunit : S.unit unit unit')
    (hk : ∀ j, ds[j]? = u.types[k + j]?)
    (hp : Option.Rel (s.names.Agree s'.names) package package')
    (hs : ∀ d ∈ ds, d.Sound S.base False) :
    S.Runs s s' (addTypes unit package k ds)
      (addTypes unit' package' k (ds.map (TypeDecl.restrict S.keep))) fun _ _ _ _ => True := by
  induction ds generalizing s s' k with
  | nil => exact .pure fun _ => trivial
  | cons d rest ih =>
    rw [List.map_cons, addTypes, addTypes, TypeDecl.head_restrict]
    have hd := hs d List.mem_cons_self
    have hname : ∀ n ∈ d.head.name, S.base.Proper n := by
      cases d with
      | mk head members =>
        rw [TypeDecl.Sound] at hd
        exact hd.1.name
    refine (topName_runs hp hname).bind fun q q' t t' hl hq => ?_
    have hget : u.types[k]? = some d := (hk 0).symm
    -- Types at the top are all kept, so they have the same numbers in both.
    have hplaces : S.Places t t' ⟨unit, none, [k], q, none, true⟩ ⟨unit', none, [k], q', none, true⟩
        d :=
      { unit := hunit
        parent := .none
        left := by simp [treeAt, hu, hget, TypeDecl.follow?]
        right := by simp [treeAt, hu', CompilationUnit.restrict, hget, TypeDecl.follow?]
        qualifiedName := hq
        constant := .none }
    refine (addDecl_runs hplaces hd).bind fun id id' v v' hl₁ hid => ?_
    refine (addTopLevel_runs hid).bind fun _ _ x x' hl₂ _ => ?_
    have hlater := (hl.trans hl₁).trans hl₂
    refine ih (fun j => ?_) (Option.Rel.mono hp fun _ _ hn => hn.le hlater.left hlater.right)
      fun e he => hs e (List.mem_cons_of_mem d he)
    rw [Nat.add_assoc, Nat.add_comm 1 j, ← hk (j + 1)]
    rfl

variable (S)

/-- What recording corresponding files comes to. -/
structure Recorded (s s' t t' : IndexState) : Prop where
  paired : S.Paired t t'
  later : Later s s' t t'
  package : ∃ p p', t.index.packages = s.index.packages ++ [p] ∧
    t'.index.packages = s'.index.packages ++ [p'] ∧ Option.Rel (t.names.Agree t'.names) p p'
  imports : ∃ is is', t.index.imports = s.index.imports ++ [is] ∧
    t'.index.imports = s'.index.imports ++ [is'] ∧ UnitImports.Agree t.names t'.names is is'

variable {S}

/-- **Files that correspond are recorded in step.** -/
theorem addUnit_recorded {unit unit' : Nat} {u : CompilationUnit} (hu : S.units[unit]? = some u)
    (hu' : S.units'[unit']? = some (u.restrict S.keep)) (hunit : S.unit unit unit')
    (hs : u.Sound S.base False) (h : S.Paired s s') :
    ∃ t t', (addUnit unit u).run s = ((), t) ∧
      (addUnit unit' (u.restrict S.keep)).run s' = ((), t') ∧ S.Recorded s s' t t' := by
  obtain ⟨p, p', t₁, t₁', hp, hp', h₁, hl₁, hf₁, hpackage⟩ := packageName_runs hs.package h
  let t₂ : IndexState := { t₁ with index.packages := t₁.index.packages ++ [p] }
  let t₂' : IndexState := { t₁' with index.packages := t₁'.index.packages ++ [p'] }
  have hl₂ : Later t₁ t₁' t₂ t₂' := ⟨.refl _, .refl _, .refl _⟩
  have h₂ : S.Paired t₂ t₂' := ⟨h₁.base_left, h₁.base_right, { h₁.agrees.later hl₂ with }⟩
  have hnone : UnitImports.Agree t₂.names t₂'.names {} {} := ⟨.nil, .nil⟩
  obtain ⟨is, is', t₃, t₃', hi, hi', h₃, hl₃, hf₃, himports⟩ :=
    addImports_runs hnone hs.imports h₂
  let t₄ : IndexState := { t₃ with index.imports := t₃.index.imports ++ [is] }
  let t₄' : IndexState := { t₃' with index.imports := t₃'.index.imports ++ [is'] }
  have hl₄ : Later t₃ t₃' t₄ t₄' := ⟨.refl _, .refl _, .refl _⟩
  have h₄ : S.Paired t₄ t₄' := ⟨h₃.base_left, h₃.base_right, { h₃.agrees.later hl₄ with }⟩
  have hpackage₄ : Option.Rel (t₄.names.Agree t₄'.names) p p' :=
    Option.Rel.mono hpackage fun _ _ hn => hn.le hl₃.left hl₃.right
  obtain ⟨_, _, t, t', ht, ht', h₅, hl₅, hf₅, -⟩ :=
    addTypes_runs hu hu' hunit (fun j => by rw [Nat.zero_add]) hpackage₄ hs.types h₄
  -- Of packages and imports, only those of this file are added.
  have hpackages : t.index.packages = s.index.packages ++ [p] :=
    (hf₅.1.packages.trans hf₃.1.packages).trans (congrArg (· ++ [p]) hf₁.1.packages)
  have hpackages' : t'.index.packages = s'.index.packages ++ [p'] :=
    (hf₅.2.packages.trans hf₃.2.packages).trans (congrArg (· ++ [p']) hf₁.2.packages)
  have hadded : t.index.imports = s.index.imports ++ [is] :=
    hf₅.1.imports.trans (congrArg (· ++ [is]) (hf₃.1.imports.trans hf₁.1.imports))
  have hadded' : t'.index.imports = s'.index.imports ++ [is'] :=
    hf₅.2.imports.trans (congrArg (· ++ [is']) (hf₃.2.imports.trans hf₁.2.imports))
  refine ⟨t, t', ?_, ?_, h₅, hl₁.trans (hl₂.trans (hl₃.trans (hl₄.trans hl₅))),
    ⟨p, p', hpackages, hpackages', Option.Rel.mono hpackage₄ fun _ _ hn =>
      hn.le hl₅.left hl₅.right⟩, ⟨is, is', hadded, hadded', himports.le hl₅.left hl₅.right⟩⟩
  · unfold addUnit
    rw [StateT.run_bind, hp]
    show ((u.imports.foldlM addImport {} >>= fun is => do
      modify fun s => { s with index.imports := s.index.imports ++ [is] }
      addTypes unit p 0 u.types).run t₂) = _
    rw [StateT.run_bind, hi]
    exact ht
  · unfold addUnit
    rw [StateT.run_bind, show (u.restrict S.keep).package = u.package from rfl, hp']
    show ((u.imports.foldlM addImport {} >>= fun is => do
      modify fun s => { s with index.imports := s.index.imports ++ [is] }
      addTypes unit' p' 0 (u.restrict S.keep).types).run t₂') = _
    rw [StateT.run_bind, hi']
    exact ht'

end IndexTwins

end JavaAbi
