import JavaAbi.Proofs.WrittenTypes

namespace JavaAbi

/-!
# Twin worlds

Two batches that a client cannot tell apart, as far as the rules of name resolution go: their
declarations correspond, though they may be numbered differently, and the trees of corresponding
declarations are the same but for variables that one of them leaves out. What is kept of the members
keeps its order, so that member numbers shift.

* `TypeDecl.restrict` — a declaration without some of its variables;
* `Stays` — where a kept member stands after that;
* `NameTable.Agree` — names of two tables with one text;
* `Twins` — the correspondence of two worlds;
* `Twins.Keys` — corresponding keys; `keyOf_twins`, `allMemberKeys_twins` say which these are.
-/

/-! ### Leaving out variables -/

/-- Whether a member is kept. -/
def Member.kept (keep : FieldDecl → Bool) : Member → Bool
  | .field f => keep f
  | _ => true

mutual

/-- A declaration with the variables that are to be kept, those of the declarations inside it
    included. -/
def TypeDecl.restrict (keep : FieldDecl → Bool) : TypeDecl → TypeDecl
  | .mk head members => .mk head (Member.restrictAll keep members)

/-- The same for a member. -/
def Member.restrict (keep : FieldDecl → Bool) : Member → Member
  | .type d => .type (d.restrict keep)
  | .field f => .field f
  | .constant n none sp => .constant n none sp
  | .constant n (some body) sp => .constant n (some (body.restrict keep)) sp

/-- The members to be kept. -/
def Member.restrictAll (keep : FieldDecl → Bool) : List Member → List Member
  | [] => []
  | m :: rest =>
    if m.kept keep then m.restrict keep :: Member.restrictAll keep rest
    else Member.restrictAll keep rest

end

/-- A file with the variables that are to be kept. -/
def CompilationUnit.restrict (keep : FieldDecl → Bool) (u : CompilationUnit) : CompilationUnit :=
  { u with types := u.types.map (TypeDecl.restrict keep) }

section Restrict

variable {keep : FieldDecl → Bool} {ms : List Member} {m m' n n' : Nat}

@[simp] theorem TypeDecl.head_restrict (d : TypeDecl) : (d.restrict keep).head = d.head := by
  cases d
  rw [restrict]
  rfl

@[simp] theorem TypeDecl.members_restrict (d : TypeDecl) :
    (d.restrict keep).members = Member.restrictAll keep d.members := by
  cases d
  rw [restrict]
  rfl

/-- Member `m` of a list is kept, and is member `m'` of the kept ones. -/
structure Stays (keep : FieldDecl → Bool) (ms : List Member) (m m' : Nat) : Prop where
  kept : ∃ x, ms[m]? = some x ∧ x.kept keep = true
  place : m' = (ms.take m).countP (Member.kept keep)

/-- The first of the remaining members, if it is kept. -/
theorem Stays.at_split {before rest : List Member} {x : Member} (hx : x.kept keep = true) :
    Stays keep (before ++ x :: rest) before.length (before.countP (Member.kept keep)) where
  kept := ⟨x, List.getElem?_append_right (Nat.le_refl _) |>.trans (by rw [Nat.sub_self]; rfl), hx⟩
  place := by rw [List.take_left]

theorem Stays.functional (h : Stays keep ms m m') (h' : Stays keep ms m n') : m' = n' :=
  h.place.trans h'.place.symm

/-- Of two kept members, the later one stays the later one. -/
theorem Stays.lt (h : Stays keep ms m m') (h' : Stays keep ms n n') (hlt : m < n) : m' < n' := by
  obtain ⟨x, hx, hk⟩ := h.kept
  obtain ⟨hm, rfl⟩ := List.getElem?_eq_some_iff.1 hx
  have hsplit : ms.take n = ms.take m ++ ms[m] :: (ms.take n).drop (m + 1) := by
    have hlength : m < (ms.take n).length := by rw [List.length_take]; omega
    have hget : (ms.take n)[m] = ms[m] := List.getElem_take
    rw [← hget, ← List.drop_eq_getElem_cons, ← List.take_append_drop m (ms.take n), List.take_take,
      Nat.min_eq_left (Nat.le_of_lt hlt), List.drop_append]
    simp [Nat.min_eq_left (Nat.le_of_lt hm)]
  rw [h.place, h'.place, hsplit, List.countP_append, List.countP_cons_of_pos hk]
  omega

theorem Stays.injective (h : Stays keep ms m m') (h' : Stays keep ms n m') : m = n := by
  rcases Nat.lt_trichotomy m n with hlt | heq | hlt
  · exact absurd (h.lt h' hlt) (Nat.lt_irrefl _)
  · exact heq
  · exact absurd (h'.lt h hlt) (Nat.lt_irrefl _)

/-- A kept member is found at its new place. -/
theorem Stays.get (h : Stays keep ms m m') :
    (Member.restrictAll keep ms)[m']? = ms[m]?.map (Member.restrict keep) := by
  obtain ⟨⟨x, hx, hk⟩, rfl⟩ := h
  induction ms generalizing m with
  | nil => cases hx
  | cons first rest ih =>
    rw [Member.restrictAll]
    cases m with
    | zero =>
      cases hx
      rw [if_pos hk]
      rfl
    | succ m =>
      rw [List.take_succ_cons]
      by_cases hf : first.kept keep = true
      · rw [if_pos hf, List.countP_cons_of_pos hf]
        exact ih hx
      · rw [if_neg hf, List.countP_cons_of_neg hf]
        exact ih hx

end Restrict

/-! ### Names of two tables -/

theorem Option.Rel.mono {α β : Type} {rel rel' : α → β → Prop} {a : Option α} {b : Option β}
    (h : Option.Rel rel a b) (hm : ∀ a b, rel a b → rel' a b) : Option.Rel rel' a b := by
  cases h with
  | some h => exact .some (hm _ _ h)
  | none => exact .none

/-- Names of two tables have one text. -/
def NameTable.Agree (t t' : NameTable) (n n' : Name) : Prop :=
  ∃ text, t.resolve? n = some text ∧ t'.resolve? n' = some text

namespace NameTable.Agree

variable {t t' u u' base : NameTable} {n n' m m' : Name}

theorem le (h : t.Agree t' n n') (hle : t.Le u) (hle' : t'.Le u') : u.Agree u' n n' := by
  obtain ⟨text, hn, hn'⟩ := h
  exact ⟨text, hle n text hn, hle' n' text hn'⟩

theorem symm (h : t.Agree t' n n') : t'.Agree t n' n := by
  obtain ⟨text, hn, hn'⟩ := h
  exact ⟨text, hn', hn⟩

/-- A name that two tables have from a third one. -/
theorem of_issued (h : base.Issued n) (hle : base.Le t) (hle' : base.Le t') : t.Agree t' n n := by
  obtain ⟨text, hn⟩ := h
  exact ⟨text, hle n text hn, hle' n text hn⟩

theorem left (h : t.Agree t' n n') : t.Issued n := by
  obtain ⟨text, hn, -⟩ := h
  exact ⟨text, hn⟩

theorem right (h : t.Agree t' n n') : t'.Issued n' := by
  obtain ⟨text, -, hn⟩ := h
  exact ⟨text, hn⟩

theorem text (h : t.Agree t' n n') : t.text n = t'.text n' := by
  obtain ⟨text, hn, hn'⟩ := h
  rw [NameTable.text_eq hn, NameTable.text_eq hn']

/-- Names agree with names that are as different as they are. -/
theorem eq_iff (h : t.Agree t' n n') (hm : t.Agree t' m m') : n = m ↔ n' = m' := by
  obtain ⟨text, hn, hn'⟩ := h
  obtain ⟨other, hm, hm'⟩ := hm
  constructor
  · rintro rfl
    rw [hn] at hm
    cases hm
    exact resolve?_inj hn' hm'
  · rintro rfl
    rw [hn'] at hm'
    cases hm'
    exact resolve?_inj hn hm

theorem empty (t t' : NameTable) : t.Agree t' .empty .empty :=
  ⟨"", t.resolve?_empty, t'.resolve?_empty⟩

section Outer

variable {o o' : Option Name}

theorem outer_left (h : Option.Rel (t.Agree t') o o') : ∀ n ∈ o, t.Issued n := by
  cases h with
  | none => exact nofun
  | some h =>
    rintro _ ⟨⟩
    exact h.left

theorem outer_right (h : Option.Rel (t.Agree t') o o') : ∀ n ∈ o', t'.Issued n := by
  cases h with
  | none => exact nofun
  | some h =>
    rintro _ ⟨⟩
    exact h.right

/-- Names are joined to the same text. -/
theorem joined (h : Option.Rel (t.Agree t') o o') (hn : t.Agree t' n n') :
    NameTable.joined (o.map t.text) (t.text n) =
      NameTable.joined (o'.map t'.text) (t'.text n') := by
  rw [hn.text]
  cases h with
  | none => rfl
  | some h => rw [Option.map_some, Option.map_some, h.text]

end Outer

end NameTable.Agree

/-- Canonical names of two tables have one text, or are missing alike. -/
inductive QualifiedName.Agree (t t' : NameTable) : QualifiedName → QualifiedName → Prop
  | named {n n' : Name} (h : t.Agree t' n n') : Agree t t' (.named n) (.named n')
  | anonymous : Agree t t' .anonymous .anonymous
  | notApplicable : Agree t t' .notApplicable .notApplicable

theorem QualifiedName.Agree.name? {t t' : NameTable} {q q' : QualifiedName}
    (h : QualifiedName.Agree t t' q q') : Option.Rel (t.Agree t') q.name? q'.name? := by
  cases h with
  | named h => exact .some h
  | anonymous => exact .none
  | notApplicable => exact .none

theorem QualifiedName.Agree.le {t t' u u' : NameTable} {q q' : QualifiedName}
    (h : QualifiedName.Agree t t' q q') (hle : t.Le u) (hle' : t'.Le u') :
    QualifiedName.Agree u u' q q' := by
  cases h with
  | named h => exact .named (h.le hle hle')
  | anonymous => exact .anonymous
  | notApplicable => exact .notApplicable

/-! ### Lists from which some entries are missing -/

/-- A list corresponds to another that lacks some of its entries. -/
inductive List.Sheds {α β : Type} (hidden : α → Prop) (rel : α → β → Prop) :
    List α → List β → Prop
  | nil : Sheds hidden rel [] []
  | both {a : α} {b : β} {as : List α} {bs : List β} (h : rel a b) (rest : Sheds hidden rel as bs) :
      Sheds hidden rel (a :: as) (b :: bs)
  | left {a : α} {as : List α} {bs : List β} (h : hidden a) (rest : Sheds hidden rel as bs) :
      Sheds hidden rel (a :: as) bs

namespace List.Sheds

variable {α β : Type} {hidden hidden' : α → Prop} {rel rel' : α → β → Prop} {as as' : List α}
  {bs bs' : List β}

theorem append (h : Sheds hidden rel as bs) (h' : Sheds hidden rel as' bs') :
    Sheds hidden rel (as ++ as') (bs ++ bs') := by
  induction h with
  | nil => exact h'
  | both ha _ ih => exact .both ha ih
  | left ha _ ih => exact .left ha ih

theorem mono (h : Sheds hidden rel as bs) (hh : ∀ a, hidden a → hidden' a)
    (hr : ∀ a b, rel a b → rel' a b) : Sheds hidden' rel' as bs := by
  induction h with
  | nil => exact .nil
  | both ha _ ih => exact .both (hr _ _ ha) ih
  | left ha _ ih => exact .left (hh _ ha) ih

theorem of_forall₂ (h : List.Forall₂ rel as bs) : Sheds hidden rel as bs := by
  induction h with
  | nil => exact .nil
  | cons ha _ ih => exact .both ha ih

theorem forall₂ (h : Sheds hidden rel as bs) (hh : ∀ a, ¬hidden a) : List.Forall₂ rel as bs := by
  induction h with
  | nil => exact .nil
  | both ha _ ih => exact .cons ha ih
  | left ha _ _ => exact absurd ha (hh _)

end List.Sheds

/-! ### The correspondence -/

/-- Imports of two files are of the same names. -/
structure UnitImports.Agree (t t' : NameTable) (u u' : UnitImports) : Prop where
  single : List.Forall₂ (fun i i' => i.1 = i'.1 ∧ t.Agree t' i.2 i'.2) u.single u'.single
  onDemand : List.Forall₂ (t.Agree t') u.onDemand u'.onDemand

/-- The special names of two sessions have the same texts. -/
structure WellKnown.Agree (t t' : NameTable) (w w' : WellKnown) : Prop where
  rootObject : t.Agree t' w.rootObject w'.rootObject
  enumBase : t.Agree t' w.enumBase w'.enumBase
  recordBase : t.Agree t' w.recordBase w'.recordBase
  annotationBase : t.Agree t' w.annotationBase w'.annotationBase
  implicitImports : List.Forall₂ (t.Agree t') w.implicitImports w'.implicitImports

/-- What is recorded of two declarations corresponds. `decl`, `unit` and `number` say which
    declarations and files correspond, and which members of a declaration. -/
structure DeclInfo.Alike (base t t' : NameTable) (decl : DeclId → DeclId → Prop)
    (unit : Nat → Nat → Prop) (number : DeclId → Nat → Nat → Prop) (i i' : DeclInfo) : Prop where
  unit : unit i.unit i'.unit
  parent : Option.Rel decl i.parent i'.parent
  simpleName : i.simpleName = i'.simpleName
  simple_issued : base.Issued i.simpleName
  qualifiedName : QualifiedName.Agree t t' i.qualifiedName i'.qualifiedName
  typeParams : i.typeParams = i'.typeParams
  params_issued : ∀ n ∈ i.typeParams, base.Issued n
  nameSpan : i.nameSpan = i'.nameSpan
  constant : Option.Rel (fun m m' => ∃ p ∈ i.parent, number p m m') i.constant i'.constant
  memberTypes : List.Forall₂ decl i.memberTypes i'.memberTypes

/-- **Two worlds that correspond.** `base` holds the names that stand in the trees. -/
structure Twins (w w' : World) where
  keep : FieldDecl → Bool
  base : NameTable
  decl : DeclId → DeclId → Prop
  unit : Nat → Nat → Prop
  left : w.Sound
  right : w'.Sound
  base_left : base.Le w.names
  base_right : base.Le w'.names
  trees : ∀ u ∈ w.units, u.Sound base False
  provider : w.provider = w'.provider
  size : w.index.size = w'.index.size
  functional : ∀ {d d' e'}, decl d d' → decl d e' → d' = e'
  injective : ∀ {d e d'}, decl d d' → decl e d' → d = e
  tree : ∀ {d d'}, decl d d' → ∃ tree, w.index.tree? w.units d = some tree ∧
    w'.index.tree? w'.units d' = some (tree.restrict keep)
  info : ∀ {d d'}, decl d d' → ∃ i i', w.index.get? d = some i ∧ w'.index.get? d' = some i' ∧
    DeclInfo.Alike base w.names w'.names decl unit (fun p m m' =>
      ∃ tree, w.index.tree? w.units p = some tree ∧ Stays keep tree.members m m') i i'
  child : ∀ {d d' m m' tree}, decl d d' → w.index.tree? w.units d = some tree →
    Stays keep tree.members m m' → Option.Rel decl (w.index.child? d m) (w'.index.child? d' m')
  find : ∀ name, Option.Rel decl (w.find? name) (w'.find? name)
  package : ∀ {u u'}, unit u u' →
    Option.Rel (w.names.Agree w'.names) (w.index.package? u) (w'.index.package? u')
  imports : ∀ {u u'}, unit u u' →
    UnitImports.Agree w.names w'.names (w.index.importsOf u) (w'.index.importsOf u')
  wellKnown : WellKnown.Agree w.names w'.names w.wellKnown w'.wellKnown
  topLevel : ∃ ds, ds.Perm w'.index.topLevel ∧ List.Forall₂ decl w.index.topLevel ds

namespace Twins

variable {w w' : World} (T : Twins w w')

/-- Which members of a declaration correspond to which. -/
def Number (d : DeclId) (m m' : Nat) : Prop :=
  ∃ tree, w.index.tree? w.units d = some tree ∧ Stays T.keep tree.members m m'

theorem Number.functional {d : DeclId} {m m' n' : Nat} (h : T.Number d m m')
    (h' : T.Number d m n') : m' = n' := by
  obtain ⟨tree, htree, hs⟩ := h
  obtain ⟨_, htree', hs'⟩ := h'
  cases htree.symm.trans htree'
  exact hs.functional hs'

theorem Number.injective {d : DeclId} {m n m' : Nat} (h : T.Number d m m')
    (h' : T.Number d n m') : m = n := by
  obtain ⟨tree, htree, hs⟩ := h
  obtain ⟨_, htree', hs'⟩ := h'
  cases htree.symm.trans htree'
  exact hs.injective hs'

/-- Corresponding keys. -/
inductive Keys (t t' : NameTable) : ElementKey → ElementKey → Prop
  | package {n n' : Name} (h : t.Agree t' n n') : Keys t t' (.package n) (.package n')
  | type {n n' : Name} (h : t.Agree t' n n') : Keys t t' (.type n) (.type n')
  | unnamed {d d' : DeclId} (h : T.decl d d') : Keys t t' (.unnamed d) (.unnamed d')
  | field {d d' : DeclId} {m m' v : Nat} (h : T.decl d d') (hm : T.Number d m m') :
      Keys t t' (.field d m v) (.field d' m' v)
  | constant {d d' : DeclId} {m m' : Nat} (h : T.decl d d') (hm : T.Number d m m') :
      Keys t t' (.constant d m) (.constant d' m')

/-- The key of a variable that is left out. -/
def Hidden : ElementKey → Prop
  | .field d m _ => ∃ f, w.member? d m = some (.field f) ∧ T.keep f = false
  | _ => False

variable {T} {t t' u u' : NameTable} {key key' key'' : ElementKey}

theorem Keys.le (h : T.Keys t t' key key') (hle : t.Le u) (hle' : t'.Le u') :
    T.Keys u u' key key' := by
  cases h with
  | package h => exact .package (h.le hle hle')
  | type h => exact .type (h.le hle hle')
  | unnamed h => exact .unnamed h
  | field h hm => exact .field h hm
  | constant h hm => exact .constant h hm

theorem Keys.functional (h : T.Keys t t' key key') (h' : T.Keys t t' key key'') : key' = key'' := by
  cases h with
  | package h =>
    cases h' with
    | package h' => rw [(h.eq_iff h').1 rfl]
  | type h =>
    cases h' with
    | type h' => rw [(h.eq_iff h').1 rfl]
  | unnamed h =>
    cases h' with
    | unnamed h' => rw [T.functional h h']
  | field h hm =>
    cases h' with
    | field h' hm' => rw [T.functional h h', hm.functional T hm']
  | constant h hm =>
    cases h' with
    | constant h' hm' => rw [T.functional h h', hm.functional T hm']

theorem Keys.injective (h : T.Keys t t' key key'') (h' : T.Keys t t' key' key'') : key = key' := by
  cases h with
  | package h =>
    cases h' with
    | package h' => rw [(h.eq_iff h').2 rfl]
  | type h =>
    cases h' with
    | type h' => rw [(h.eq_iff h').2 rfl]
  | unnamed h =>
    cases h' with
    | unnamed h' => rw [T.injective h h']
  | field h hm =>
    cases h' with
    | field h' hm' =>
      obtain rfl := T.injective h h'
      rw [hm.injective T hm']
  | constant h hm =>
    cases h' with
    | constant h' hm' =>
      obtain rfl := T.injective h h'
      rw [hm.injective T hm']

/-! ### Corresponding declarations -/

/-- Corresponding declarations have corresponding keys. -/
theorem keyOf_twins {d d' : DeclId} (h : T.decl d d') :
    T.Keys w.names w'.names (w.index.keyOf d) (w'.index.keyOf d') := by
  obtain ⟨i, i', hi, hi', hinfo⟩ := T.info h
  rw [DeclIndex.keyOf_eq hi, DeclIndex.keyOf_eq hi', DeclInfo.key, DeclInfo.key]
  have hq := hinfo.qualifiedName
  generalize i.qualifiedName = q, i'.qualifiedName = q' at hq ⊢
  cases hq with
  | named hn => exact .type hn
  | anonymous => exact .unnamed h
  | notApplicable => exact .unnamed h

/-- A member type is found under the same simple name. -/
theorem memberType?_twins {d d' : DeclId} (h : T.decl d d') (simple : Name) :
    Option.Rel T.decl (w.index.memberType? d simple) (w'.index.memberType? d' simple) := by
  obtain ⟨i, i', hi, hi', hinfo⟩ := T.info h
  have hm : w.index.memberTypes d = i.memberTypes := by rw [DeclIndex.memberTypes, hi]; rfl
  have hm' : w'.index.memberTypes d' = i'.memberTypes := by rw [DeclIndex.memberTypes, hi']; rfl
  rw [DeclIndex.memberType?, DeclIndex.memberType?, hm, hm']
  have hall := hinfo.memberTypes
  generalize i.memberTypes = cs, i'.memberTypes = cs' at hall
  induction hall with
  | nil => exact .none
  | @cons c c' cs cs' hc _ ih =>
    obtain ⟨j, j', hj, hj', hchild⟩ := T.info hc
    rw [List.find?_cons, List.find?_cons, hj, hj', Option.map_some, Option.map_some,
      hchild.simpleName]
    by_cases hs : j'.simpleName = simple
    · simp only [hs, decide_true]
      exact .some hc
    · simp only [Option.some.injEq, hs, decide_false]
      exact ih

/-- The outcome of a look-up is the same. -/
theorem lookupOutcome_twins (T : Twins w w') :
    lookupOutcome (fun n => (w.find? n).isSome) w.provider =
      lookupOutcome (fun n => (w'.find? n).isSome) w'.provider := by
  have hd : (fun n => (w.find? n).isSome) = fun n => (w'.find? n).isSome := by
    funext n
    have h := T.find n
    generalize w.find? n = d, w'.find? n = d' at h ⊢
    cases h <;> rfl
  rw [hd, T.provider]

/-- The keys of what a kept member declares correspond. -/
theorem memberKeys_twins {d d' : DeclId} {m m' : Nat} {tree : TypeDecl} {x : Member}
    (h : T.decl d d') (htree : w.index.tree? w.units d = some tree)
    (hs : Stays T.keep tree.members m m') :
    List.Forall₂ (T.Keys w.names w'.names) (w.index.memberKeys d m x)
      (w'.index.memberKeys d' m' (x.restrict T.keep)) := by
  have hnumber : T.Number d m m' := ⟨tree, htree, hs⟩
  cases x with
  | type t =>
    rw [Member.restrict, DeclIndex.memberKeys, DeclIndex.memberKeys]
    have hchild := T.child h htree hs
    generalize w.index.child? d m = c, w'.index.child? d' m' = c' at hchild ⊢
    cases hchild with
    | none => exact .nil
    | some hc => exact .cons (keyOf_twins hc) .nil
  | field f =>
    rw [Member.restrict, DeclIndex.memberKeys, DeclIndex.memberKeys]
    generalize List.range f.declarators.length = vs
    induction vs with
    | nil => exact .nil
    | cons v rest ih => exact .cons (.field h hnumber) ih
  | constant n body sp =>
    have hx : (Member.constant n body sp).restrict T.keep =
        .constant n (body.map (TypeDecl.restrict T.keep)) sp := by
      cases body <;> rw [Member.restrict] <;> rfl
    rw [hx, DeclIndex.memberKeys, DeclIndex.memberKeys]
    exact .cons (.constant h hnumber) .nil

/-- **The keys of what the members declare correspond**, but for variables that are left out. -/
theorem allMemberKeys_twins {d d' : DeclId} {tree : TypeDecl} (h : T.decl d d')
    (htree : w.index.tree? w.units d = some tree) :
    List.Sheds T.Hidden (T.Keys w.names w'.names) (w.index.allMemberKeys d 0 tree.members)
      (w'.index.allMemberKeys d' 0 (tree.restrict T.keep).members) := by
  -- The members are gone through from some number on; in the other list they begin at the number of
  -- those that were kept before.
  suffices hms : ∀ before ms, tree.members = before ++ ms →
      List.Sheds T.Hidden (T.Keys w.names w'.names) (w.index.allMemberKeys d before.length ms)
        (w'.index.allMemberKeys d' (before.countP (Member.kept T.keep))
          (Member.restrictAll T.keep ms)) by
    rw [TypeDecl.members_restrict]
    exact hms [] tree.members rfl
  intro before ms
  induction ms generalizing before with
  | nil => exact fun _ => .nil
  | cons m rest ih =>
    intro hsplit
    have hget : tree.members[before.length]? = some m := by
      rw [hsplit, List.getElem?_append_right (Nat.le_refl _), Nat.sub_self]
      rfl
    have hrest := ih (before ++ [m]) (hsplit.trans (List.append_cons before m rest))
    rw [List.length_append, List.countP_append] at hrest
    rw [DeclIndex.allMemberKeys, Member.restrictAll]
    by_cases hk : m.kept T.keep = true
    · rw [if_pos hk, DeclIndex.allMemberKeys]
      rw [List.countP_cons_of_pos hk] at hrest
      have hs : Stays T.keep tree.members before.length (before.countP (Member.kept T.keep)) :=
        hsplit ▸ Stays.at_split hk
      exact (List.Sheds.of_forall₂ (memberKeys_twins h htree hs)).append hrest
    · rw [if_neg hk]
      rw [List.countP_cons_of_neg hk] at hrest
      cases m with
      | field f =>
        -- Only a field is left out, with all its variables.
        have hf : T.keep f = false := Bool.not_eq_true _ ▸ hk
        have hmember : w.member? d before.length = some (.field f) := by
          rw [World.member?, htree]
          exact hget
        rw [DeclIndex.memberKeys]
        generalize List.range f.declarators.length = vs
        induction vs with
        | nil => exact hrest
        | cons v vs ih => exact .left ⟨f, hmember, hf⟩ ih
      | type t => exact absurd rfl hk
      | constant n body sp => exact absurd rfl hk

end Twins

end JavaAbi
