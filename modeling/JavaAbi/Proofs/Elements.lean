import JavaAbi.Proofs.Caches
import JavaAbi.Proofs.Outcomes
import JavaAbi.Proofs.Work
import Mathlib.Data.List.Forall2

namespace JavaAbi

/-!
# Elements and their keys

The invariant of a session that its elements rest on. Keys whose construction has succeeded and
elements correspond one to one; an element is the one that its key describes, enclosed by elements
that are older than itself; a construction that failed did so as the look-up rule says.

* `DeclIndex.Primary` — declarations with an element of their own;
* `Session.Askable` — keys whose element can be asked for;
* `Session.Describes` — what the element of a key is;
* `Session.Sound` — the invariant.
-/

/-! ### Declarations and keys -/

/-- Keys of types. -/
def ElementKey.IsType : ElementKey → Prop
  | .type _ | .unnamed _ => True
  | _ => False

namespace DeclIndex

/-- A declaration with an element of its own: the first one of its name; or it has no name, and
    stands in such a declaration if in any. -/
inductive Primary (x : DeclIndex) : DeclId → Prop
  | named {d : DeclId} {i : DeclInfo} {n : Name} (info : x.get? d = some i)
      (name : i.qualifiedName.name? = some n) (first : x.find? n = some d) : Primary x d
  | nameless {d : DeclId} {i : DeclInfo} (info : x.get? d = some i)
      (name : i.qualifiedName.name? = none) (parent : ∀ p ∈ i.parent, Primary x p) : Primary x d

/-- The key of a declaration. -/
def keyOf (x : DeclIndex) (d : DeclId) : ElementKey :=
  match x.get? d with
  | some i => i.key d
  | none => .unnamed d

/-- The key of a package that has an element. -/
def packageKey? : Option Name → Option ElementKey
  | some n => if n = .empty then none else some (.package n)
  | none => none

/-- The key of what encloses a declaration. -/
def outerKey? (x : DeclIndex) (i : DeclInfo) : Option ElementKey :=
  match i.parent, i.constant with
  | some p, some m => some (.constant p m)
  | some p, none => some (x.keyOf p)
  | none, _ => packageKey? (x.package? i.unit)

/-- The keys of what a member declares. -/
def memberKeys (x : DeclIndex) (decl : DeclId) (i : Nat) : Member → List ElementKey
  | .type _ => ((x.child? decl i).map x.keyOf).toList
  | .field f => (List.range f.declarators.length).map fun v => .field decl i v
  | .constant .. => [.constant decl i]

/-- The keys of what members declare, from member `i` on. -/
def allMemberKeys (x : DeclIndex) (decl : DeclId) (i : Nat) : List Member → List ElementKey
  | [] => []
  | m :: rest => x.memberKeys decl i m ++ x.allMemberKeys decl (i + 1) rest

theorem mem_allMemberKeys {x : DeclIndex} {d : DeclId} {k : Nat} {ms : List Member}
    {key : ElementKey} : key ∈ x.allMemberKeys d k ms ↔
      ∃ j m, ms[j]? = some m ∧ key ∈ x.memberKeys d (k + j) m := by
  induction ms generalizing k with
  | nil =>
    rw [allMemberKeys]
    refine iff_of_false List.not_mem_nil fun h => ?_
    obtain ⟨j, m, hm, -⟩ := h
    cases hm
  | cons m rest ih =>
    rw [allMemberKeys, List.mem_append, ih]
    constructor
    · rintro (hkey | ⟨j, m', hm', hkey⟩)
      · exact ⟨0, m, rfl, hkey⟩
      · refine ⟨j + 1, m', hm', ?_⟩
        rwa [Nat.add_comm j 1, ← Nat.add_assoc]
    · rintro ⟨_ | j, m', hm', hkey⟩
      · cases hm'
        exact .inl hkey
      · refine .inr ⟨j, m', hm', ?_⟩
        rwa [Nat.add_assoc, Nat.add_comm 1 j]

theorem mem_allMemberKeys_zero {x : DeclIndex} {d : DeclId} {ms : List Member} {key : ElementKey} :
    key ∈ x.allMemberKeys d 0 ms ↔ ∃ k m, ms[k]? = some m ∧ key ∈ x.memberKeys d k m := by
  simp only [mem_allMemberKeys, Nat.zero_add]

theorem packageKey?_eq_some {p : Option Name} {key : ElementKey} :
    packageKey? p = some key ↔ ∃ n, p = some n ∧ n ≠ .empty ∧ key = .package n := by
  cases p with
  | none => exact iff_of_false nofun fun ⟨n, hn, _⟩ => nomatch hn
  | some n =>
    by_cases hn : n = .empty
    · rw [packageKey?, if_pos hn]
      exact iff_of_false nofun fun ⟨m, hm, hne, _⟩ => hne (Option.some.inj hm ▸ hn)
    · rw [packageKey?, if_neg hn]
      constructor
      · rintro ⟨⟩
        exact ⟨n, rfl, hn, rfl⟩
      · rintro ⟨_, ⟨⟩, -, rfl⟩
        rfl

theorem keyOf_eq {x : DeclIndex} {d : DeclId} {i : DeclInfo} (h : x.get? d = some i) :
    x.keyOf d = i.key d := by rw [keyOf, h]

theorem keyOf_isType (x : DeclIndex) (d : DeclId) : (x.keyOf d).IsType := by
  rw [keyOf]
  cases x.get? d with
  | none => trivial
  | some i =>
    dsimp only
    rw [DeclInfo.key]
    split <;> trivial

theorem Primary.info {x : DeclIndex} {d : DeclId} (h : x.Primary d) : ∃ i, x.get? d = some i := by
  cases h with
  | named hi _ _ => exact ⟨_, hi⟩
  | nameless hi _ _ => exact ⟨_, hi⟩

section Sound

variable {units : List CompilationUnit} {t : NameTable} {x : DeclIndex} {d : DeclId} {n : Name}

theorem known?_eq {i : DeclInfo} (h : x.known? d = some i) :
    ∃ j, x.get? d = some j ∧ j.parent = i.parent ∧ j.constant = i.constant ∧
      j.qualifiedName = i.qualifiedName ∧ j.unit = i.unit ∧ j.path = i.path := by
  obtain ⟨j, hj, rfl⟩ := Option.map_eq_some_iff.1 h
  exact ⟨j, hj, rfl, rfl, rfl, rfl, rfl⟩

theorem info_of_known? (h : (x.known? d).isSome) : ∃ i, x.get? d = some i := by
  rw [known?, Option.isSome_map] at h
  exact Option.isSome_iff_exists.1 h

theorem info_of_childOf {parent : Option DeclId} (h : ChildOf x.known? x.find? parent d) :
    ∃ i, x.get? d = some i := by
  obtain ⟨i, hi, -⟩ := h
  exact info_of_known? (Option.isSome_iff_exists.2 ⟨i, hi⟩)

/-- What is found by name has an element of its own, and so has its parent. -/
theorem Sound.primary_of_find? (h : x.Sound units t) (hd : x.find? n = some d) :
    x.Primary d ∧ x.keyOf d = .type n ∧
      ∃ i, x.get? d = some i ∧ i.qualifiedName = .named n ∧ i.constant = none ∧
        ∀ p ∈ i.parent, ∃ m, x.find? m = some p ∧ x.keyOf p = .type m := by
  obtain ⟨i, hi, hq, hc, hr⟩ := h.named n d hd
  obtain ⟨j, hj, hjp, hjc, hjq, -, -⟩ := known?_eq hi
  have hjq' : j.qualifiedName = .named n := hjq.trans hq
  refine ⟨.named hj (by rw [hjq']; rfl) hd, ?_, j, hj, hjq', hjc.trans hc, ?_⟩
  · rw [keyOf_eq hj, DeclInfo.key, hjq']
    rfl
  · rw [hjp]
    intro p hp
    obtain ⟨m, ip, hip, hipq, hm⟩ := hr p hp
    obtain ⟨jp, hjp, -, -, hjpq, -, -⟩ := known?_eq hip
    refine ⟨m, hm, ?_⟩
    rw [keyOf_eq hjp, DeclInfo.key, hjpq, hipq]
    rfl

/-- What stands at the top, or in a declaration with an element of its own, has an element: its own if
    it has no name, and else that of the first declaration of its name. -/
theorem childOf_cases {parent : Option DeclId} {c : DeclId} (hp : ∀ p ∈ parent, x.Primary p)
    (hc : ChildOf x.known? x.find? parent c) :
    (∃ n, x.keyOf c = .type n ∧ (x.find? n).isSome) ∨
      (x.Primary c ∧ x.keyOf c = .unnamed c) := by
  obtain ⟨i, hi, hparent, -, hname⟩ := hc
  obtain ⟨j, hj, hjp, -, hjq, -, -⟩ := known?_eq hi
  cases hq : j.qualifiedName.name? with
  | none =>
    refine .inr ⟨.nameless hj hq ?_, by rw [keyOf_eq hj, DeclInfo.key, hq]⟩
    rw [hjp, hparent]
    exact hp
  | some n =>
    have hn : i.qualifiedName = .named n := by
      rw [← hjq]
      cases hjn : j.qualifiedName <;> rw [hjn] at hq <;> cases hq
      rfl
    refine .inl ⟨n, by rw [keyOf_eq hj, DeclInfo.key, hq], ?_⟩
    obtain ⟨hnamed, hfound | ⟨p, hpp, hnot⟩⟩ := hname n hn
    · exact hfound
    · -- A parent with an element is found by its name if it has one, and the child has a name only
      -- then.
      obtain ⟨m, k, hk, hkq⟩ := hnamed p hpp
      obtain ⟨l, hl, -, -, hlq, -, -⟩ := known?_eq hk
      cases hp p hpp with
      | named _ _ hfirst => exact absurd hfirst (hnot _)
      | nameless hl' hnone _ =>
        rw [hl] at hl'
        cases hl'
        rw [hlq, hkq] at hnone
        cases hnone

/-- The parent of a declaration with an element of its own has one too. -/
theorem Primary.parent (h : x.Sound units t) (hd : x.Primary d) {i : DeclInfo} {p : DeclId}
    (hi : x.get? d = some i) (hp : i.parent = some p) : x.Primary p := by
  cases hd with
  | @named _ j n hj hname hfirst =>
    obtain ⟨-, -, k, hk, -, -, hparent⟩ := h.primary_of_find? hfirst
    rw [hi] at hk
    cases hk
    obtain ⟨m, hm, -⟩ := hparent p hp
    exact (h.primary_of_find? hm).1
  | nameless hj _ hparent =>
    rw [hi] at hj
    cases hj
    exact hparent p hp

end Sound

end DeclIndex

/-- In lists that correspond, each entry has a counterpart. -/
theorem forall₂_mem_left {α β : Type} {rel : α → β → Prop} {as : List α} {bs : List β}
    (h : List.Forall₂ rel as bs) : ∀ a ∈ as, ∃ b ∈ bs, rel a b := by
  induction h with
  | nil => exact fun _ h => absurd h List.not_mem_nil
  | cons hab _ ih =>
    refine List.forall_mem_cons.2 ⟨⟨_, List.mem_cons_self, hab⟩, fun a ha => ?_⟩
    obtain ⟨b, hb, hrel⟩ := ih a ha
    exact ⟨b, List.mem_cons_of_mem _ hb, hrel⟩

/-- Names with texts are names of a table. -/
theorem NameTable.issued_of_forall₂ {t : NameTable} {names : List Name} {texts : List String}
    (h : List.Forall₂ (fun n text => t.resolve? n = some text) names texts) :
    ∀ n ∈ names, t.Issued n := by
  induction h with
  | nil => exact List.forall_mem_nil _
  | cons hn _ ih => exact List.forall_mem_cons.2 ⟨⟨_, hn⟩, ih⟩

/-- The special names are names of a table. -/
structure WellKnown.Issued (t : NameTable) (w : WellKnown) : Prop where
  rootObject : t.Issued w.rootObject
  enumBase : t.Issued w.enumBase
  recordBase : t.Issued w.recordBase
  annotationBase : t.Issued w.annotationBase
  implicitImports : ∀ n ∈ w.implicitImports, t.Issued n

namespace Session

/-- The tree of a declaration, and a member of it. -/
theorem member?_eq_some {s : Session} {d : DeclId} {m : Nat} {x : Member} :
    s.member? d m = some x ↔
      ∃ tree, s.index.tree? s.units d = some tree ∧ tree.members[m]? = some x := by
  rw [member?, Option.bind_eq_some_iff]

/-- A key whose element can be asked for. -/
def Askable (s : Session) : ElementKey → Prop
  | .package n => s.names.Proper n
  | .type n => s.names.Issued n
  | .unnamed d => s.index.Primary d ∧ s.index.keyOf d = .unnamed d
  | .field d m v => s.index.Primary d ∧
      ∃ f, s.member? d m = some (.field f) ∧ v < f.declarators.length
  | .constant d m => s.index.Primary d ∧
      ∃ n body sp, s.member? d m = some (.constant n body sp)

/-! ### Elements -/

/-- An element is the one of a key. -/
def Denotes (s : Session) (key : ElementKey) (id : ElementId) : Prop :=
  s.cache.slot? key = some (.ready (.ok id))

/-- An element is the one of a key, if there is a key. -/
def Encloses (s : Session) : Option ElementKey → Option ElementId → Prop
  | none, enc => enc = none
  | some key, enc => ∃ id, enc = some id ∧ s.Denotes key id

/-- How the construction of a key ends. -/
def outcomeOf (s : Session) : ElementKey → Except ModelError Unit
  | .type n => s.lookupOutcome (s.names.text n)
  | _ => .ok ()

/-- What encloses a precompiled type: the type that its name points to, if that has an element, or
    else its package. -/
inductive Surrounds (s : Session) (d : Descriptor) : Option ElementId → Prop
  | type {outer : String} {n : Name} {id : ElementId} (points : d.enclosingType? = some outer)
      (text : s.names.resolve? n = some outer) (denotes : s.Denotes (.type n) id) :
      Surrounds s d (some id)
  | package {n : Name} {enc : Option ElementId}
      (without : ∀ outer ∈ d.enclosingType?, ∃ e, s.lookupOutcome outer = .error e)
      (text : s.names.resolve? n = some d.package)
      (encloses : s.Encloses (DeclIndex.packageKey? (some n)) enc) : Surrounds s d enc

/-- What the element of a key is, apart from the answers that it keeps. -/
inductive Describes (s : Session) : ElementKey → Element → Prop
  | package {n simple : Name} (issued : s.names.Issued n)
      (text : s.names.resolve? simple = some (String.ofList (lastSegment (s.names.text n).toList))) :
      Describes s (.package n) (.ofPackage n simple)
  | tree {d : DeclId} {i : DeclInfo} {tree : TypeDecl} {enc : Option ElementId}
      (primary : s.index.Primary d) (info : s.index.get? d = some i)
      (tree_eq : s.index.tree? s.units d = some tree)
      (enclosing : s.Encloses (s.index.outerKey? i) enc) :
      Describes s (i.key d)
        (.ofTree d i tree enc (s.index.allMemberKeys d 0 tree.members))
  | field {d : DeclId} {m number : Nat} {f : FieldDecl} {v : Variable} {owner : ElementId}
      (member : s.member? d m = some (.field f)) (declarator : f.declarators[number]? = some v)
      (owned : s.Denotes (s.index.keyOf d) owner) :
      Describes s (.field d m number) (.ofVariable f v owner)
  | constant {d : DeclId} {m : Nat} {n : Name} {body : Option TypeDecl} {sp : Span}
      {owner : ElementId} (member : s.member? d m = some (.constant n body sp))
      (owned : s.Denotes (s.index.keyOf d) owner) :
      Describes s (.constant d m) (.ofConstant n sp owner (s.index.child? d m))
  | described {n simple : Name} {d : Descriptor} {params : List Name} {enc : Option ElementId}
      (issued : s.names.Issued n) (undeclared : s.index.find? n = none)
      (answer : s.provider.resolve? (s.names.text n) = some d)
      (named : d.qualifiedName = s.names.text n)
      (simple_text : s.names.resolve? simple = some d.simpleName)
      (params_text : List.Forall₂ (fun p text => s.names.resolve? p = some text) params
        d.typeParameters)
      (surrounds : s.Surrounds d enc) :
      Describes s (.type n) (.ofDescriptor d n simple params enc)

/-- The names that the provider was asked for. -/
def asked (s : Session) : List String :=
  s.events.toList.filterMap fun
    | .forwarded name => some name
    | _ => none

/-- **The invariant of a session.** -/
structure Sound (s : Session) : Prop where
  index : s.index.Sound s.units s.names
  wellKnown : s.wellKnown.Issued s.names
  askable : ∀ key x, s.cache.slot? key = some x → s.Askable key
  outcome : ∀ key r, s.cache.slot? key = some (.ready r) → r.map (fun _ => ()) = s.outcomeOf key
  element : ∀ key id, s.Denotes key id → ∃ e, s.elements.get? id = some e ∧
    s.Describes key e.bare ∧ ∀ enc ∈ e.enclosing, enc < id
  unique : ∀ key key' id, s.Denotes key id → s.Denotes key' id → key = key'
  covered : ∀ id < s.elements.size, ∃ key, s.Denotes key id
  kept : ∀ key, s.cache.slot? key ≠ some .vacant
  asked_nodup : s.asked.Nodup
  asked_known : ∀ name ∈ s.asked, ∃ n, s.names.resolve? n = some name ∧
    s.index.find? n = none ∧ (s.cache.slot? (.type n)).isSome

/-! ### Growth -/

end Session

/-- A provider knows finitely many names, at most as many as a search goes through. -/
def Provider.Counted (p : Provider) : Prop :=
  ∃ known : List String, known.length ≤ p.extent ∧
    ∀ name d, p.resolve? name = some d → name ∈ known

namespace Session

/-- What never changes in a session: what it was opened with, the texts of names and the outcomes of
    constructions. No search is cut off that goes through all types that there can be. -/
structure Keeps (s t : Session) : Prop where
  base : t.toSessionBase = s.toSessionBase
  names : s.names.Le t.names
  ready : ∀ key r, s.cache.slot? key = some (.ready r) → t.cache.slot? key = some (.ready r)
  cutOff : s.provider.Counted → t.cutOff = s.cutOff

/-- How the making of elements changes a session: constructions that it starts, it ends. -/
structure Builds (s t : Session) : Prop extends Keeps s t where
  elements : ∀ id e, s.elements.get? id = some e → t.elements.get? id = some e
  fresh : ∀ id e, t.elements.get? id = some e → s.elements.get? id = some e ∨ e.bare = e
  building : ∀ key, t.cache.slot? key = some .building ↔ s.cache.slot? key = some .building
  supertypes : t.supertypes = s.supertypes
  cells : t.cells = s.cells

theorem Keeps.refl (s : Session) : s.Keeps s := ⟨rfl, .refl _, fun _ _ h => h, fun _ => rfl⟩

theorem Keeps.trans {s t u : Session} (h : s.Keeps t) (h' : t.Keeps u) : s.Keeps u where
  base := h'.base.trans h.base
  names := h.names.trans h'.names
  ready k r hr := h'.ready k r (h.ready k r hr)
  cutOff hc := (h'.cutOff (congrArg SessionBase.provider h.base ▸ hc)).trans (h.cutOff hc)

theorem Builds.refl (s : Session) : s.Builds s where
  toKeeps := .refl s
  elements _ _ h := h
  fresh _ _ h := .inl h
  building _ := Iff.rfl
  supertypes := rfl
  cells := rfl

theorem Builds.trans {s t u : Session} (h : s.Builds t) (h' : t.Builds u) : s.Builds u where
  toKeeps := h.toKeeps.trans h'.toKeeps
  elements id e he := h'.elements id e (h.elements id e he)
  fresh id e he := (h'.fresh id e he).elim (h.fresh id e) .inr
  building key := (h'.building key).trans (h.building key)
  supertypes := h'.supertypes.trans h.supertypes
  cells := h'.cells.trans h.cells

section Keep

variable {s t : Session} {key : ElementKey} {id : ElementId}

theorem Keeps.index (h : s.Keeps t) : t.index = s.index := congrArg SessionBase.index h.base

theorem Keeps.units (h : s.Keeps t) : t.units = s.units := congrArg SessionBase.units h.base

theorem Keeps.provider (h : s.Keeps t) : t.provider = s.provider :=
  congrArg SessionBase.provider h.base

theorem Keeps.wellKnown (h : s.Keeps t) : t.wellKnown = s.wellKnown :=
  congrArg SessionBase.wellKnown h.base

theorem Keeps.member? (h : s.Keeps t) : t.member? = s.member? := by
  funext d m
  rw [Session.member?, Session.member?, h.index, h.units]

theorem Denotes.grow (hd : s.Denotes key id) (h : s.Keeps t) : t.Denotes key id :=
  h.ready key _ hd

/-- A key has one element. -/
theorem Denotes.functional {id' : ElementId} (h : s.Denotes key id) (h' : s.Denotes key id') :
    id = id' := by
  cases h.symm.trans h'
  rfl

theorem Encloses.grow {outer : Option ElementKey} {enc : Option ElementId}
    (he : s.Encloses outer enc) (h : s.Keeps t) : t.Encloses outer enc := by
  match outer with
  | none => exact he
  | some key =>
    obtain ⟨id, rfl, hd⟩ := he
    exact ⟨id, rfl, hd.grow h⟩

theorem lookupOutcome_grow (hs : s.index.Sound s.units s.names) (h : s.Keeps t) :
    t.lookupOutcome = s.lookupOutcome := by
  funext name
  rw [Session.lookupOutcome, Session.lookupOutcome, h.provider,
    declares_grow hs h.names h.index]

theorem Surrounds.grow {d : Descriptor} {enc : Option ElementId}
    (hs : s.index.Sound s.units s.names) (hd : s.Surrounds d enc) (h : s.Keeps t) :
    t.Surrounds d enc := by
  cases hd with
  | type points text denotes => exact .type points (h.names _ _ text) (denotes.grow h)
  | package without text encloses =>
    rw [← lookupOutcome_grow hs h] at without
    exact .package without (h.names _ _ text) (encloses.grow h)

theorem Describes.grow {e : Element} (hs : s.index.Sound s.units s.names)
    (hd : s.Describes key e) (h : s.Keeps t) : t.Describes key e := by
  cases hd with
  | package issued text =>
    rw [← NameTable.text_le issued h.names] at text
    exact .package (issued.le h.names) (h.names _ _ text)
  | tree primary info tree_eq enclosing =>
    rw [← h.index] at primary info tree_eq enclosing ⊢
    rw [← h.units] at tree_eq
    exact .tree primary info tree_eq (enclosing.grow h)
  | field member declarator owned =>
    rw [← h.member?] at member
    rw [← h.index] at owned
    exact .field member declarator (owned.grow h)
  | constant member owned =>
    rw [← h.member?] at member
    rw [← h.index] at owned ⊢
    exact .constant member (owned.grow h)
  | described issued undeclared answer named simple params surrounds =>
    rw [← h.index] at undeclared
    rw [← h.provider, ← NameTable.text_le issued h.names] at answer
    rw [← NameTable.text_le issued h.names] at named
    exact .described (issued.le h.names) undeclared answer named (h.names _ _ simple)
      (params.imp fun _ _ hp => h.names _ _ hp) (surrounds.grow hs h)

theorem Askable.grow (ha : s.Askable key) (h : s.Keeps t) : t.Askable key := by
  cases key with
  | package n => exact NameTable.Proper.le ha h.names
  | type n => exact NameTable.Issued.le ha h.names
  | unnamed d => simpa only [Askable, h.index] using ha
  | field d m v => simpa only [Askable, h.index, h.member?] using ha
  | constant d m => simpa only [Askable, h.index, h.member?] using ha

theorem outcomeOf_grow (hs : s.index.Sound s.units s.names) (ha : s.Askable key) (h : s.Keeps t) :
    t.outcomeOf key = s.outcomeOf key := by
  cases key with
  | type n => rw [outcomeOf, outcomeOf, lookupOutcome_grow hs h, NameTable.text_le ha h.names]
  | _ => rfl

end Keep

end Session

end JavaAbi
