import JavaAbi.Proofs.Construction
import JavaAbi.Proofs.Reference

namespace JavaAbi

/-!
# Symbols of a session

Which element stands for a symbol, and what the elements of symbols are like. A session of a world
shows each symbol by one element at most.

* `Session.Of` — the sessions of a world;
* `Session.Shows` — the element of a symbol;
* `Shows.tree`, `Shows.described` — what the element of a type is.
-/

/-- What is required of a world: it comes from a parsed batch. -/
structure World.Sound (w : World) : Prop where
  trees : ∀ u ∈ w.units, u.Sound w.names False
  index : w.index.Sound w.units w.names
  wellKnown : w.wellKnown.Issued w.names

variable {w : World} {s t : Session} {key : ElementKey} {id : ElementId} {symbol : Symbol}

/-- Declarations with elements of their own have different keys. -/
theorem DeclIndex.Primary.keyOf_inj {x : DeclIndex} {d d' : DeclId} (hd : x.Primary d)
    (hd' : x.Primary d') (h : x.keyOf d = x.keyOf d') : d = d' := by
  cases hd with
  | named hi hn hf =>
    rw [DeclIndex.keyOf_eq hi, DeclInfo.key, hn] at h
    cases hd' with
    | named hi' hn' hf' =>
      rw [DeclIndex.keyOf_eq hi', DeclInfo.key, hn'] at h
      cases h
      exact Option.some.inj (hf.symm.trans hf')
    | nameless hi' hn' _ =>
      rw [DeclIndex.keyOf_eq hi', DeclInfo.key, hn'] at h
      cases h
  | nameless hi hn _ =>
    rw [DeclIndex.keyOf_eq hi, DeclInfo.key, hn] at h
    cases hd' with
    | named hi' hn' hf' =>
      rw [DeclIndex.keyOf_eq hi', DeclInfo.key, hn'] at h
      cases h
    | nameless hi' hn' _ =>
      rw [DeclIndex.keyOf_eq hi', DeclInfo.key, hn'] at h
      cases h
      rfl

/-! ### What describes a key -/

namespace Session.Describes

variable {s : Session} {e : Element}

theorem package_inv {n : Name} (h : s.Describes (.package n) e) :
    ∃ simple, s.names.resolve? simple =
      some (String.ofList (lastSegment (s.names.text n).toList)) ∧ e = .ofPackage n simple := by
  generalize hk : ElementKey.package n = key at h
  cases h with
  | package _ text => cases hk; exact ⟨_, text, rfl⟩
  | tree => rw [DeclInfo.key] at hk; split at hk <;> cases hk
  | _ => cases hk

theorem field_inv {d : DeclId} {m number : Nat} (h : s.Describes (.field d m number) e) :
    ∃ f v owner, s.member? d m = some (.field f) ∧ f.declarators[number]? = some v ∧
      s.Denotes (s.index.keyOf d) owner ∧ e = .ofVariable f v owner := by
  generalize hk : ElementKey.field d m number = key at h
  cases h with
  | field hm hv ho => cases hk; exact ⟨_, _, _, hm, hv, ho, rfl⟩
  | tree => rw [DeclInfo.key] at hk; split at hk <;> cases hk
  | _ => cases hk

theorem constant_inv {d : DeclId} {m : Nat} (h : s.Describes (.constant d m) e) :
    ∃ n body sp owner, s.member? d m = some (.constant n body sp) ∧
      s.Denotes (s.index.keyOf d) owner ∧ e = .ofConstant n sp owner (s.index.child? d m) := by
  generalize hk : ElementKey.constant d m = key at h
  cases h with
  | constant hm ho => cases hk; exact ⟨_, _, _, _, hm, ho, rfl⟩
  | tree => rw [DeclInfo.key] at hk; split at hk <;> cases hk
  | _ => cases hk

end Session.Describes

/-- Symbols of types. -/
def Symbol.IsType : Symbol → Prop
  | .type _ | .unnamed _ => True
  | _ => False

namespace Session

/-- A session of a world: it was opened with it, and has its names. -/
structure Of (s : Session) (w : World) : Prop where
  base : s.toSessionBase = w.toSessionBase
  names : w.names.Le s.names

namespace Of

theorem grow (h : s.Of w) (hk : s.Keeps t) : t.Of w := ⟨hk.base.trans h.base, h.names.trans hk.names⟩

theorem index (h : s.Of w) : s.index = w.index := congrArg SessionBase.index h.base

theorem units (h : s.Of w) : s.units = w.units := congrArg SessionBase.units h.base

theorem provider (h : s.Of w) : s.provider = w.provider := congrArg SessionBase.provider h.base

theorem wellKnown (h : s.Of w) : s.wellKnown = w.wellKnown := congrArg SessionBase.wellKnown h.base

theorem member? (h : s.Of w) : s.member? = w.member? := by
  funext d m
  rw [Session.member?, World.member?, h.index, h.units]

theorem text (h : s.Of w) {n : Name} (hn : w.names.Issued n) : s.names.text n = w.text n :=
  NameTable.text_le hn h.names

/-- Which names the batch declares is known from the world. -/
theorem find? (h : s.Of w) (hw : w.Sound) {n : Name} {text : String}
    (hn : s.names.resolve? n = some text) : s.index.find? n = w.find? text := by
  have hf := hw.index.find?_le h.names text
  rw [NameTable.find?_of_resolve? hn, Option.bind_some] at hf
  rw [h.index]
  exact hf

theorem lookup (h : s.Of w) (hw : w.Sound) (n : Name) :
    w.lookup (s.names.text n) = (s.outcomeOf (.type n)).map fun _ => .type (s.names.text n) := by
  have hd : s.declares = fun name => (w.find? name).isSome := by
    funext name
    rw [declares, h.index, hw.index.find?_le h.names]
    rfl
  rw [outcomeOf, lookupOutcome, hd, h.provider]
  rfl

theorem symbol_keyOf (h : s.Of w) (hw : w.Sound) (d : DeclId) :
    (s.index.keyOf d).symbol s.names = w.symbolOf d := by
  rw [World.symbolOf, h.index, DeclIndex.keyOf]
  cases hi : w.index.get? d with
  | none => rfl
  | some i =>
    dsimp only
    cases hq : i.qualifiedName.name? with
    | none =>
      have hk : i.key d = .unnamed d := by rw [DeclInfo.key, hq]
      rw [hk]
      rfl
    | some n =>
      have hk : i.key d = .type n := by rw [DeclInfo.key, hq]
      rw [hk]
      exact congrArg Symbol.type (NameTable.text_le ((hw.index.infos d i hi).qualified n hq) h.names)

end Of

end Session

/-- The member type that a type itself declares under a simple name of a text. The batch need not have
    the name. -/
def World.declaredMemberAs (w : World) (owner : Symbol) (simple : Name) (text : String) :
    Except ModelError (Option Symbol) :=
  match w.declOf? owner, owner with
  | some d, _ => .ok ((w.index.memberType? d simple).map w.symbolOf)
  | none, .type name => w.tryLookup (NameTable.joined (some name) text)
  | none, _ => .ok none

namespace Session

namespace Of

/-! The world of a session differs in its names only from the one that the session was opened with. -/

theorem world_find? (h : s.Of w) (hw : w.Sound) : s.world.find? = w.find? := by
  funext name
  have hf := hw.index.find?_le h.names name
  rw [← h.index] at hf
  exact hf.trans (by rw [World.find?, h.index])

theorem world_declOf? (h : s.Of w) (hw : w.Sound) : s.world.declOf? = w.declOf? := by
  funext symbol
  cases symbol with
  | type name => exact congrFun (h.world_find? hw) name
  | _ => rfl

theorem world_symbolOf (h : s.Of w) (hw : w.Sound) : s.world.symbolOf = w.symbolOf :=
  funext (h.symbol_keyOf hw)

theorem world_tryLookup (h : s.Of w) (hw : w.Sound) : s.world.tryLookup = w.tryLookup := by
  have hfound : (fun n => (s.world.find? n).isSome) = fun n => (w.find? n).isSome := by
    rw [h.world_find? hw]
  have hlookup : s.world.lookup = w.lookup := funext fun name =>
    congrArg₂ (fun found provider =>
      (JavaAbi.lookupOutcome found provider name).map fun _ => Symbol.type name) hfound h.provider
  funext name
  rw [World.tryLookup, World.tryLookup, hlookup]

theorem world_modifiersOf (h : s.Of w) (hw : w.Sound) : s.world.modifiersOf = w.modifiersOf := by
  have hdescriptor : s.world.descriptorOf? = w.descriptorOf? := by
    funext symbol
    cases symbol with
    | type name =>
      rw [World.descriptorOf?, World.descriptorOf?, h.world_find? hw, ← h.provider]
      rfl
    | _ => rfl
  funext symbol
  rw [World.modifiersOf, World.modifiersOf, h.world_declOf? hw, hdescriptor, ← h.index, ← h.units]
  rfl

theorem world_declaredMember (h : s.Of w) (hw : w.Sound) (owner : Symbol) (simple : Name) :
    s.world.declaredMember owner simple =
      w.declaredMemberAs owner simple (s.names.text simple) := by
  unfold World.declaredMember World.declaredMemberAs
  rw [h.world_declOf? hw, h.world_symbolOf hw, h.world_tryLookup hw, ← h.index]
  rfl

end Of

/-! ### The element of a symbol -/

/-- The element of a symbol. -/
def Shows (s : Session) (symbol : Symbol) (id : ElementId) : Prop :=
  ∃ key, s.Denotes key id ∧ key.symbol s.names = symbol

theorem symbol_grow (ha : s.Askable key) (h : s.names.Le t.names) :
    key.symbol t.names = key.symbol s.names := by
  cases key with
  | package n => exact congrArg Symbol.package (NameTable.text_le ha.1 h)
  | type n => exact congrArg Symbol.type (NameTable.text_le ha h)
  | _ => rfl

theorem Shows.grow (hs : s.Sound) (h : s.Shows symbol id) (hk : s.Keeps t) : t.Shows symbol id := by
  obtain ⟨key, hd, rfl⟩ := h
  exact ⟨key, hd.grow hk, symbol_grow (hs.askable key _ hd) hk.names⟩

/-- Different keys have different symbols. -/
theorem symbol_inj {key' : ElementKey} (ha : s.Askable key) (ha' : s.Askable key')
    (h : key.symbol s.names = key'.symbol s.names) : key = key' := by
  cases key with
  | package n =>
    cases key' with
    | package m => exact congrArg _ (NameTable.eq_of_text_eq ha.1 ha'.1 (Symbol.package.inj h))
    | _ => cases h
  | type n =>
    cases key' with
    | type m => exact congrArg _ (NameTable.eq_of_text_eq ha ha' (Symbol.type.inj h))
    | _ => cases h
  | unnamed d =>
    cases key' with
    | unnamed => cases h; rfl
    | _ => cases h
  | field d m v =>
    cases key' with
    | field => cases h; rfl
    | _ => cases h
  | constant d m =>
    cases key' with
    | constant => cases h; rfl
    | _ => cases h

theorem Shows.unique {symbol' : Symbol} (hs : s.Sound) (h : s.Shows symbol id)
    (h' : s.Shows symbol' id) : symbol = symbol' := by
  obtain ⟨key, hd, rfl⟩ := h
  obtain ⟨key', hd', rfl⟩ := h'
  rw [hs.unique key key' id hd hd']

theorem Shows.denotes (hs : s.Sound) (h : s.Shows (key.symbol s.names) id) (ha : s.Askable key) :
    s.Denotes key id := by
  obtain ⟨key', hd, heq⟩ := h
  rw [← symbol_inj (hs.askable key' _ hd) ha heq]
  exact hd

theorem Shows.functional {id' : ElementId} (hs : s.Sound) (h : s.Shows symbol id)
    (h' : s.Shows symbol id') : id = id' := by
  obtain ⟨key, hd, rfl⟩ := h
  have hd' := h'.denotes hs (hs.askable key _ hd)
  have heq := hd.symm.trans hd'
  cases heq
  rfl

/-- A symbol that is shown has an element. -/
theorem Shows.get? (hs : s.Sound) (h : s.Shows symbol id) : ∃ e, s.elements.get? id = some e := by
  obtain ⟨key, hden, -⟩ := h
  obtain ⟨e, he, -⟩ := hs.element key id hden
  exact ⟨e, he⟩

/-! ### Elements of types -/

/-- The element of a declaration. -/
structure IsTree (s : Session) (id : ElementId) (d : DeclId) (i : DeclInfo) (tree : TypeDecl)
    (e : Element) : Prop where
  get : s.elements.get? id = some e
  primary : s.index.Primary d
  info : s.index.get? d = some i
  tree_eq : s.index.tree? s.units d = some tree
  encloses : s.Encloses (s.index.outerKey? i) e.enclosing
  older : ∀ enc ∈ e.enclosing, enc < id
  bare : e.bare = .ofTree d i tree e.enclosing (s.index.allMemberKeys d 0 tree.members)

/-- The element of a precompiled type. -/
structure IsDescribed (s : Session) (id : ElementId) (n : Name) (d : Descriptor) (e : Element) :
    Prop where
  get : s.elements.get? id = some e
  issued : s.names.Issued n
  answer : s.provider.resolve? (s.names.text n) = some d
  named : d.qualifiedName = s.names.text n
  older : ∀ enc ∈ e.enclosing, enc < id
  surrounds : s.Surrounds d e.enclosing
  bare : ∃ simple params, s.names.resolve? simple = some d.simpleName ∧
    List.Forall₂ (fun p text => s.names.resolve? p = some text) params d.typeParameters ∧
    e.bare = .ofDescriptor d n simple params e.enclosing

/-- What the element of a declaration keeps of it. -/
def shapeOf (s : Session) (d : DeclId) (i : DeclInfo) (tree : TypeDecl) : TreeShape where
  decl := d
  unit := i.unit
  isConstantBody := i.constant.isSome
  extended := tree.head.extended
  implemented := tree.head.implemented
  members := s.index.allMemberKeys d 0 tree.members

namespace IsTree

variable {d : DeclId} {i : DeclInfo} {tree : TypeDecl} {e : Element}

theorem source (h : s.IsTree id d i tree e) : e.source = .tree (s.shapeOf d i tree) :=
  congrArg Element.source h.bare

theorem kind (h : s.IsTree id d i tree e) : e.kind = .ofDecl tree.head.kind :=
  congrArg Element.kind h.bare

theorem qualifiedName (h : s.IsTree id d i tree e) : e.qualifiedName = i.qualifiedName :=
  congrArg Element.qualifiedName h.bare

theorem modifiers (h : s.IsTree id d i tree e) : e.modifiers = tree.head.modifiers :=
  congrArg Element.modifiers h.bare

theorem info_world (h : s.IsTree id d i tree e) (ho : s.Of w) : w.index.get? d = some i :=
  ho.index ▸ h.info

theorem tree_world (h : s.IsTree id d i tree e) (ho : s.Of w) :
    w.index.tree? w.units d = some tree := by
  rw [← ho.index, ← ho.units]
  exact h.tree_eq

end IsTree

namespace IsDescribed

variable {n : Name} {d : Descriptor} {e : Element}

theorem source (h : s.IsDescribed id n d e) : e.source = .described d := by
  obtain ⟨_, _, -, -, hb⟩ := h.bare
  exact congrArg Element.source hb

theorem qualifiedName (h : s.IsDescribed id n d e) : e.qualifiedName = .named n := by
  obtain ⟨_, _, -, -, hb⟩ := h.bare
  exact congrArg Element.qualifiedName hb

theorem modifiers (h : s.IsDescribed id n d e) : e.modifiers = d.modifiers := by
  obtain ⟨_, _, -, -, hb⟩ := h.bare
  exact congrArg Element.modifiers hb

end IsDescribed

theorem isType_symbolOf (w : World) (d : DeclId) : (w.symbolOf d).IsType := by
  have hkey := w.index.keyOf_isType d
  rw [World.symbolOf]
  cases h : w.index.keyOf d with
  | type _ | unnamed _ => trivial
  | _ => exact (h ▸ hkey).elim

theorem keyOf_primary {d : DeclId} (hd : s.index.Primary d) :
    (∃ n, s.index.keyOf d = .type n ∧ s.index.find? n = some d) ∨
      s.index.keyOf d = .unnamed d := by
  cases hd with
  | named hi hn hf => exact .inl ⟨_, by rw [DeclIndex.keyOf_eq hi, DeclInfo.key, hn], hf⟩
  | nameless hi hn _ => exact .inr (by rw [DeclIndex.keyOf_eq hi, DeclInfo.key, hn])

/-- **The element of a declaration is made from its tree.** -/
theorem Sound.isTree {d : DeclId} (hs : s.Sound) (hp : s.index.Primary d)
    (hd : s.Denotes (s.index.keyOf d) id) : ∃ i tree e, s.IsTree id d i tree e := by
  obtain ⟨e, he, hdesc, hold⟩ := hs.element _ id hd
  generalize hk : s.index.keyOf d = key at hdesc
  generalize hb : e.bare = b at hdesc
  have hkey := keyOf_primary hp
  cases hdesc with
  | @tree d' i tree enc hp' hi htree henc =>
    rw [← DeclIndex.keyOf_eq hi] at hk
    cases hp.keyOf_inj hp' hk
    have heq : e.enclosing = enc := congrArg Element.enclosing hb
    rw [← heq] at hb henc
    exact ⟨i, tree, e, he, hp, hi, htree, henc, hold, hb⟩
  | described _ hfree =>
    -- a precompiled type has a name that no declaration of the batch has
    rcases hkey with ⟨n, hn, hf⟩ | hn
    · rw [hn] at hk
      cases hk
      cases hfree.symm.trans hf
    · rw [hn] at hk
      cases hk
  | _ => rcases hkey with ⟨n, hn, -⟩ | hn <;> rw [hn] at hk <;> cases hk

/-- **The element of a precompiled type is made from its descriptor.** -/
theorem Sound.isDescribed {n : Name} (hs : s.Sound) (hf : s.index.find? n = none)
    (hd : s.Denotes (.type n) id) : ∃ d e, s.IsDescribed id n d e := by
  obtain ⟨e, he, hdesc, hold⟩ := hs.element _ id hd
  generalize hk : ElementKey.type n = key at hdesc
  generalize hb : e.bare = b at hdesc
  cases hdesc with
  | @tree d i tree enc hp hi htree henc =>
    rw [← DeclIndex.keyOf_eq hi] at hk
    rcases keyOf_primary hp with ⟨m, hm, hf'⟩ | hm
    · rw [hm] at hk
      cases hk
      rw [hf] at hf'
      cases hf'
    · rw [hm] at hk
      cases hk
  | @described m simple d params enc hissued _ hanswer hnamed hsimple hparams hsurrounds =>
    cases hk
    have heq : e.enclosing = enc := congrArg Element.enclosing hb
    rw [← heq] at hb hsurrounds
    exact ⟨d, e, he, hissued, hanswer, hnamed, hold, hsurrounds, simple, params, hsimple, hparams,
      hb⟩
  | _ => cases hk

/-- The element of a constant stands in its enum. -/
theorem Sound.isConstant {d : DeclId} {m : Nat} (hs : s.Sound) (hd : s.Denotes (.constant d m) id) :
    ∃ e owner, s.elements.get? id = some e ∧ e.kind = .enumConstant ∧
      e.source = .constant (s.index.child? d m) ∧ e.enclosing = some owner ∧
      s.Denotes (s.index.keyOf d) owner ∧ owner < id := by
  obtain ⟨e, he, hdesc, hold⟩ := hs.element _ id hd
  obtain ⟨n, body, sp, owner, -, ho, hb⟩ := hdesc.constant_inv
  have henc : e.enclosing = some owner := congrArg Element.enclosing hb
  exact ⟨e, owner, he, congrArg Element.kind hb, congrArg Element.source hb, henc, ho,
    hold owner henc⟩

/-- The element of the package of a file stands in no other. -/
theorem Sound.isPackage {p : Option Name} (hs : s.Sound) (hk : DeclIndex.packageKey? p = some key)
    (hd : s.Denotes key id) :
    ∃ e, s.elements.get? id = some e ∧ e.kind = .package ∧ e.source = .package ∧
      e.enclosing = none := by
  obtain ⟨n, -, -, rfl⟩ := DeclIndex.packageKey?_eq_some.1 hk
  obtain ⟨e, he, hdesc, -⟩ := hs.element _ _ hd
  obtain ⟨simple, -, hb⟩ := hdesc.package_inv
  exact ⟨e, he, congrArg Element.kind hb, congrArg Element.source hb, congrArg Element.enclosing hb⟩

/-- What encloses a declaration: nothing, the package of its file, the constant of which it is the
    body, or the declaration of which it is a member. -/
inductive Around (s : Session) (i : DeclInfo) : Option ElementId → Prop
  | nothing (parent : i.parent = none) : Around s i none
  | package {id : ElementId} {e : Element} (parent : i.parent = none)
      (get : s.elements.get? id = some e) (kind : e.kind = .package) (source : e.source = .package)
      (outermost : e.enclosing = none) : Around s i (some id)
  | constant {p : DeclId} {m : Nat} {id owner : ElementId} {e : Element}
      (parent : i.parent = some p) (constant : i.constant = some m)
      (get : s.elements.get? id = some e) (kind : e.kind = .enumConstant)
      (source : ∃ body, e.source = .constant body) (enclosing : e.enclosing = some owner)
      (owned : s.Denotes (s.index.keyOf p) owner) (older : owner < id) : Around s i (some id)
  | type {p : DeclId} {id : ElementId} (parent : i.parent = some p) (constant : i.constant = none)
      (denotes : s.Denotes (s.index.keyOf p) id) : Around s i (some id)

theorem IsTree.around {d : DeclId} {i : DeclInfo} {tree : TypeDecl} {e : Element}
    (he : s.IsTree id d i tree e) (hs : s.Sound) : s.Around i e.enclosing := by
  have henc := he.encloses
  unfold DeclIndex.outerKey? at henc
  cases hp : i.parent with
  | none =>
    rw [hp] at henc
    dsimp only at henc
    -- At the top stands the package of the file, unless it has none.
    cases hkey : DeclIndex.packageKey? (s.index.package? i.unit) with
    | none =>
      rw [hkey] at henc
      rw [show e.enclosing = none from henc]
      exact .nothing hp
    | some key =>
      rw [hkey] at henc
      obtain ⟨pk, hec, hden⟩ := henc
      obtain ⟨ep, hget, hkind, hsource, hnone⟩ := hs.isPackage hkey hden
      rw [hec]
      exact .package hp hget hkind hsource hnone
  | some p =>
    -- Inside of a declaration stands its element, or the constant that it is the body of.
    cases hm : i.constant with
    | some m =>
      rw [hp, hm] at henc
      obtain ⟨c, hec, hden⟩ := henc
      obtain ⟨ec, owner, hget, hkind, hsource, howner, hown, hlt⟩ := hs.isConstant hden
      rw [hec]
      exact .constant hp hm hget hkind ⟨_, hsource⟩ howner hown hlt
    | none =>
      rw [hp, hm] at henc
      obtain ⟨outer, hec, hden⟩ := henc
      rw [hec]
      exact .type hp hm hden

/-- The element of a type. -/
structure ShowsType (s : Session) (symbol : Symbol) (id : ElementId) : Prop where
  shows : s.Shows symbol id
  isType : symbol.IsType

theorem ShowsType.grow (hs : s.Sound) (h : s.ShowsType symbol id) (hk : s.Keeps t) :
    t.ShowsType symbol id := ⟨h.shows.grow hs hk, h.isType⟩

namespace Shows

/-- The element of a declared symbol. -/
theorem tree {d : DeclId} (hw : w.Sound) (hs : s.Sound) (ho : s.Of w) (h : s.Shows symbol id)
    (hd : w.declOf? symbol = some d) :
    s.index.Primary d ∧ w.symbolOf d = symbol ∧ s.Denotes (s.index.keyOf d) id := by
  obtain ⟨key, hden, rfl⟩ := h
  have hask := hs.askable key _ hden
  cases key with
  | type n =>
    have hf : s.index.find? n = some d := (ho.find? hw (NameTable.Issued.resolve? hask)).trans hd
    obtain ⟨hp, hk, -⟩ := hs.index.primary_of_find? hf
    rw [← hk] at hden ⊢
    exact ⟨hp, (ho.symbol_keyOf hw d).symm, hden⟩
  | unnamed d' =>
    cases hd
    rw [← hask.2] at hden ⊢
    exact ⟨hask.1, (ho.symbol_keyOf hw _).symm, hden⟩
  | _ => cases hd

/-- The element of a symbol that the batch does not declare. -/
theorem described {name : String} (hw : w.Sound) (hs : s.Sound) (ho : s.Of w)
    (h : s.Shows (.type name) id) (hd : w.find? name = none) :
    ∃ n d e, s.names.text n = name ∧ s.Denotes (.type n) id ∧ s.IsDescribed id n d e := by
  obtain ⟨key, hden, hsym⟩ := h
  cases key with
  | type n =>
    have htext : s.names.text n = name := Symbol.type.inj hsym
    have hask := hs.askable _ _ hden
    have hf : s.index.find? n = none := by
      rw [ho.find? hw (NameTable.Issued.resolve? hask), htext]
      exact hd
    obtain ⟨d, e, hde⟩ := hs.isDescribed hf hden
    exact ⟨n, d, e, htext, hden, hde⟩
  | _ => cases hsym

end Shows

/-- The canonical name of the element of a type. -/
theorem ShowsType.qualified (hw : w.Sound) (hs : s.Sound) (ho : s.Of w)
    (h : s.ShowsType symbol id) :
    ∃ e, s.elements.get? id = some e ∧ (∀ n ∈ e.qualifiedName.name?, s.names.Issued n) ∧
      e.qualifiedName.name?.map s.names.text = symbol.name? := by
  cases hd : w.declOf? symbol with
  | some d =>
    obtain ⟨hp, rfl, hden⟩ := h.shows.tree hw hs ho hd
    obtain ⟨i, tree, e, he⟩ := hs.isTree hp hden
    refine ⟨e, he.get, ?_, ?_⟩
    · rw [he.qualifiedName]
      exact (hs.index.infos d i he.info).qualified
    · rw [he.qualifiedName, ← ho.symbol_keyOf hw, DeclIndex.keyOf_eq he.info, DeclInfo.key]
      cases i.qualifiedName.name? <;> rfl
  | none =>
    cases symbol with
    | type name =>
      obtain ⟨n, d, e, hname, -, he⟩ := h.shows.described hw hs ho hd
      refine ⟨e, he.get, ?_, ?_⟩
      · rw [he.qualifiedName]
        rintro _ ⟨⟩
        exact he.issued
      · rw [he.qualifiedName]
        exact congrArg some hname
    | unnamed d => cases hd
    | _ => exact h.isType.elim

end Session

end JavaAbi
