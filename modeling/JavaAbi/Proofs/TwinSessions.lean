import JavaAbi.Proofs.TwinWorlds

namespace JavaAbi

/-!
# Twin sessions

Sessions of twin worlds, and what it means that they have learnt the same so far. Elements are compared
by their keys, so that neither their numbers matter nor which of them exist already: an element that
only one of the two sessions has made keeps no answer yet.

* `Resemblance`, `ModelType.Alike` — types that differ in numbers only;
* `Session.memory` — the answers that a session keeps about an element;
* `Twins.Same` — elements that correspond;
* `Twins.Alike` — sessions that have learnt the same;
* `Alike.elements` — what corresponding elements have in common.
-/

/-! ### Types that resemble each other -/

/-- What is to be taken for the same in two types: the tokens of their sessions, elements, names, and
    references with their cells. -/
structure Resemblance where
  origin : SessionToken → SessionToken → Prop
  element : ElementId → ElementId → Prop
  name : Name → Name → Prop
  reference : Nat → TypeReference → Nat → TypeReference → Prop

/-- Things that resemble each other in one way do so in another. -/
structure Resemblance.Le (R R' : Resemblance) : Prop where
  origin : ∀ {o o'}, R.origin o o' → R'.origin o o'
  element : ∀ {id id'}, R.element id id' → R'.element id id'
  name : ∀ {n n'}, R.name n n' → R'.name n n'
  reference : ∀ {c r c' r'}, R.reference c r c' r' → R'.reference c r c' r'

/-- Two types name corresponding elements, or write the same. -/
inductive TypeTarget.Alike (R : Resemblance) : TypeTarget → TypeTarget → Prop
  | known {id id' : ElementId} (h : R.element id id') : Alike R (.known id) (.known id')
  | written {c c' : Nat} {r r' : TypeReference} (h : R.reference c r c' r') :
      Alike R (.written c r) (.written c' r')

mutual

/-- Types of the same structure. -/
inductive ModelType.Alike (R : Resemblance) : ModelType → ModelType → Prop
  | primitive (p : PrimitiveType) : ModelType.Alike R (.primitive p) (.primitive p)
  | absent : ModelType.Alike R .absent .absent
  | void : ModelType.Alike R .void .void
  | package : ModelType.Alike R .package .package
  | error : ModelType.Alike R .error .error
  | declared {o o' : SessionToken} {target target' : TypeTarget} {args args' : List ModelType}
      {enclosing enclosing' : ModelType} (made : R.origin o o')
      (named : TypeTarget.Alike R target target') (arguments : ModelType.AllAlike R args args')
      (around : ModelType.Alike R enclosing enclosing') :
      ModelType.Alike R (.declared o target args enclosing) (.declared o' target' args' enclosing')
  | array {c c' : ModelType} (component : ModelType.Alike R c c') :
      ModelType.Alike R (.array c) (.array c')
  | typeVariable {n n' : Name} {id id' : ElementId} (name : R.name n n') (owner : R.element id id') :
      ModelType.Alike R (.typeVariable n id) (.typeVariable n' id')
  | wildcard {b b' c c' : Option ModelType} (extendsBound : ModelType.BoundAlike R b b')
      (superBound : ModelType.BoundAlike R c c') :
      ModelType.Alike R (.wildcard b c) (.wildcard b' c')

/-- The same for lists of types. -/
inductive ModelType.AllAlike (R : Resemblance) : List ModelType → List ModelType → Prop
  | nil : ModelType.AllAlike R [] []
  | cons {a a' : ModelType} {rest rest' : List ModelType} (head : ModelType.Alike R a a')
      (tail : ModelType.AllAlike R rest rest') : ModelType.AllAlike R (a :: rest) (a' :: rest')

/-- The same for bounds. -/
inductive ModelType.BoundAlike (R : Resemblance) : Option ModelType → Option ModelType → Prop
  | none : ModelType.BoundAlike R none none
  | some {a a' : ModelType} (bound : ModelType.Alike R a a') :
      ModelType.BoundAlike R (some a) (some a')

end

section Resemblance

variable {R R' : Resemblance}

theorem TypeTarget.Alike.mono {target target' : TypeTarget} (h : TypeTarget.Alike R target target')
    (hle : R.Le R') : TypeTarget.Alike R' target target' := by
  cases h with
  | known h => exact .known (hle.element h)
  | written h => exact .written (hle.reference h)

mutual

theorem ModelType.Alike.mono {a a' : ModelType} (h : ModelType.Alike R a a') (hle : R.Le R') :
    ModelType.Alike R' a a' := by
  match h with
  | .primitive p => exact .primitive p
  | .absent => exact .absent
  | .void => exact .void
  | .package => exact .package
  | .error => exact .error
  | .declared origin target args enclosing =>
    exact .declared (hle.origin origin) (target.mono hle) (args.mono hle) (enclosing.mono hle)
  | .array component => exact .array (component.mono hle)
  | .typeVariable name owner => exact .typeVariable (hle.name name) (hle.element owner)
  | .wildcard upper lower => exact .wildcard (upper.mono hle) (lower.mono hle)

theorem ModelType.AllAlike.mono {as as' : List ModelType} (h : ModelType.AllAlike R as as')
    (hle : R.Le R') : ModelType.AllAlike R' as as' := by
  match h with
  | .nil => exact .nil
  | .cons head tail => exact .cons (head.mono hle) (tail.mono hle)

theorem ModelType.BoundAlike.mono {b b' : Option ModelType} (h : ModelType.BoundAlike R b b')
    (hle : R.Le R') : ModelType.BoundAlike R' b b' := by
  match h with
  | .none => exact .none
  | .some bound => exact .some (bound.mono hle)

end

theorem ModelType.allAlike_iff {as as' : List ModelType} :
    ModelType.AllAlike R as as' ↔ List.Forall₂ (ModelType.Alike R) as as' := by
  constructor
  · intro h
    induction as generalizing as' with
    | nil =>
      cases h
      exact .nil
    | cons a rest ih =>
      cases h with
      | cons head tail => exact .cons head (ih tail)
  · intro h
    induction h with
    | nil => exact .nil
    | cons head _ ih => exact .cons head ih

end Resemblance

/-- Outcomes of two queries correspond: answers as `rel` says, errors if they are equal. -/
inductive OutcomeAlike {α β : Type} (rel : α → β → Prop) :
    Except ModelError α → Except ModelError β → Prop
  | ok {a : α} {b : β} (h : rel a b) : OutcomeAlike rel (.ok a) (.ok b)
  | error (e : ModelError) : OutcomeAlike rel (.error e) (.error e)

theorem OutcomeAlike.mono {α β : Type} {rel rel' : α → β → Prop} {r : Except ModelError α}
    {r' : Except ModelError β} (h : OutcomeAlike rel r r') (hm : ∀ a b, rel a b → rel' a b) :
    OutcomeAlike rel' r r' := by
  cases h with
  | ok h => exact .ok (hm _ _ h)
  | error e => exact .error e

/-- What two requests of a key meet corresponds. -/
inductive Request.Alike {ν ν' : Type} (rel : ν → ν' → Prop) : Request ν → Request ν' → Prop
  | found {v : ν} {v' : ν'} (h : rel v v') : Request.Alike rel (.found v) (.found v')
  | reentrant : Request.Alike rel .reentrant .reentrant
  | construct : Request.Alike rel .construct .construct

theorem Request.Alike.mono {ν ν' : Type} {rel rel' : ν → ν' → Prop} {r : Request ν}
    {r' : Request ν'} (h : Request.Alike rel r r') (hm : ∀ v v', rel v v' → rel' v v') :
    Request.Alike rel' r r' := by
  cases h with
  | found h => exact .found (hm _ _ h)
  | reentrant => exact .reentrant
  | construct => exact .construct

/-! ### What lasts in a session -/

/-- What is sure of a session while no element is being made. -/
structure Session.Steady (w : World) (s : Session) : Prop where
  sound : s.Sound
  quiet : s.Quiet
  of : s.Of w

/-- What a session never loses. -/
structure Session.Lasts (s t : Session) : Prop where
  base : t.toSessionBase = s.toSessionBase
  names : s.names.Le t.names
  ready : ∀ key r, s.cache.slot? key = some (.ready r) → t.cache.slot? key = some (.ready r)

/-- What a session keeps about an element: its list of supertypes, or that the list is being made, and
    the answers that the element has given. -/
structure Memory where
  list : Request (List ElementId)
  ownType : Option ModelType
  superclass : Option (Except ModelError ModelType)
  interfaces : Option (Except ModelError (List ModelType))
  enclosed : Option (Except ModelError (List ElementId))

/-- Nothing is kept. -/
def Memory.blank : Memory where
  list := .construct
  ownType := none
  superclass := none
  interfaces := none
  enclosed := none

namespace Session

variable {s t u : Session} {key key' : ElementKey} {id : ElementId}

theorem Lasts.refl (s : Session) : s.Lasts s := ⟨rfl, .refl _, fun _ _ h => h⟩

theorem Lasts.trans (h : s.Lasts t) (h' : t.Lasts u) : s.Lasts u where
  base := h'.base.trans h.base
  names := h.names.trans h'.names
  ready key r hr := h'.ready key r (h.ready key r hr)

theorem Keeps.lasts (h : s.Keeps t) : s.Lasts t := ⟨h.base, h.names, h.ready⟩

/-- Whether a search was cut off is a note that nothing depends on. -/
theorem Lasts.keeps (h : s.Lasts t) : s.Keeps { t with cutOff := s.cutOff } :=
  ⟨h.base, h.names, h.ready, fun _ => rfl⟩

theorem Denotes.last (h : s.Denotes key id) (hl : s.Lasts t) : t.Denotes key id :=
  hl.ready key _ h

theorem Askable.last (h : s.Askable key) (hl : s.Lasts t) : t.Askable key := by
  have hk := h.grow hl.keeps
  exact hk

theorem Lasts.index (h : s.Lasts t) : t.index = s.index := congrArg SessionBase.index h.base

/-- What a session keeps about an element. -/
def memory (s : Session) (id : ElementId) : Memory where
  list := (s.supertypes.request id).1
  ownType := (s.elements.get? id).bind Element.ownType
  superclass := (s.elements.get? id).bind Element.superclass
  interfaces := (s.elements.get? id).bind Element.interfaces
  enclosed := (s.elements.get? id).bind Element.enclosed

/-- An element that stays as it is, and whose list does, is remembered as before. -/
theorem memory_eq (he : t.elements.get? id = s.elements.get? id)
    (hl : t.supertypes.slot? id = s.supertypes.slot? id) : t.memory id = s.memory id := by
  have hr : (t.supertypes.request id).1 = (s.supertypes.request id).1 := by
    rw [Cache.request, Cache.request, hl]
    split <;> rfl
  rw [memory, memory, he, hr]

end Session

/-! ### Correspondence -/

namespace Twins

variable {w w' : World} (T : Twins w w') (s s' : Session)

/-- Elements that correspond. -/
def Same (id id' : ElementId) : Prop :=
  ∃ key key', s.Denotes key id ∧ s'.Denotes key' id' ∧ T.Keys s.names s'.names key key'

/-- Corresponding levels of scopes. -/
structure Level (l l' : DeclId × ElementId) : Prop where
  decl : T.decl l.1 l'.1
  same : T.Same s s' l.2 l'.2
  primary : w.index.Primary l.1
  primary' : w'.index.Primary l'.1

/-- Corresponding scopes. -/
structure Scopes (sc sc' : Scope) : Prop where
  unit : T.unit sc.unit sc'.unit
  chain : List.Forall₂ (T.Level s s') sc.chain sc'.chain
  header : sc.header = sc'.header

/-- References that write the same in corresponding scopes. -/
structure References (r r' : TypeReference) : Prop where
  scope : T.Scopes s s' r.scope r'.scope
  path : r.path = r'.path
  proper : ∀ n ∈ r.path, T.base.Proper n
  span : r.span = r'.span

/-- What is taken for the same in types of two sessions. Cells are given out in step. -/
def resemblance : Resemblance where
  origin o o' := o = w.token ∧ o' = w'.token
  element := T.Same s s'
  name := s.names.Agree s'.names
  reference c r c' r' := c = c' ∧ T.References s s' r r'

/-- What two elements of corresponding keys enclose. A package encloses the same in any order; from a
    type, variables may be missing. -/
def Contents : ElementKey → List ElementId → List ElementId → Prop
  | .package _, ids, ids' => ∃ l, l.Perm ids' ∧ List.Forall₂ (T.Same s s') ids l
  | _, ids, ids' =>
    List.Sheds (fun id => ∃ key, s.Denotes key id ∧ T.Hidden key) (T.Same s s') ids ids'

/-- The same is remembered of two elements. -/
structure Memories (key : ElementKey) (m m' : Memory) : Prop where
  list : Request.Alike (List.Forall₂ (T.Same s s')) m.list m'.list
  ownType : Option.Rel (ModelType.Alike (T.resemblance s s')) m.ownType m'.ownType
  superclass : Option.Rel (OutcomeAlike (ModelType.Alike (T.resemblance s s'))) m.superclass
    m'.superclass
  interfaces : Option.Rel (OutcomeAlike (List.Forall₂ (ModelType.Alike (T.resemblance s s'))))
    m.interfaces m'.interfaces
  enclosed : Option.Rel (OutcomeAlike (T.Contents s s' key)) m.enclosed m'.enclosed

/-- **Sessions that have learnt the same.** Only of corresponding elements something is kept. -/
structure Alike : Prop where
  left : s.Steady w
  right : s'.Steady w'
  cells : ∀ c : Nat, Option.Rel (Option.Rel (OutcomeAlike (T.Same s s')))
    (s.cells[c]?.map Cell.outcome) (s'.cells[c]?.map Cell.outcome)
  memory : ∀ key key' id id', s.Denotes key id → s'.Denotes key' id' →
    T.Keys s.names s'.names key key' → T.Memories s s' key (s.memory id) (s'.memory id')
  partner : ∀ id, s.memory id ≠ .blank → ∃ id', T.Same s s' id id'
  partner' : ∀ id', s'.memory id' ≠ .blank → ∃ id, T.Same s s' id id'

/-- Two sessions go on. -/
structure Later (t t' : Session) : Prop where
  left : s.Lasts t
  right : s'.Lasts t'

variable {T s s'} {t t' u u' : Session} {id id' : ElementId}

theorem Later.refl (s s' : Session) : Later s s' s s' := ⟨.refl s, .refl s'⟩

theorem Later.trans (h : Later s s' t t') (h' : Later t t' u u') : Later s s' u u' :=
  ⟨h.left.trans h'.left, h.right.trans h'.right⟩

/-! ### What lasts -/

theorem Same.later (h : T.Same s s' id id') (hl : Later s s' t t') : T.Same t t' id id' := by
  obtain ⟨key, key', hd, hd', hk⟩ := h
  exact ⟨key, key', hd.last hl.left, hd'.last hl.right, hk.le hl.left.names hl.right.names⟩

theorem Level.later {l l' : DeclId × ElementId} (h : T.Level s s' l l') (hl : Later s s' t t') :
    T.Level t t' l l' := { h with same := h.same.later hl }

theorem Scopes.later {sc sc' : Scope} (h : T.Scopes s s' sc sc') (hl : Later s s' t t') :
    T.Scopes t t' sc sc' := { h with chain := h.chain.imp fun _ _ hc => hc.later hl }

theorem References.later {r r' : TypeReference} (h : T.References s s' r r')
    (hl : Later s s' t t') : T.References t t' r r' := { h with scope := h.scope.later hl }

theorem Later.resemblance (hl : Later s s' t t') : (T.resemblance s s').Le (T.resemblance t t') where
  origin h := h
  element h := h.later hl
  name h := h.le hl.left.names hl.right.names
  reference h := ⟨h.1, h.2.later hl⟩

theorem Contents.later {key : ElementKey} {ids ids' : List ElementId}
    (h : T.Contents s s' key ids ids') (hl : Later s s' t t') : T.Contents t t' key ids ids' := by
  have hsheds : ∀ {ids ids'}, List.Sheds (fun id => ∃ key, s.Denotes key id ∧ T.Hidden key)
      (T.Same s s') ids ids' → List.Sheds (fun id => ∃ key, t.Denotes key id ∧ T.Hidden key)
      (T.Same t t') ids ids' := fun h =>
    h.mono (fun _ ⟨k, hd, hk⟩ => ⟨k, hd.last hl.left, hk⟩) fun _ _ hs => hs.later hl
  cases key with
  | package n =>
    obtain ⟨l, hp, hall⟩ := h
    exact ⟨l, hp, hall.imp fun _ _ hs => hs.later hl⟩
  | _ => exact hsheds h

theorem Memories.later {key : ElementKey} {m m' : Memory} (h : T.Memories s s' key m m')
    (hl : Later s s' t t') : T.Memories t t' key m m' where
  list := h.list.mono fun _ _ hs => hs.imp fun _ _ hs => hs.later hl
  ownType := Option.Rel.mono h.ownType fun _ _ ht => ht.mono hl.resemblance
  superclass := Option.Rel.mono h.superclass fun _ _ hr => hr.mono fun _ _ ht =>
    ht.mono hl.resemblance
  interfaces := Option.Rel.mono h.interfaces fun _ _ hr => hr.mono fun _ _ ht =>
    ht.imp fun _ _ ht => ht.mono hl.resemblance
  enclosed := Option.Rel.mono h.enclosed fun _ _ hr => hr.mono fun _ _ hc => hc.later hl

theorem Memories.blank (key : ElementKey) : T.Memories s s' key .blank .blank where
  list := .construct
  ownType := .none
  superclass := .none
  interfaces := .none
  enclosed := .none

/-! ### Corresponding elements -/

section Elements

variable {e e' : Element} {id₁ : ElementId}

theorem Same.functional (h : T.Same s s' id id') (h' : T.Same s s' id id₁) (hs : s.Sound) :
    id' = id₁ := by
  obtain ⟨key, key', hd, hd', hk⟩ := h
  obtain ⟨key₁, key₁', hd₁, hd₁', hk₁⟩ := h'
  obtain rfl := hs.unique _ _ _ hd hd₁
  obtain rfl := hk.functional hk₁
  exact hd'.functional hd₁'

theorem Same.injective (h : T.Same s s' id id') (h' : T.Same s s' id₁ id') (hs : s'.Sound) :
    id = id₁ := by
  obtain ⟨key, key', hd, hd', hk⟩ := h
  obtain ⟨key₁, key₁', hd₁, hd₁', hk₁⟩ := h'
  obtain rfl := hs.unique _ _ _ hd' hd₁'
  obtain rfl := hk.injective hk₁
  exact hd.functional hd₁

/-- Corresponding elements are as different as those that they correspond to. -/
theorem Alike.eq_iff (h : T.Alike s s') {id₁' : ElementId} (hid : T.Same s s' id id')
    (hid₁ : T.Same s s' id₁ id₁') : id = id₁ ↔ id' = id₁' := by
  constructor
  · rintro rfl
    exact hid.functional hid₁ h.left.sound
  · rintro rfl
    exact hid.injective hid₁ h.right.sound

/-- Corresponding declarations that can be asked for their elements. -/
structure Declares (T : Twins w w') (s s' : Session) (d d' : DeclId) : Prop where
  decl : T.decl d d'
  askable : s.Askable (s.index.keyOf d)
  askable' : s'.Askable (s'.index.keyOf d')

/-- What elements of corresponding declarations keep of them. -/
structure Shapes (T : Twins w w') (s s' : Session) (shape shape' : TreeShape) : Prop where
  decl : T.decl shape.decl shape'.decl
  primary : w.index.Primary shape.decl
  primary' : w'.index.Primary shape'.decl
  unit : T.unit shape.unit shape'.unit
  isConstantBody : shape.isConstantBody = shape'.isConstantBody
  extended : shape.extended = shape'.extended
  implemented : shape.implemented = shape'.implemented
  supertypes : ∀ r ∈ shape.extended ++ shape.implemented, r.Sound T.base
  members : List.Sheds T.Hidden (T.Keys s.names s'.names) shape.members shape'.members
  askable : ∀ key ∈ shape.members, s.Askable key
  askable' : ∀ key ∈ shape'.members, s'.Askable key

/-- What corresponding elements are made of. -/
inductive Sources (T : Twins w w') (s s' : Session) : ElementSource → ElementSource → Prop
  | tree {shape shape' : TreeShape} (h : T.Shapes s s' shape shape') :
      Sources T s s' (.tree shape) (.tree shape')
  | field {type : TypeRef} (h : type.Sound T.base) : Sources T s s' (.field type) (.field type)
  | constant {body body' : Option DeclId} (h : Option.Rel (T.Declares s s') body body') :
      Sources T s s' (.constant body) (.constant body')
  | described (d : Descriptor) : Sources T s s' (.described d) (.described d)
  | package : Sources T s s' .package .package

/-- What corresponding elements have in common. -/
structure Elements (T : Twins w w') (s s' : Session) (id id' : ElementId) (e e' : Element) :
    Prop where
  kind : e.kind = e'.kind
  simpleName : s.names.Agree s'.names e.simpleName e'.simpleName
  qualifiedName : QualifiedName.Agree s.names s'.names e.qualifiedName e'.qualifiedName
  enclosing : Option.Rel (T.Same s s') e.enclosing e'.enclosing
  older : ∀ enc ∈ e.enclosing, enc < id
  older' : ∀ enc ∈ e'.enclosing, enc < id'
  source : T.Sources s s' e.source e'.source
  modifiers : e.modifiers = e'.modifiers
  typeParams : List.Forall₂ (s.names.Agree s'.names) e.typeParams e'.typeParams
  span : e.span = e'.span

variable {key key' : ElementKey}

/-! ### Names and look-ups -/

theorem Alike.agree (h : T.Alike s s') {n n' : Name} (hn : w.names.Agree w'.names n n') :
    s.names.Agree s'.names n n' := hn.le h.left.of.names h.right.of.names

/-- A name that stands in the trees. -/
theorem Alike.agree_base (h : T.Alike s s') {n : Name} (hn : T.base.Issued n) :
    s.names.Agree s'.names n n :=
  h.agree (.of_issued hn T.base_left T.base_right)

theorem Alike.keys (h : T.Alike s s') (hk : T.Keys w.names w'.names key key') :
    T.Keys s.names s'.names key key' := hk.le h.left.of.names h.right.of.names

theorem Alike.keyOf (h : T.Alike s s') {d d' : DeclId} (hd : T.decl d d') :
    T.Keys s.names s'.names (s.index.keyOf d) (s'.index.keyOf d') := by
  rw [h.left.of.index, h.right.of.index]
  exact h.keys (keyOf_twins hd)

theorem Alike.lookupOutcome_eq (h : T.Alike s s') : s.lookupOutcome = s'.lookupOutcome := by
  have hdeclares : ∀ {s : Session} {w : World}, s.Steady w → w.Sound →
      s.declares = fun name => (w.find? name).isSome := by
    intro s w hs hw
    funext name
    rw [Session.declares, hs.of.index, hw.index.find?_le hs.of.names]
    rfl
  funext name
  rw [Session.lookupOutcome, Session.lookupOutcome, hdeclares h.left T.left,
    hdeclares h.right T.right, h.left.of.provider, h.right.of.provider, lookupOutcome_twins T]

theorem Alike.outcomeOf_eq (h : T.Alike s s') (hk : T.Keys s.names s'.names key key') :
    s.outcomeOf key = s'.outcomeOf key' := by
  cases hk with
  | type hn => rw [Session.outcomeOf, Session.outcomeOf, h.lookupOutcome_eq, hn.text]
  | _ => rfl

/-! ### What encloses an element -/

/-- Packages of one text have corresponding elements, or none. -/
theorem packageKey?_twins {p p' : Option Name} {t t' : NameTable}
    (h : Option.Rel (t.Agree t') p p') :
    Option.Rel (T.Keys t t') (DeclIndex.packageKey? p) (DeclIndex.packageKey? p') := by
  cases h with
  | none => exact .none
  | @some n n' hn =>
    have hempty := hn.eq_iff (.empty t t')
    rw [DeclIndex.packageKey?, DeclIndex.packageKey?]
    by_cases hne : n = .empty
    · rw [if_pos hne, if_pos (hempty.1 hne)]
      exact .none
    · rw [if_neg hne, if_neg fun hne' => hne (hempty.2 hne')]
      exact .some (.package hn)

/-- What encloses corresponding declarations has corresponding keys. -/
theorem outerKey?_twins {d d' : DeclId} {i i' : DeclInfo} (hd : T.decl d d')
    (hi : w.index.get? d = some i) (hi' : w'.index.get? d' = some i') :
    Option.Rel (T.Keys w.names w'.names) (w.index.outerKey? i) (w'.index.outerKey? i') := by
  obtain ⟨j, j', hj, hj', hinfo⟩ := T.info hd
  cases hi.symm.trans hj
  cases hi'.symm.trans hj'
  have hparent := hinfo.parent
  have hconstant := hinfo.constant
  have hpackage := packageKey?_twins (T := T) (T.package hinfo.unit)
  rw [DeclIndex.outerKey?, DeclIndex.outerKey?]
  generalize i.parent = p, i'.parent = p' at hparent hconstant ⊢
  generalize i.constant = m, i'.constant = m' at hconstant ⊢
  cases hparent with
  | none => exact hpackage
  | some hp =>
    cases hconstant with
    | none => exact .some (keyOf_twins hp)
    | some hm =>
      obtain ⟨q, hq, hnumber⟩ := hm
      cases hq
      exact .some (.constant hp hnumber)

theorem same_of_encloses {outer outer' : Option ElementKey} {enc enc' : Option ElementId}
    (hk : Option.Rel (T.Keys s.names s'.names) outer outer') (h : s.Encloses outer enc)
    (h' : s'.Encloses outer' enc') : Option.Rel (T.Same s s') enc enc' := by
  cases hk with
  | none =>
    rw [show enc = none from h, show enc' = none from h']
    exact .none
  | some hk =>
    obtain ⟨id, rfl, hd⟩ := h
    obtain ⟨id', rfl, hd'⟩ := h'
    exact .some ⟨_, _, hd, hd', hk⟩

/-- What encloses a precompiled type is decided by look-ups. -/
theorem Alike.same_of_surrounds (h : T.Alike s s') {d : Descriptor} {enc enc' : Option ElementId}
    (hs : s.Surrounds d enc) (hs' : s'.Surrounds d enc') : Option.Rel (T.Same s s') enc enc' := by
  -- What has an element can be found; so the type around it is found in both or in neither.
  have hfound : ∀ {s : Session} {n : Name} {name : String} {id : ElementId}, s.Sound →
      s.names.resolve? n = some name → s.Denotes (.type n) id → s.lookupOutcome name = .ok () := by
    intro s n name id hs hn hd
    have hout := hs.outcome _ _ hd
    rw [Session.outcomeOf, NameTable.text_eq hn] at hout
    exact hout.symm
  cases hs with
  | @type outer n id hp hn hd =>
    have hout := hfound h.left.sound hn hd
    cases hs' with
    | @type outer' n' id' hp' hn' hd' =>
      obtain rfl := Option.some.inj (hp.symm.trans hp')
      exact .some ⟨_, _, hd, hd', .type ⟨_, hn, hn'⟩⟩
    | package without _ _ =>
      obtain ⟨e, he⟩ := without outer hp
      rw [h.lookupOutcome_eq, he] at hout
      cases hout
  | @package n _ without hn hd =>
    cases hs' with
    | @type outer' n' id' hp' hn' hd' =>
      have hout := hfound h.right.sound hn' hd'
      obtain ⟨e, he⟩ := without outer' hp'
      rw [← h.lookupOutcome_eq, he] at hout
      cases hout
    | @package n' _ _ hn' hd' =>
      exact same_of_encloses (packageKey?_twins (.some ⟨_, hn, hn'⟩)) hd hd'

/-! ### The elements of corresponding keys -/

/-- Members of corresponding declarations. -/
theorem Number.member {d d' : DeclId} {m m' : Nat} {x : Member} (h : T.Number d m m')
    (hd : T.decl d d') (hx : w.member? d m = some x) :
    w'.member? d' m' = some (x.restrict T.keep) := by
  obtain ⟨tree, htree, hs⟩ := h
  obtain ⟨_, htree₁, htree'⟩ := T.tree hd
  cases htree.symm.trans htree₁
  rw [World.member?, htree, Option.bind_some] at hx
  rw [World.member?, htree', Option.bind_some, TypeDecl.members_restrict, hs.get, hx, Option.map_some]

theorem Alike.treeElements (h : T.Alike s s') {d d' : DeclId} (hd : T.decl d d')
    (hp : s.index.Primary d) (hp' : s'.index.Primary d') (hden : s.Denotes (s.index.keyOf d) id)
    (hden' : s'.Denotes (s'.index.keyOf d') id') :
    ∃ e e', s.elements.get? id = some e ∧ s'.elements.get? id' = some e' ∧
      T.Elements s s' id id' e e' := by
  obtain ⟨i, tree, e, he⟩ := h.left.sound.isTree hp hden
  obtain ⟨i', tree', e', he'⟩ := h.right.sound.isTree hp' hden'
  refine ⟨e, e', he.get, he'.get, ?_⟩
  -- Everything is read off the two declarations, which correspond.
  obtain ⟨j, j', hj, hj', hinfo⟩ := T.info hd
  obtain rfl := Option.some.inj ((he.info_world h.left.of).symm.trans hj)
  obtain rfl := Option.some.inj ((he'.info_world h.right.of).symm.trans hj')
  obtain ⟨_, htree, htree'⟩ := T.tree hd
  obtain rfl := Option.some.inj ((he.tree_world h.left.of).symm.trans htree)
  obtain rfl := Option.some.inj ((he'.tree_world h.right.of).symm.trans htree')
  have hhead := (DeclIndex.sound_of_tree? T.trees htree).head
  have hkeys := allMemberKeys_twins hd htree
  rw [← h.left.of.index, ← h.right.of.index] at hkeys
  have hask := Session.askable_allMemberKeys h.left.sound hp he.tree_eq (List.nil_append _).symm
  have hask' := Session.askable_allMemberKeys h.right.sound hp' he'.tree_eq (List.nil_append _).symm
  have houter := outerKey?_twins hd hj hj'
  rw [← h.left.of.index, ← h.right.of.index] at houter
  exact
    { kind := by rw [he.kind, he'.kind, TypeDecl.head_restrict]
      simpleName := by
        rw [show e.simpleName = i.simpleName from congrArg Element.simpleName he.bare,
          show e'.simpleName = i'.simpleName from congrArg Element.simpleName he'.bare,
          ← hinfo.simpleName]
        exact h.agree_base hinfo.simple_issued
      qualifiedName := by
        rw [he.qualifiedName, he'.qualifiedName]
        exact hinfo.qualifiedName.le h.left.of.names h.right.of.names
      enclosing := same_of_encloses (Option.Rel.mono houter fun _ _ hk => h.keys hk) he.encloses
        he'.encloses
      older := he.older
      older' := he'.older
      source := by
        rw [he.source, he'.source]
        refine .tree
          { decl := hd
            primary := h.left.of.index ▸ hp
            primary' := h.right.of.index ▸ hp'
            unit := hinfo.unit
            isConstantBody := ?_
            extended := (congrArg DeclHead.extended tree.head_restrict).symm
            implemented := (congrArg DeclHead.implemented tree.head_restrict).symm
            supertypes := hhead.supertypes
            members := hkeys.mono (fun _ hh => hh) fun _ _ hk => h.keys hk
            askable := fun key hkey => (hask key hkey).1
            askable' := fun key hkey => (hask' key hkey).1 }
        show i.constant.isSome = i'.constant.isSome
        have hconstant := hinfo.constant
        generalize i.constant = m, i'.constant = m' at hconstant ⊢
        cases hconstant <;> rfl
      modifiers := by rw [he.modifiers, he'.modifiers, TypeDecl.head_restrict]
      typeParams := by
        rw [show e.typeParams = i.typeParams from congrArg Element.typeParams he.bare,
          show e'.typeParams = i'.typeParams from congrArg Element.typeParams he'.bare,
          ← hinfo.typeParams]
        exact List.forall₂_same.2 fun n hn => h.agree_base (hinfo.params_issued n hn)
      span := by
        rw [show e.span = some i.nameSpan from congrArg Element.span he.bare,
          show e'.span = some i'.nameSpan from congrArg Element.span he'.bare, hinfo.nameSpan] }

/-- The answers that elements keep are no part of it. -/
theorem Elements.of_bare {b b' : Element} (hb : e.bare = b) (hb' : e'.bare = b')
    (hold : ∀ enc ∈ e.enclosing, enc < id) (hold' : ∀ enc ∈ e'.enclosing, enc < id')
    (h : (∀ enc ∈ b.enclosing, enc < id) → (∀ enc ∈ b'.enclosing, enc < id') →
      T.Elements s s' id id' b b') : T.Elements s s' id id' e e' := by
  subst hb hb'
  have h := h hold hold'
  exact ⟨h.kind, h.simpleName, h.qualifiedName, h.enclosing, h.older, h.older', h.source,
    h.modifiers, h.typeParams, h.span⟩

/-- Names with the same texts agree, one by one. -/
theorem agree_of_texts {t t' : NameTable} {ns ns' : List Name} {texts : List String}
    (h : List.Forall₂ (fun n text => t.resolve? n = some text) ns texts)
    (h' : List.Forall₂ (fun n text => t'.resolve? n = some text) ns' texts) :
    List.Forall₂ (t.Agree t') ns ns' := by
  induction h generalizing ns' with
  | nil =>
    cases h'
    exact .nil
  | cons hn _ ih =>
    cases h' with
    | cons hn' hrest => exact .cons ⟨_, hn, hn'⟩ (ih hrest)

theorem Alike.describedElements (h : T.Alike s s') {n n' : Name} (hn : s.names.Agree s'.names n n')
    (hf : s.index.find? n = none) (hf' : s'.index.find? n' = none) (hden : s.Denotes (.type n) id)
    (hden' : s'.Denotes (.type n') id') :
    ∃ e e', s.elements.get? id = some e ∧ s'.elements.get? id' = some e' ∧
      T.Elements s s' id id' e e' := by
  obtain ⟨d, e, he⟩ := h.left.sound.isDescribed hf hden
  obtain ⟨d', e', he'⟩ := h.right.sound.isDescribed hf' hden'
  refine ⟨e, e', he.get, he'.get, ?_⟩
  -- Both providers give the same description.
  obtain rfl : d = d' := by
    have hd := he.answer
    rw [h.left.of.provider, T.provider, hn.text, ← h.right.of.provider] at hd
    exact Option.some.inj (hd.symm.trans he'.answer)
  obtain ⟨simple, params, hsimple, hparams, hb⟩ := he.bare
  obtain ⟨simple', params', hsimple', hparams', hb'⟩ := he'.bare
  exact
    { kind := (congrArg Element.kind hb).trans (congrArg Element.kind hb').symm
      simpleName := by
        rw [show e.simpleName = simple from congrArg Element.simpleName hb,
          show e'.simpleName = simple' from congrArg Element.simpleName hb']
        exact ⟨_, hsimple, hsimple'⟩
      qualifiedName := by
        rw [he.qualifiedName, he'.qualifiedName]
        exact .named hn
      enclosing := h.same_of_surrounds he.surrounds he'.surrounds
      older := he.older
      older' := he'.older
      source := by
        rw [he.source, he'.source]
        exact .described d
      modifiers := by rw [he.modifiers, he'.modifiers]
      typeParams := by
        rw [show e.typeParams = params from congrArg Element.typeParams hb,
          show e'.typeParams = params' from congrArg Element.typeParams hb']
        exact agree_of_texts hparams hparams'
      span := (congrArg Element.span hb).trans (congrArg Element.span hb').symm }

theorem Alike.packageElements (h : T.Alike s s') {n n' : Name} (hn : s.names.Agree s'.names n n')
    (hden : s.Denotes (.package n) id) (hden' : s'.Denotes (.package n') id') :
    ∃ e e', s.elements.get? id = some e ∧ s'.elements.get? id' = some e' ∧
      T.Elements s s' id id' e e' := by
  obtain ⟨e, he, hdesc, hold⟩ := h.left.sound.element _ _ hden
  obtain ⟨e', he', hdesc', hold'⟩ := h.right.sound.element _ _ hden'
  refine ⟨e, e', he, he', ?_⟩
  obtain ⟨simple, hsimple, hb⟩ := hdesc.package_inv
  obtain ⟨simple', hsimple', hb'⟩ := hdesc'.package_inv
  rw [hn.text] at hsimple
  refine .of_bare hb hb' hold hold' fun older older' => ?_
  exact
    { kind := rfl
      simpleName := ⟨_, hsimple, hsimple'⟩
      qualifiedName := .named hn
      enclosing := .none
      older := nofun
      older' := nofun
      source := .package
      modifiers := rfl
      typeParams := .nil
      span := rfl }

theorem Alike.fieldElements (h : T.Alike s s') {d d' : DeclId} {m m' v : Nat} (hd : T.decl d d')
    (hm : T.Number d m m') (hden : s.Denotes (.field d m v) id)
    (hden' : s'.Denotes (.field d' m' v) id') :
    ∃ e e', s.elements.get? id = some e ∧ s'.elements.get? id' = some e' ∧
      T.Elements s s' id id' e e' := by
  obtain ⟨e, he, hdesc, hold⟩ := h.left.sound.element _ _ hden
  obtain ⟨e', he', hdesc', hold'⟩ := h.right.sound.element _ _ hden'
  refine ⟨e, e', he, he', ?_⟩
  -- Both stand for the same variable of one field.
  obtain ⟨f, x, owner, hf, hx, howner, hb⟩ := hdesc.field_inv
  obtain ⟨f', x', owner', hf', hx', howner', hb'⟩ := hdesc'.field_inv
  rw [h.left.of.member?] at hf
  rw [h.right.of.member?, hm.member hd hf] at hf'
  cases hf'
  obtain rfl := Option.some.inj (hx.symm.trans hx')
  have hsound : f.Sound T.base := by
    have hmember := World.member_sound T.trees hf
    rw [Member.Sound] at hmember
    exact hmember
  refine .of_bare hb hb' hold hold' fun older older' => ?_
  exact
    { kind := rfl
      simpleName := h.agree_base (hsound.declarators x (List.mem_of_getElem? hx)).1
      qualifiedName := .notApplicable
      enclosing := .some ⟨_, _, howner, howner', h.keyOf hd⟩
      older := older
      older' := older'
      source := .field (hsound.type.withDimensions x.span x.dims)
      modifiers := rfl
      typeParams := .nil
      span := rfl }

theorem Alike.constantElements (h : T.Alike s s') {d d' : DeclId} {m m' : Nat} (hd : T.decl d d')
    (hm : T.Number d m m') (hden : s.Denotes (.constant d m) id)
    (hden' : s'.Denotes (.constant d' m') id') :
    ∃ e e', s.elements.get? id = some e ∧ s'.elements.get? id' = some e' ∧
      T.Elements s s' id id' e e' := by
  obtain ⟨e, he, hdesc, hold⟩ := h.left.sound.element _ _ hden
  obtain ⟨e', he', hdesc', hold'⟩ := h.right.sound.element _ _ hden'
  refine ⟨e, e', he, he', ?_⟩
  have hp := (h.left.sound.askable _ _ hden).1
  have hp' := (h.right.sound.askable _ _ hden').1
  obtain ⟨n, body, sp, owner, hc, howner, hb⟩ := hdesc.constant_inv
  obtain ⟨n', body', sp', owner', hc', howner', hb'⟩ := hdesc'.constant_inv
  rw [h.left.of.member?] at hc
  rw [h.right.of.member?, hm.member hd hc] at hc'
  -- A constant has its name and place whether or not its body has lost fields.
  have hn : T.base.Issued n := (World.member_sound T.trees hc).constant_issued
  obtain ⟨rfl, rfl⟩ : n = n' ∧ sp = sp' := by
    cases body <;> rw [Member.restrict] at hc' <;> cases hc' <;> exact ⟨rfl, rfl⟩
  obtain ⟨tree, htree, hs⟩ := hm
  have hchild := T.child hd htree hs
  rw [← h.left.of.index, ← h.right.of.index] at hchild
  have hparent : ∀ q ∈ some d, s.index.Primary q := by
    rintro _ ⟨⟩
    exact hp
  have hparent' : ∀ q ∈ some d', s'.index.Primary q := by
    rintro _ ⟨⟩
    exact hp'
  have hbody : Option.Rel (T.Declares s s') (s.index.child? d m) (s'.index.child? d' m') := by
    have hc := h.left.sound.index.children d m
    have hc' := h.right.sound.index.children d' m'
    generalize s.index.child? d m = c, s'.index.child? d' m' = c' at hchild hc hc' ⊢
    cases hchild with
    | none => exact .none
    | some hcd =>
      exact .some ⟨hcd, (Session.askable_child h.left.sound hparent (hc _ rfl)).1,
        (Session.askable_child h.right.sound hparent' (hc' _ rfl)).1⟩
  refine .of_bare hb hb' hold hold' fun older older' => ?_
  exact
    { kind := rfl
      simpleName := h.agree_base hn
      qualifiedName := .notApplicable
      enclosing := .some ⟨_, _, howner, howner', h.keyOf hd⟩
      older := older
      older' := older'
      source := .constant hbody
      modifiers := rfl
      typeParams := .nil
      span := rfl }

/-- **What corresponding elements have in common.** -/
theorem Alike.elements (h : T.Alike s s') (hid : T.Same s s' id id') :
    ∃ e e', s.elements.get? id = some e ∧ s'.elements.get? id' = some e' ∧
      T.Elements s s' id id' e e' := by
  obtain ⟨key, key', hden, hden', hk⟩ := hid
  cases hk with
  | package hn => exact h.packageElements hn hden hden'
  | @type n n' hn =>
    have hagree := hn
    obtain ⟨name, hname, hname'⟩ := hagree
    -- A type is declared in both batches or in neither; then the providers decide.
    have hfind := T.find name
    rw [← h.left.of.find? T.left hname, ← h.right.of.find? T.right hname'] at hfind
    cases hf : s.index.find? n with
    | none =>
      cases hf' : s'.index.find? n' with
      | none => exact h.describedElements hn hf hf' hden hden'
      | some d' => rw [hf, hf'] at hfind; cases hfind
    | some d =>
      cases hf' : s'.index.find? n' with
      | none => rw [hf, hf'] at hfind; cases hfind
      | some d' =>
        rw [hf, hf'] at hfind
        cases hfind with
        | some hd =>
          obtain ⟨hp, hkey, -⟩ := h.left.sound.index.primary_of_find? hf
          obtain ⟨hp', hkey', -⟩ := h.right.sound.index.primary_of_find? hf'
          exact h.treeElements hd hp hp' (hkey ▸ hden) (hkey' ▸ hden')
  | @unnamed d d' hd =>
    obtain ⟨hp, hkey⟩ := h.left.sound.askable _ _ hden
    obtain ⟨hp', hkey'⟩ := h.right.sound.askable _ _ hden'
    exact h.treeElements hd hp hp' (hkey ▸ hden) (hkey' ▸ hden')
  | field hd hm => exact h.fieldElements hd hm hden hden'
  | constant hd hm => exact h.constantElements hd hm hden hden'

end Elements

end Twins

end JavaAbi
