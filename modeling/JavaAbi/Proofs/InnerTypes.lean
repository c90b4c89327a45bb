import JavaAbi.Proofs.Symbols

namespace JavaAbi

/-!
# Own types of elements

The own type of a type has its parameters as arguments. That of an inner class is inside the own type of
the type around it, if this has arguments or is inside a type itself; so the types of an inner class
are inside another type exactly if one of the types around it is generic, with inner classes only in
between. An enum constant has the own type of its enum.

* `Session.InnerTo`, `Session.InnerOfGeneric` — inner classes, and those of generic types;
* `Session.IsOwnType` — the own type of a type or of a constant;
* `IsOwnType.unique`, `IsOwnType.grow` — there is one, and it stays the same;
* `IsOwnType.enclosing` — when it is inside another type.
-/

namespace Element

variable {e e' : Element}

/-! ### What does not depend on the answers that are kept -/

theorem kind_of_bare (h : e'.bare = e.bare) : e'.kind = e.kind :=
  show e'.bare.kind = e.bare.kind by rw [h]

theorem enclosing_of_bare (h : e'.bare = e.bare) : e'.enclosing = e.enclosing :=
  show e'.bare.enclosing = e.bare.enclosing by rw [h]

theorem modifiers_of_bare (h : e'.bare = e.bare) : e'.modifiers = e.modifiers :=
  show e'.bare.modifiers = e.bare.modifiers by rw [h]

theorem typeParams_of_bare (h : e'.bare = e.bare) : e'.typeParams = e.typeParams :=
  show e'.bare.typeParams = e.bare.typeParams by rw [h]

end Element

namespace Session

variable {s t : Session} {id outer : ElementId} {e o : Element} {type type' : ModelType}

/-- An inner class of an element: a class that is not static, and right inside a class, an enum or a
    record. -/
structure InnerTo (s : Session) (e : Element) (outer : ElementId) : Prop where
  kind : e.kind = .classType
  inner : e.hasModifier .static = false
  enclosing : e.enclosing = some outer
  around : ∃ o, s.elements.get? outer = some o ∧
    (o.kind = .classType ∨ o.kind = .enumType ∨ o.kind = .recordType)

/-- An inner class of a type that is generic, or that is such an inner class itself. -/
inductive InnerOfGeneric (s : Session) : ElementId → Prop
  | generic {id outer : ElementId} {e o : Element} (get : s.elements.get? id = some e)
      (inner : s.InnerTo e outer) (getOuter : s.elements.get? outer = some o)
      (generic : o.typeParams ≠ []) : InnerOfGeneric s id
  | nested {id outer : ElementId} {e : Element} (get : s.elements.get? id = some e)
      (inner : s.InnerTo e outer) (around : InnerOfGeneric s outer) : InnerOfGeneric s id

/-- A type with its parameters as arguments, inside another type. -/
def ownTypeIn (s : Session) (id : ElementId) (e : Element) (enclosing : ModelType) : ModelType :=
  .declared s.token (.known id) (e.typeParams.map fun n => .typeVariable n id) enclosing

/-- **The own type of a type or of an enum constant**, by way of those around it. -/
inductive IsOwnType (s : Session) : ElementId → ModelType → Prop
  | apart {id : ElementId} {e : Element} (get : s.elements.get? id = some e)
      (isType : e.kind.isType = true) (apart : ∀ outer, ¬s.InnerTo e outer) :
      IsOwnType s id (s.ownTypeIn id e .absent)
  | inner {id outer : ElementId} {e : Element} {around : ModelType}
      (get : s.elements.get? id = some e) (isType : e.kind.isType = true)
      (inner : s.InnerTo e outer) (own : IsOwnType s outer around) :
      IsOwnType s id (s.ownTypeIn id e (if around.isParameterized then around else .absent))
  | constant {id owner : ElementId} {e : Element} {type : ModelType}
      (get : s.elements.get? id = some e) (kind : e.kind = .enumConstant)
      (enclosing : e.enclosing = some owner) (own : IsOwnType s owner type) : IsOwnType s id type

/-- The type around the types of an element, by way of own types that a later session knows. -/
inductive EnclosedBy (s t : Session) (e : Element) : ModelType → Prop
  | apart (apart : ∀ outer, ¬s.InnerTo e outer) : EnclosedBy s t e .absent
  | inner {outer : ElementId} {around : ModelType} (inner : s.InnerTo e outer)
      (own : t.IsOwnType outer around) :
      EnclosedBy s t e (if around.isParameterized then around else .absent)

theorem InnerTo.unique {outer' : ElementId} (h : s.InnerTo e outer) (h' : s.InnerTo e outer') :
    outer = outer' :=
  Option.some.inj (h.enclosing.symm.trans h'.enclosing)

/-! ### One own type -/

/-- **An element has one own type.** -/
theorem IsOwnType.unique (h : s.IsOwnType id type) (h' : s.IsOwnType id type') : type = type' := by
  induction h generalizing type' with
  | apart get isType apart =>
    cases h' with
    -- The cases exclude each other: a constant is no type, and a type is an inner one or not.
    | apart get' => cases get.symm.trans get'; rfl
    | inner get' _ inner => cases get.symm.trans get'; exact absurd inner (apart _)
    | constant get' kind =>
      cases get.symm.trans get'
      rw [kind] at isType
      cases isType
  | inner get isType inner _ ih =>
    cases h' with
    | apart get' _ apart => cases get.symm.trans get'; exact absurd inner (apart _)
    | inner get' _ inner' own =>
      cases get.symm.trans get'
      cases inner.unique inner'
      rw [ih own]
    | constant get' kind =>
      cases get.symm.trans get'
      rw [kind] at isType
      cases isType
  | constant get kind enclosing _ ih =>
    cases h' with
    | apart get' isType | inner get' isType =>
      cases get.symm.trans get'
      rw [kind] at isType
      cases isType
    | constant get' _ enclosing' own =>
      cases get.symm.trans get'
      cases enclosing.symm.trans enclosing'
      exact ih own

/-! ### Enclosing types -/

/-- An inner class is one of a generic type if the type around it is generic or such a class. -/
theorem InnerTo.ofGeneric_iff (h : s.InnerTo e outer) (he : s.elements.get? id = some e)
    (ho : s.elements.get? outer = some o) :
    s.InnerOfGeneric id ↔ o.typeParams ≠ [] ∨ s.InnerOfGeneric outer := by
  constructor
  · intro hid
    cases hid with
    | generic get inner getOuter generic =>
      cases he.symm.trans get
      cases h.unique inner
      cases ho.symm.trans getOuter
      exact .inl generic
    | nested get inner around =>
      cases he.symm.trans get
      cases h.unique inner
      exact .inr around
  · rintro (hgeneric | hinner)
    · exact .generic he h ho hgeneric
    · exact .nested he h hinner

theorem not_innerOfGeneric (he : s.elements.get? id = some e) (h : ∀ outer, ¬s.InnerTo e outer) :
    ¬s.InnerOfGeneric id := by
  intro hid
  cases hid with
  | generic get inner | nested get inner =>
    cases he.symm.trans get
    exact h _ inner

/-- What is parameterized is a declared type. -/
theorem isDeclared_ite (around : ModelType) :
    (if around.isParameterized then around else .absent).isDeclared = around.isParameterized := by
  cases h : around.isParameterized with
  | false => rfl
  | true =>
    cases around with
    | declared => rfl
    | _ => cases h

theorem isParameterized_ownTypeIn (enclosing : ModelType) :
    (s.ownTypeIn id e enclosing).isParameterized = true ↔
      e.typeParams ≠ [] ∨ enclosing.isDeclared = true := by
  rw [ownTypeIn, ModelType.isParameterized, Bool.or_eq_true, Bool.not_eq_true',
    Bool.eq_false_iff, Ne, List.isEmpty_iff, List.map_eq_nil_iff]

/-- **The own type of a type is parameterized** if it is generic or an inner class of a generic
    type. -/
theorem IsOwnType.isParameterized_iff (h : s.IsOwnType id type) (he : s.elements.get? id = some e)
    (ht : e.kind.isType = true) :
    type.isParameterized = true ↔ e.typeParams ≠ [] ∨ s.InnerOfGeneric id := by
  induction h generalizing e with
  | apart get isType apart =>
    cases he.symm.trans get
    have hnot := not_innerOfGeneric he apart
    rw [isParameterized_ownTypeIn]
    exact or_congr_right ⟨nofun, fun h => absurd h hnot⟩
  | inner get isType inner own ih =>
    cases he.symm.trans get
    obtain ⟨o, ho, hkind⟩ := inner.around
    have hisType : o.kind.isType = true := by
      rcases hkind with hkind | hkind | hkind <;> rw [hkind] <;> rfl
    rw [isParameterized_ownTypeIn, isDeclared_ite, ih ho hisType, inner.ofGeneric_iff he ho]
  | constant get kind =>
    cases he.symm.trans get
    rw [kind] at ht
    cases ht

/-- **When the own type of a type is inside another.** For an inner class of a generic type, this is
    the own type of the type around it; otherwise it is inside none. -/
theorem IsOwnType.enclosing (h : s.IsOwnType id type) (he : s.elements.get? id = some e)
    (ht : e.kind.isType = true) :
    ∃ enclosing, type = s.ownTypeIn id e enclosing ∧
      (s.InnerOfGeneric id → ∃ outer, e.enclosing = some outer ∧ s.IsOwnType outer enclosing) ∧
      (¬s.InnerOfGeneric id → enclosing = .absent) := by
  cases h with
  | apart get isType apart =>
    cases he.symm.trans get
    exact ⟨_, rfl, fun h => absurd h (not_innerOfGeneric he apart), fun _ => rfl⟩
  | @inner _ outer _ around get isType inner own =>
    cases he.symm.trans get
    obtain ⟨o, ho, hkind⟩ := inner.around
    have hisType : o.kind.isType = true := by
      rcases hkind with hkind | hkind | hkind <;> rw [hkind] <;> rfl
    have hiff := (own.isParameterized_iff ho hisType).trans (inner.ofGeneric_iff he ho).symm
    refine ⟨_, rfl, fun h => ⟨outer, inner.enclosing, ?_⟩, fun h => ?_⟩
    · rw [if_pos (hiff.2 h)]
      exact own
    · rw [if_neg (mt hiff.1 h)]
  | constant get kind =>
    cases he.symm.trans get
    rw [kind] at ht
    cases ht

/-! ### Later sessions -/

section Grow

variable (hs : s.Sound) (htoken : t.token = s.token)
  (hg : ∀ id e, s.elements.get? id = some e →
    ∃ e', t.elements.get? id = some e' ∧ e'.bare = e.bare)

include hs hg

/-- The answers that elements keep do not matter for which classes are inner ones. -/
theorem InnerTo.grow_iff {e' : Element} (he : s.elements.get? id = some e)
    (hb : e'.bare = e.bare) : t.InnerTo e' outer ↔ s.InnerTo e outer := by
  have hstatic : e'.hasModifier .static = e.hasModifier .static := by
    rw [Element.hasModifier, Element.hasModifier, Element.modifiers_of_bare hb]
  have hkind := Element.kind_of_bare hb
  have henc := Element.enclosing_of_bare hb
  obtain ⟨key, hden⟩ := hs.covered id (Array.getElem?_eq_some_iff.1 he).1
  obtain ⟨e₀, he₀, -, hold⟩ := hs.element key id hden
  cases he.symm.trans he₀
  constructor
  · rintro ⟨hk, hst, hen, o', ho', hko⟩
    rw [henc] at hen
    have hlt := Nat.lt_trans (hold outer hen) (Array.getElem?_eq_some_iff.1 he).1
    obtain ⟨o, ho⟩ : ∃ o, s.elements.get? outer = some o := ⟨_, Array.getElem?_eq_getElem hlt⟩
    obtain ⟨o'', ho'', hbo⟩ := hg outer o ho
    cases ho'.symm.trans ho''
    exact ⟨hkind ▸ hk, hstatic ▸ hst, hen, o, ho, Element.kind_of_bare hbo ▸ hko⟩
  · rintro ⟨hk, hst, hen, o, ho, hko⟩
    obtain ⟨o', ho', hbo⟩ := hg outer o ho
    exact ⟨hkind ▸ hk, hstatic ▸ hst, henc ▸ hen, o', ho', (Element.kind_of_bare hbo).symm ▸ hko⟩

include htoken

/-- A type that is made with what is around it is the own type. -/
theorem EnclosedBy.isOwnType {around : ModelType} (h : s.EnclosedBy t e around)
    (he : s.elements.get? id = some e) (ht : e.kind.isType = true) :
    t.IsOwnType id (s.ownTypeIn id e around) := by
  obtain ⟨e', he', hb⟩ := hg _ _ he
  have ht' : e'.kind.isType = true := by rwa [Element.kind_of_bare hb]
  have hsame : s.ownTypeIn id e around = t.ownTypeIn id e' around := by
    rw [ownTypeIn, ownTypeIn, htoken, Element.typeParams_of_bare hb]
  rw [hsame]
  cases h with
  | apart apart =>
    exact .apart he' ht' fun outer h => apart outer ((InnerTo.grow_iff hs hg he hb).1 h)
  | inner inner own => exact .inner he' ht' ((InnerTo.grow_iff hs hg he hb).2 inner) own

/-- **The own type of an element stays the same.** -/
theorem IsOwnType.grow (h : s.IsOwnType id type) : t.IsOwnType id type := by
  induction h with
  | apart get isType apart => exact (EnclosedBy.apart apart).isOwnType hs htoken hg get isType
  | inner get isType inner _ ih =>
    exact (EnclosedBy.inner inner ih).isOwnType hs htoken hg get isType
  | constant get kind enclosing _ ih =>
    obtain ⟨e', get', hb⟩ := hg _ _ get
    exact .constant get' ((Element.kind_of_bare hb).trans kind)
      ((Element.enclosing_of_bare hb).trans enclosing) ih

end Grow

end Session

end JavaAbi
