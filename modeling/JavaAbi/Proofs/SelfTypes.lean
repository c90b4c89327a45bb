import JavaAbi.Proofs.ClientAnswers
import JavaAbi.Proofs.WellFormedTrees

namespace JavaAbi

/-!
# Own types point back

What clients are told of own types. The own type of a type is always told, and it stays the same: it is
the type of the very element, with the type parameters of the element as arguments, and inside the own
type of the type around it if the element is an inner class of a generic type. An enum constant has
the own type of its enum.

* `TypeDecl.WellFormed.constant_follow` — constants are members of enums;
* `Session.IsOwnType.of_grow` — the own type of an element does not depend on later elements;
* `Client.ask_isOwnType` — it is told whenever it is asked for;
* `Client.own_types` — all that clients are told of own types.
-/

open Course Stage

variable {w : World} {s : Session} {id : ElementId} {e : Element} {type : ModelType}

/-! ### Constants -/

section Constants

variable {t : NameTable} {d tree : TypeDecl} {m : Member} {n : Name} {body : Option TypeDecl}
  {place : Span}

/-- The members of a declaration: constants, those only of enums, and others. -/
theorem TypeDecl.WellFormed.mem (h : d.WellFormed t) (hm : m ∈ d.members) :
    (∃ f, m = .field f) ∨ (d.head.kind = .enumType ∧ m.WellFormedConstant t) ∨
      m.WellFormed t := by
  cases h with
  | mk _ order _ _ enum constant other =>
    rw [TypeDecl.members, order] at hm
    rcases List.mem_append.1 hm with hm | hm
    · rcases List.mem_append.1 hm with hm | hm
      · obtain ⟨f, -, rfl⟩ := List.mem_map.1 hm
        exact .inl ⟨f, rfl⟩
      · exact .inr (.inl ⟨enum (List.ne_nil_of_mem hm), constant m hm⟩)
    · exact .inr (.inr (other m hm))

/-- **Constants are members of enums**, wherever they are declared. The body of a constant is no
    declaration with a name, and it has member types and fields only. -/
theorem TypeDecl.WellFormed.constant_follow {path : List Nat}
    (h : d.WellFormed t ∨ ∀ m ∈ d.members, m.WellFormed t) (hp : d.follow? path = some tree)
    (hm : .constant n body place ∈ tree.members) : tree.head.kind = .enumType := by
  induction path generalizing d with
  | nil =>
    cases hp
    rcases h with h | h
    · rcases h.mem hm with ⟨f, hf⟩ | ⟨hkind, -⟩ | hother
      · cases hf
      · exact hkind
      · cases hother
    · cases h _ hm
  | cons i rest ih =>
    rw [TypeDecl.follow?] at hp
    split at hp
    · -- Further inside: a member type, or the body of a constant.
      rename_i child hchild
      have hmem := List.mem_of_getElem? hchild
      have hformed : (Member.type child).WellFormed t := by
        rcases h with h | h
        · rcases h.mem hmem with ⟨f, hf⟩ | ⟨-, hconstant⟩ | hother
          · cases hf
          · cases hconstant
          · exact hother
        · exact h _ hmem
      cases hformed with
      | type decl => exact ih (.inl decl) hp
    · rename_i name inner sp hchild
      have hmem := List.mem_of_getElem? hchild
      have hformed : (Member.constant name (some inner) sp).WellFormedConstant t := by
        rcases h with h | h
        · rcases h.mem hmem with ⟨f, hf⟩ | ⟨-, hconstant⟩ | hother
          · cases hf
          · exact hconstant
          · cases hother
        · cases h _ hmem
      cases hformed with
      | @withBody _ head members _ _ _ inside => exact ih (d := .mk head members) (.inr inside) hp
    · cases hp

/-- The declaration of a constant is an enum. -/
theorem constant_of_batch {files : Batch} {x : DeclIndex} {id : DeclId}
    (htree : x.tree? (parseBatch files).1 id = some tree)
    (hm : .constant n body place ∈ tree.members) : tree.head.kind = .enumType := by
  obtain ⟨i, -, hat⟩ := Option.bind_eq_some_iff.1 htree
  cases hp : i.path with
  | nil => rw [hp] at hat; cases hat
  | cons k rest =>
    rw [hp] at hat
    obtain ⟨u, hu, htypes⟩ := Option.bind_eq_some_iff.1 hat
    obtain ⟨top, htop, hfollow⟩ := Option.bind_eq_some_iff.1 htypes
    obtain ⟨source, names, rfl⟩ := parseFrom_units hu
    have hformed := (parse_wellFormed _ source names).types top (List.mem_of_getElem? htop)
    exact TypeDecl.WellFormed.constant_follow (.inl hformed) hfollow hm

end Constants

/-! ### Own types in a session -/

namespace Session

/-- What an element was made from, if it is no package and no field: it has an own type. -/
theorem IsOwnType.kind (h : s.IsOwnType id type) : ∃ e, s.elements.get? id = some e ∧
    e.kind ≠ .package ∧ e.kind ≠ .field := by
  cases h with
  | apart get isType | inner get isType =>
    refine ⟨_, get, fun hkind => ?_, fun hkind => ?_⟩ <;>
      rw [hkind] at isType <;> cases isType
  | constant get kind =>
    refine ⟨_, get, fun hkind => ?_, fun hkind => ?_⟩ <;> cases kind.symm.trans hkind

/-- **The own type of an element does not depend on later elements.** -/
theorem IsOwnType.of_grow {t : Session} (hs : s.Sound) (hg : s.Learns w t)
    (he : s.elements.get? id = some e) (h : t.IsOwnType id type) : s.IsOwnType id type := by
  have htoken : t.token = s.token := congrArg SessionBase.token hg.base
  induction h generalizing e with
  | apart get isType apart =>
    obtain ⟨e', he', hb⟩ := hg.elements _ e he
    cases he'.symm.trans get
    rw [ownTypeIn, htoken, Element.typeParams_of_bare hb]
    exact .apart he (Element.kind_of_bare hb ▸ isType) fun outer h =>
      apart outer ((InnerTo.grow_iff hs hg.elements he hb).2 h)
  | inner get isType inner _ ih =>
    obtain ⟨e', he', hb⟩ := hg.elements _ e he
    cases he'.symm.trans get
    rw [InnerTo.grow_iff hs hg.elements he hb] at inner
    obtain ⟨o, ho, -⟩ := inner.around
    rw [ownTypeIn, htoken, Element.typeParams_of_bare hb]
    exact .inner he (Element.kind_of_bare hb ▸ isType) inner (ih ho)
  | constant get kind enclosing _ ih =>
    obtain ⟨e', he', hb⟩ := hg.elements _ e he
    cases he'.symm.trans get
    rw [Element.kind_of_bare hb] at kind
    rw [Element.enclosing_of_bare hb] at enclosing
    obtain ⟨-, symbol, hshow⟩ := hs.enclosing_shows he _ enclosing
    obtain ⟨o, ho⟩ := hshow.get? hs
    exact .constant he kind enclosing (ih ho)

end Session

namespace Session

variable {symbol : Symbol}

/-- The symbol of the element of a type is one of a type. -/
theorem Shows.isType (hs : s.Resolved w) (h : s.Shows symbol id)
    (he : s.elements.get? id = some e) (ht : e.kind.isType = true) : symbol.IsType := by
  by_contra hnot
  obtain ⟨hdecl, hdescriptor⟩ := Symbol.undeclared w hnot
  cases h.madeFrom hs he with
  | tree decl => cases hdecl.symm.trans decl
  | described _ descriptor => cases hdescriptor.symm.trans descriptor
  | other _ kind => cases kind.symm.trans ht

/-- The enum around an enum constant. -/
theorem Sound.enum_of_constant {files : Batch} (hs : s.Sound) (hunits : s.units = (parseBatch files).1)
    (he : s.elements.get? id = some e) (hkind : e.kind = .enumConstant) :
    ∃ owner o, e.enclosing = some owner ∧ s.elements.get? owner = some o ∧ o.kind = .enumType := by
  obtain ⟨key, hden⟩ := hs.covered id (Array.getElem?_eq_some_iff.1 he).1
  obtain ⟨e', he', hdesc, -⟩ := hs.element key id hden
  cases he.symm.trans he'
  replace hkind : e.bare.kind = .enumConstant := hkind
  have henc : e.enclosing = e.bare.enclosing := rfl
  rw [henc]
  generalize e.bare = b at hdesc hkind
  cases hdesc with
  -- Only an element that stands for a constant has this kind.
  | @constant d m n body sp owner member owned =>
    obtain ⟨tree, htree, hmember⟩ := Option.bind_eq_some_iff.1 member
    have hp := (hs.askable _ _ hden).1
    obtain ⟨i, tree', o, ho⟩ := hs.isTree hp owned
    cases htree.symm.trans ho.tree_eq
    rw [hunits] at htree
    refine ⟨owner, o, rfl, ho.get, ho.kind.trans ?_⟩
    rw [constant_of_batch htree (List.mem_of_getElem? hmember)]
    rfl
  | @tree d i tree =>
    replace hkind : ElementKind.ofDecl tree.head.kind = .enumConstant := hkind
    cases hdecl : tree.head.kind <;> rw [hdecl] at hkind <;> cases hkind
  | @described _ _ d =>
    replace hkind : ElementKind.ofDecl d.kind = .enumConstant := hkind
    cases hdecl : d.kind <;> rw [hdecl] at hkind <;> cases hkind
  | package | field => cases hkind

end Session

/-! ### Clients -/

namespace Client

variable {c : Client}

/-- **The own type of an element is told whenever it is asked for**, and it is a type of this very
    element if the element is a type. -/
theorem ask_isOwnType (h : c.Fits w) (hown : c.session.IsOwnType id type) (more : List Question) :
    let d : Client := ((c.askAll more).ask (.ownType id)).2
    ((c.askAll more).ask (.ownType id)).1 = .types [type] ∧
      ∀ e enclosing, c.session.elements.get? id = some e → e.kind.isType = true →
        type = c.session.ownTypeIn id e enclosing → d.Names type id := by
  intro d
  obtain ⟨e, he, hpackage, hfield⟩ := hown.kind
  obtain ⟨h', hg⟩ := fits_askAll h more
  obtain ⟨h'', hg'⟩ := fits_ask h' (.ownType id)
  have hs := h.idle.resolved.sound
  have hu := h''.idle.resolved
  obtain ⟨symbol, hshow⟩ := hs.exists_shows he
  have hshow' := hshow.grow hs hg.toKeeps
  have hshow'' := hshow'.grow h'.idle.resolved.sound hg'.toKeeps
  obtain ⟨told, hreply, htold⟩ := ask_ownType h' hshow'
  have hlearns := hg.trans hg'
  obtain ⟨e', he', hb⟩ := hlearns.elements id e he
  have hlater := htold.isOwnType hu.sound hshow'' he'
    (by rwa [Element.kind_of_bare hb]) (by rwa [Element.kind_of_bare hb])
  -- What is told is an own type for the later session, and there is only one.
  obtain rfl := hlater.unique
    (hown.grow hs (congrArg SessionBase.token hlearns.base) hlearns.elements)
  refine ⟨hreply, fun e₀ enclosing he₀ ht heq => ?_⟩
  cases he.symm.trans he₀
  have hlevel := Session.Shows.isType hu hshow'' he' (by rwa [Element.kind_of_bare hb])
  refine names_of_finds h'' hshow'' htold.holds ?_
  rw [heq, Session.ownTypeIn, Session.view, Session.viewTarget,
    Session.symbolAt_eq hu ⟨hshow'', hlevel⟩]
  exact Inquiry.finds_pure _

/-- Types and constants have an own type. -/
theorem exists_isOwnType (h : c.Fits w) (he : c.session.elements.get? id = some e)
    (hpackage : e.kind ≠ .package) (hfield : e.kind ≠ .field) :
    ∃ type, c.session.IsOwnType id type := by
  have hs := h.idle.resolved.sound
  obtain ⟨symbol, hshow⟩ := hs.exists_shows he
  obtain ⟨type, -, htype⟩ := ask_ownType h hshow
  obtain ⟨h', hg⟩ := fits_ask h (.ownType id)
  obtain ⟨e', he', hb⟩ := hg.elements id e he
  have hown := htype.isOwnType h'.idle.resolved.sound (hshow.grow hs hg.toKeeps) he'
    (by rwa [Element.kind_of_bare hb]) (by rwa [Element.kind_of_bare hb])
  exact ⟨type, hown.of_grow hs hg he⟩

variable (token : SessionToken) (files : Batch) (provider : Provider) (config : ModelConfig)

/-- **Own types point back.** After any questions, let `id` be the element of a type. Whatever is asked
    before it again, the reply to the question for its own type is the same: a resolved type, of which
    a client is told that the element is `id`, with the type parameters of the element as arguments.
    If it is an inner class of a generic type, it is inside the own type of the element around it;
    otherwise it is inside no type. The own type of an enum constant is that of its enum. -/
theorem own_types (questions : List Question) :
    let c : Client := (start token files provider config).askAll questions
    let s : Session := c.session
    (∀ id e, s.elements.get? id = some e → e.kind.isType = true →
      ∃ enclosing,
        let type : ModelType := .declared token (.known id)
          (e.typeParams.map fun n => .typeVariable n id) enclosing
        (∀ more, ((c.askAll more).ask (.ownType id)).1 = .types [type] ∧
          ((c.askAll more).ask (.ownType id)).2.Names type id) ∧
        (s.InnerOfGeneric id → ∃ outer, e.enclosing = some outer ∧
          ∀ more, ((c.askAll more).ask (.ownType outer)).1 = .types [enclosing]) ∧
        (¬s.InnerOfGeneric id → enclosing = .absent)) ∧
    ∀ id e, s.elements.get? id = some e → e.kind = .enumConstant →
      ∃ owner o type, e.enclosing = some owner ∧ s.elements.get? owner = some o ∧
        o.kind = .enumType ∧
        ∀ more, ((c.askAll more).ask (.ownType id)).1 = .types [type] ∧
          ((c.askAll more).ask (.ownType owner)).1 = .types [type] := by
  intro c s
  have h : c.Fits (world token files provider config) :=
    fits_asked token files provider config questions
  have hg := (fits_askAll (fits_start token files provider config) questions).2
  have htoken : s.token = token := congrArg SessionBase.token hg.base
  -- The own type is settled once; later questions are replied with the one that is kept.
  refine ⟨fun id e he ht => ?_, fun id e he hkind => ?_⟩
  · obtain ⟨type, hown⟩ := exists_isOwnType h he
      (fun hk => by rw [hk] at ht; cases ht) fun hk => by rw [hk] at ht; cases ht
    obtain ⟨enclosing, htype, hinner, hother⟩ := hown.enclosing he ht
    have heq : s.ownTypeIn id e enclosing = .declared token (.known id)
        (e.typeParams.map fun n => .typeVariable n id) enclosing := by
      rw [Session.ownTypeIn, htoken]
    refine ⟨enclosing, fun more => ?_, fun hid => ?_, hother⟩
    · obtain ⟨hreply, hnames⟩ := ask_isOwnType h hown more
      rw [← heq, ← htype]
      exact ⟨hreply, hnames e enclosing he ht htype⟩
    · obtain ⟨outer, henc, hown'⟩ := hinner hid
      exact ⟨outer, henc, fun more => (ask_isOwnType h hown' more).1⟩
  · have hunits : s.units = (parseBatch files).1 := h.idle.resolved.of.units
    obtain ⟨owner, o, henc, ho, hokind⟩ :=
      h.idle.resolved.sound.enum_of_constant hunits he hkind
    obtain ⟨type, hown⟩ := exists_isOwnType h he (by rw [hkind]; decide) (by rw [hkind]; decide)
    refine ⟨owner, o, type, henc, ho, hokind, fun more => ⟨(ask_isOwnType h hown more).1, ?_⟩⟩
    -- The element is a constant, so its own type is that of its enum.
    cases hown with
    | apart get isType | inner get isType =>
      cases he.symm.trans get
      rw [hkind] at isType
      cases isType
    | constant get _ enclosing own =>
      cases he.symm.trans get
      cases henc.symm.trans enclosing
      exact (ask_isOwnType h own more).1

/-- An inner class in an inner class of a generic one, a class that is none, and a constant. -/
def nestedTypes : Batch :=
  #[⟨"A.java", "package p; class A<T> { class B { class C {} } static class S {} } enum E { X }"⟩]

/-- The first is inside the own type of the one around it. -/
theorem own_types_nested :
    let c : Client := (start 0 nestedTypes onlyObject {}).askAll
      [.lookupType "p.A.B.C", .lookupType "p.A.S", .lookupType "p.E", .enclosed 5]
    c.session.InnerOfGeneric 3 ∧ ¬c.session.InnerOfGeneric 4 ∧
      (∃ around, (c.ask (.ownType 3)).1 = .types [.declared 0 (.known 3) [] around] ∧
        (c.ask (.ownType 2)).1 = .types [around]) ∧
      (c.ask (.ownType 4)).1 = .types [.declared 0 (.known 4) [] .absent] ∧
      ∃ type, (c.ask (.ownType 6)).1 = .types [type] ∧ (c.ask (.ownType 5)).1 = .types [type] := by
  intro c
  -- What the elements say is evaluated; which types enclose which follows from it.
  obtain ⟨h₁, h₂, h₃, h₄, h₆⟩ :
      ((c.session.elements.get? 1).any fun e => e.kind = .classType && !e.typeParams.isEmpty) ∧
        ((c.session.elements.get? 2).any fun e =>
          e.kind = .classType && !e.hasModifier .static && e.enclosing = some 1) ∧
        ((c.session.elements.get? 3).any fun e => e.kind = .classType && !e.hasModifier .static &&
          e.enclosing = some 2 && e.typeParams.isEmpty) ∧
        ((c.session.elements.get? 4).any fun e =>
          e.kind = .classType && e.hasModifier .static && e.typeParams.isEmpty) ∧
        ((c.session.elements.get? 6).any fun e => e.kind = .enumConstant &&
          e.enclosing = some 5) := by
    decide +kernel
  obtain ⟨e₁, he₁, h₁⟩ := (Option.any_eq_true _ _).1 h₁
  obtain ⟨e₂, he₂, h₂⟩ := (Option.any_eq_true _ _).1 h₂
  obtain ⟨e₃, he₃, h₃⟩ := (Option.any_eq_true _ _).1 h₃
  obtain ⟨e₄, he₄, h₄⟩ := (Option.any_eq_true _ _).1 h₄
  obtain ⟨e₆, he₆, h₆⟩ := (Option.any_eq_true _ _).1 h₆
  simp only [Bool.and_eq_true, Bool.not_eq_true', decide_eq_true_eq, List.isEmpty_iff,
    List.isEmpty_eq_false_iff] at h₁ h₂ h₃ h₄ h₆
  obtain ⟨⟨⟨hkind₃, hinner₃⟩, henc₃⟩, hparams₃⟩ := h₃
  have hC : c.session.InnerOfGeneric 3 :=
    .nested he₃ ⟨hkind₃, hinner₃, henc₃, e₂, he₂, .inl h₂.1.1⟩
      (.generic he₂ ⟨h₂.1.1, h₂.1.2, h₂.2, e₁, he₁, .inl h₁.1⟩ he₁ h₁.2)
  have hS : ¬c.session.InnerOfGeneric 4 :=
    Session.not_innerOfGeneric he₄ fun outer h => by cases h.inner.symm.trans h₄.1.2
  obtain ⟨htypes, hconstants⟩ := own_types 0 nestedTypes onlyObject {}
    [.lookupType "p.A.B.C", .lookupType "p.A.S", .lookupType "p.E", .enclosed 5]
  obtain ⟨around, htold₃, hin₃, -⟩ := htypes 3 e₃ he₃ (by rw [hkind₃]; rfl)
  obtain ⟨none, htold₄, -, hnone⟩ := htypes 4 e₄ he₄ (by rw [h₄.1.1]; rfl)
  obtain ⟨owner, o, type, howner, -, -, htold₆⟩ := hconstants 6 e₆ he₆ h₆.1
  obtain ⟨outer, houter, htold₂⟩ := hin₃ hC
  cases henc₃.symm.trans houter
  cases h₆.2.symm.trans howner
  rw [hparams₃] at htold₃
  rw [hnone hS, h₄.2] at htold₄
  exact ⟨hC, hS, ⟨around, (htold₃ []).1, htold₂ []⟩, (htold₄ []).1, type, htold₆ []⟩

end Client

end JavaAbi
