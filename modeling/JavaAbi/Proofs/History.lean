import JavaAbi.Proofs.Honesty

namespace JavaAbi

/-!
# What was asked before

The supertypes of a type, and the type of a field, are what the rules say, whatever was asked before:
if the rules settle them. They settle what can be resolved by way of lists of supertypes none of which
is needed to make one that it needs. Where the headers of two types refer to member types that they
inherit from each other, the answer depends on which of them was asked for first.

* `Session.seen` — the outcome of a query, in symbols;
* `Client.seen_of_settled` — outcomes that the rules settle do not depend on what was asked;
* `Client.seen_depends` — an outcome that does.
-/

open Course Stage

variable {w : World} {s : Session} {α β γ : Type}

/-! ### Queries about a name -/

/-- The superclass of a type. -/
def superclassNamed (name : String) : Query ModelType := do superclassOf (← lookupType name)

/-- The interfaces of a type. -/
def interfacesNamed (name : String) : Query (List ModelType) := do interfacesOf (← lookupType name)

/-- The element of the type that is written for a field, by the position of the field among what the
    type encloses. -/
def fieldElement (name : String) (position : Nat) : Query (Option ElementId) := do
  match (← enclosedOf (← lookupType name))[position]? with
  | some id => elementOfType (← ownType id)
  | none => return none

/-- The outcome of a query, as it looks in the session after it. -/
def Session.seen (s : Session) (q : Query α) (look : Session → α → γ) :
    Except Breach (Except ModelError γ) :=
  match q.run.run.run s with
  | (.ok r, t) => .ok (r.map (look t))
  | (.error b, _) => .error b

/-! ### Rules about a name -/

namespace World

variable (w : World)

/-- The superclass of a type. -/
def superclassNamed (name : String) : Rule TypeView := do
  w.superclassOf (← Rule.ofExcept (w.lookup name))

/-- The interfaces of a type. -/
def interfacesNamed (name : String) : Rule (List TypeView) := do
  w.interfacesOf (← Rule.ofExcept (w.lookup name))

/-- The type that is written for a field of a declaration of the batch, by the position of the field
    among its members. -/
def writtenField? (name : String) (position : Nat) : Option (DeclId × TypeRef) := do
  let d ← w.find? name
  let tree ← w.index.tree? w.units d
  match (w.index.allMemberKeys d 0 tree.members)[position]? with
  | some (.field owner m number) => (w.fieldType? owner m number).map (owner, ·)
  | _ => none

/-- The symbol of the type that is written for a field. -/
def writtenElement (d : DeclId) (type : TypeRef) : Rule (Option Symbol) := do
  w.resolveType (← w.typeOf (w.scopeOf d) type)

end World

/-! ### Settled outcomes -/

/-- Work that honours a rule has the outcome that the rule settles. -/
theorem World.Honours.seen {q : Query α} {rule : Rule β} {excused : ModelError → Prop}
    {rel : α → β → Session → Prop} {look : Session → α → β} {z : Except ModelError β}
    (h : w.Honours s q rule excused rel) (hs : s.Idle w) (hz : w.Settles rule.run z)
    (hlook : ∀ a b t, t.Idle w → rel a b t → look t a = b) : s.seen q look = .ok z := by
  obtain ⟨_, t, hrun, ht, -, r, rfl, y, hy, hset⟩ := h hs
  obtain rfl := hset.settled z hz
  have hrun' : q.run.run.run s = (.ok r, t) := hrun
  rw [Session.seen, hrun']
  match r, z, hy with
  | .ok a, .ok b, hy => exact congrArg (Except.ok ∘ Except.ok) (hlook a b t ht hy)
  | .error e, .error _, ⟨rfl, _⟩ => rfl

theorem viewedAll.view {types : List ModelType} {vs : List TypeView}
    (h : viewedAll w types vs s) : s.viewAll types = vs := by
  induction h with
  | nil => rfl
  | cons hv _ ih => rw [Session.viewAll, hv.2, ih]

/-- The superclass of a type is the one that the rules settle. -/
theorem superclassNamed_honours {name : String} (h : name ≠ "") :
    w.Honours s (superclassNamed name) (w.superclassNamed name) (fun _ => True) (viewed w) := by
  refine ((lookupType_honours h).mono (fun _ _ => trivial) fun _ _ _ _ _ h => h).bind
    fun id symbol t _ _ hshow => ?_
  exact (superclassOf_honours hshow.shows).mono (fun _ _ => trivial) fun _ _ _ _ _ h => h

/-- The interfaces of a type are those that the rules settle. -/
theorem interfacesNamed_honours {name : String} (h : name ≠ "") :
    w.Honours s (interfacesNamed name) (w.interfacesNamed name) (fun _ => True) (viewedAll w) := by
  refine ((lookupType_honours h).mono (fun _ _ => trivial) fun _ _ _ _ _ h => h).bind
    fun id symbol t _ _ hshow => ?_
  exact (interfacesOf_honours hshow.shows).mono (fun _ _ => trivial) fun _ _ _ _ _ h => h

/-- A name that the batch declares is found. -/
theorem lookupType_declared {name : String} {d : DeclId} (h : name ≠ "")
    (hd : w.find? name = some d) :
    (asking w).Answers s (lookupType name) fun r t => ∃ id, r = .ok id ∧ t.ShowsType (.type name) id := by
  have hlookup : w.lookup name = .ok (.type name) := by
    rw [World.lookup, lookupOutcome_declared (by simp only [hd, Option.isSome_some])]
    rfl
  refine Ends.mono (lookupType_honours h) fun r t _ _ ⟨y, hy, hset⟩ => ?_
  obtain rfl := hset.settled (.ok (.type name)) ⟨0, by rw [hlookup]; rfl⟩
  match r, hy with
  | .ok id, hshow => exact ⟨id, rfl, hshow⟩

/-- The field of a declaration is the element at its position among what is enclosed. -/
theorem World.writtenField?_eq_some {name : String} {position : Nat} {owner : DeclId} {type : TypeRef}
    (h : w.writtenField? name position = some (owner, type)) :
    ∃ d tree m number, w.find? name = some d ∧ w.index.tree? w.units d = some tree ∧
      (w.index.allMemberKeys d 0 tree.members)[position]? = some (.field owner m number) ∧
      w.fieldType? owner m number = some type := by
  obtain ⟨d, hd, h⟩ := Option.bind_eq_some_iff.1 h
  obtain ⟨tree, htree, h⟩ := Option.bind_eq_some_iff.1 h
  split at h
  · rename_i owner' m number hkey
    obtain ⟨type', htype, heq⟩ := Option.map_eq_some_iff.1 h
    cases heq
    exact ⟨d, tree, m, number, hd, htree, hkey, htype⟩
  · cases h

/-- What is enclosed at a position, for the element of a declaration. -/
theorem Session.EnclosedAs.at {t : Session} {d : DeclId} {i : DeclInfo} {tree : TypeDecl}
    {id : ElementId} {e : Element} {ids : List ElementId} {position : Nat} {key : ElementKey}
    (hs : s.Of w) (he : s.IsTree id d i tree e) (h : t.EnclosedAs e (.ok ids))
    (hkey : (w.index.allMemberKeys d 0 tree.members)[position]? = some key) :
    ∃ id, ids[position]? = some id ∧ t.Denotes key id := by
  obtain ⟨_, heq, -, hall, -⟩ := h
  cases heq
  have hshape := hall _ he.source
  rw [← hs.index] at hkey
  obtain ⟨hlt, rfl⟩ := List.getElem?_eq_some_iff.1 hkey
  have hlt' : position < ids.length := hshape.length_eq ▸ hlt
  exact ⟨ids[position], List.getElem?_eq_getElem hlt', hshape.get hlt' hlt⟩

/-- A query that the rule does not mention, before one that honours it. -/
theorem World.Honours.after_ok {q : Query α} {P : α → Session → Prop} {f : α → Query β} {rule : Rule γ}
    {excused : ModelError → Prop} {rel : β → γ → Session → Prop}
    (h : (asking w).Answers s q fun r t => ∃ a, r = .ok a ∧ P a t)
    (hf : ∀ a t, t.Idle w → s.Learns w t → P a t → w.Honours t (f a) rule excused rel) :
    w.Honours s (q >>= f) rule excused rel :=
  Answers.bind_ok h hf

/-- The element of the type that is written for a field is the one that the rules settle. -/
theorem fieldElement_honours {name : String} {position : Nat} {owner : DeclId} {type : TypeRef}
    (hname : name ≠ "") (h : w.writtenField? name position = some (owner, type)) :
    w.Honours s (fieldElement name position) (w.writtenElement owner type) w.provider.Excuses
      (optional shown) := by
  obtain ⟨d, tree, m, number, hd, htree, hkey, htype⟩ := World.writtenField?_eq_some h
  refine .after_ok (lookupType_declared hname hd) fun id t ht _ hshow => ?_
  obtain ⟨hprimary, -, hden⟩ := hshow.shows.tree ht.resolved.world ht.resolved.sound ht.resolved.of hd
  obtain ⟨i, tree', e, he⟩ := ht.resolved.sound.isTree hprimary hden
  cases htree.symm.trans (he.tree_world ht.resolved.of)
  have henclosed : (asking w).Answers t (enclosedOf id) fun r u =>
      ∃ ids, r = .ok ids ∧ ∃ field, ids[position]? = some field ∧
        u.Shows (.field owner m number) field := by
    refine (enclosedOf_answers hshow.shows he.get).mono ?_
    rintro r u - - hr
    have ⟨ids, hids, _⟩ := hr
    subst hids
    obtain ⟨field, hat, hfield⟩ := hr.at ht.resolved.of he hkey
    exact ⟨ids, rfl, field, hat, _, hfield, rfl⟩
  refine .after_ok henclosed fun ids u _ _ ⟨field, hat, hfield⟩ => ?_
  rw [hat]
  -- the own type of the field is the written one, as far as the rules settle how it looks
  have hown : w.Heeds u (ownType field) (w.typeOf (w.scopeOf owner) type) (viewed w) :=
    (ownType_ends hfield).mono fun written v _ _ hwritten =>
      ⟨v.view written, ⟨hwritten.holds, rfl⟩,
        fun x hx => (hwritten.rule x ⟨type, htype, hx⟩).symm,
        hwritten.held _ (by rw [World.reading?, htype]; rfl)⟩
  refine .lift hown fun written view v _ _ hview => ?_
  rw [← hview.2]
  exact elementOfType_honours hview.1

/-! ### Sessions that were asked before -/

/-- The supertypes of a type, and the type of a field, in a session between questions. -/
theorem superclassNamed_seen (hs : s.Idle w) {name : String} (h : name ≠ "")
    {z : Except ModelError TypeView} (hz : w.Settles (w.superclassNamed name).run z) :
    s.seen (superclassNamed name) Session.view = .ok z :=
  (superclassNamed_honours h).seen hs hz fun _ _ _ _ hview => hview.2

theorem interfacesNamed_seen (hs : s.Idle w) {name : String} (h : name ≠ "")
    {z : Except ModelError (List TypeView)} (hz : w.Settles (w.interfacesNamed name).run z) :
    s.seen (interfacesNamed name) Session.viewAll = .ok z :=
  (interfacesNamed_honours h).seen hs hz fun _ _ _ _ hviews => hviews.view

theorem fieldElement_seen (hs : s.Idle w) {name : String} (h : name ≠ "") {position : Nat}
    {owner : DeclId} {type : TypeRef} (hfield : w.writtenField? name position = some (owner, type))
    {z : Except ModelError (Option Symbol)} (hz : w.Settles (w.writtenElement owner type).run z) :
    s.seen (fieldElement name position) (fun t found => found.map t.symbolAt) = .ok z := by
  refine (fieldElement_honours h hfield).seen hs hz fun a b t ht hrel => ?_
  match a, b, hrel with
  | none, none, _ => rfl
  | some a, some b, hshow => exact congrArg some (Session.symbolAt_eq ht.resolved hshow)

namespace Client

variable (token : SessionToken) (files : Batch) (provider : Provider) (config : ModelConfig)
  (questions : List Question)

/-- **Settled answers do not depend on what was asked.** The superclass of a type, its interfaces, and
    the element of the type written for a field are what the rules settle, on a new session and after
    any questions, errors included, wherever the rules settle them. -/
theorem seen_of_settled {name : String} (hname : name ≠ "") :
    let w : World := world token files provider config
    let fresh : Session := (start token files provider config).session
    let asked : Session := ((start token files provider config).askAll questions).session
    (∀ z, w.Settles (w.superclassNamed name).run z →
      asked.seen (superclassNamed name) Session.view = .ok z ∧
        fresh.seen (superclassNamed name) Session.view = .ok z) ∧
    (∀ z, w.Settles (w.interfacesNamed name).run z →
      asked.seen (interfacesNamed name) Session.viewAll = .ok z ∧
        fresh.seen (interfacesNamed name) Session.viewAll = .ok z) ∧
    ∀ position owner type, w.writtenField? name position = some (owner, type) →
      ∀ z, w.Settles (w.writtenElement owner type).run z →
        asked.seen (fieldElement name position) (fun t found => found.map t.symbolAt) = .ok z ∧
          fresh.seen (fieldElement name position) (fun t found => found.map t.symbolAt) = .ok z := by
  intro w fresh asked
  have hfresh : fresh.Idle w := (fits_start token files provider config).idle
  have hasked : asked.Idle w := (fits_asked token files provider config questions).idle
  refine ⟨fun z hz => ?_, fun z hz => ?_, fun position owner type hfield z hz => ?_⟩
  · exact ⟨superclassNamed_seen hasked hname hz, superclassNamed_seen hfresh hname hz⟩
  · exact ⟨interfacesNamed_seen hasked hname hz, interfacesNamed_seen hfresh hname hz⟩
  · exact ⟨fieldElement_seen hasked hname hfield hz, fieldElement_seen hfresh hname hfield hz⟩

/-- The type of a field that is named like a member type of a superclass. -/
theorem seen_of_inherited_member :
    let files : Batch := #[⟨"A.java", "package p; class A extends B { C f; } class B { class C {} }"⟩]
    let asked := ((start 0 files onlyObject {}).askAll [.lookupType "p.B", .interfaces 1]).session
    asked.seen (fieldElement "p.A" 0) (fun t found => found.map t.symbolAt)
      = .ok (.ok (some (.type "p.B.C"))) := by
  intro files asked
  have hgiven : ((world 0 files onlyObject {}).writtenField? "p.A" 0).map (fun field =>
      ((world 0 files onlyObject {}).writtenElement field.1 field.2).run.given
        ((world 0 files onlyObject {}).supertypesAt 2)) = some (some (.ok (some (.type "p.B.C")))) := by
    decide +kernel
  obtain ⟨⟨owner, type⟩, hfield, hsettled⟩ := Option.map_eq_some_iff.1 hgiven
  exact ((seen_of_settled 0 files onlyObject {} _ (by decide)).2.2 0 owner type hfield _
    ⟨2, hsettled⟩).1

/-- Two classes whose superclasses are inherited by way of each other's interfaces. -/
def entangled : Batch :=
  #[⟨"A.java", "package p; class A extends B.X implements J { Z f; } class B extends A.Y implements K {} "
    ++ "interface J { class Y {} } interface K { class X { static class Z {} } }"⟩]

/-- **What was asked before matters** where the rules settle nothing: the field `f` is of the type that
    its class inherits, unless the superclass was asked for first. Its list then needs the one of `B`,
    which is made while that of `A` is not yet known, and is kept without the superclass of `B`. -/
theorem seen_depends :
    (start 0 entangled onlyObject {}).session.seen (fieldElement "p.A" 0)
        (fun t found => found.map t.symbolAt) = .ok (.ok (some (.type "p.K.X.Z"))) ∧
      ((start 0 entangled onlyObject {}).askAll [.lookupType "p.A", .superclass 1]).session.seen
        (fieldElement "p.A" 0) (fun t found => found.map t.symbolAt)
        = .ok (.error (.unknownSymbol "Z" (some ⟨some 0, 46, 47⟩))) := by
  decide +kernel

end Client

end JavaAbi
