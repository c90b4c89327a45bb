import JavaAbi.Proofs.ExtractedReports
import JavaAbi.Proofs.RenderedTypes

namespace JavaAbi

/-!
# Reports of field types

The type of a variable is looked through for references that do not resolve: a class type, its
arguments, components and bounds. Of a path with arguments at several segments only those at the
last segment are looked through. So a class type that does not resolve is reported wherever it
stands, unless that is in an argument of a segment before the last one.

* `World.Mentions` — a class type stands somewhere in a type;
* `World.mem_references` — the references of a type are those of the class types in it;
* `World.Reported` — what is reported of a type;
* `Client.fields_reported` — what extractions report of fields;
* `Client.outer_argument_unreported` — an argument that does not resolve and is not reported.
-/

variable {w : World} {s t : Session} {base : NameTable} {lists : Symbol → List Symbol → Prop}
  {sc : ScopeView} {part part' : List ClassSegment → List ClassSegment}

/-! ### Class types in types -/

/-- The reference that the segments of a class type write. -/
def ScopeView.reference (sc : ScopeView) (segments : List ClassSegment) (place : Span) :
    ReferenceView :=
  ⟨sc, segments.map ClassSegment.name, place⟩

/-- The last segment of a path. -/
def ClassSegment.last (segments : List ClassSegment) : List ClassSegment :=
  segments.getLast?.toList

namespace World

/-- The segments write a class type, not a type parameter. -/
def WritesClass (w : World) (lists : Symbol → List Symbol → Prop) (sc : ScopeView)
    (segments : List ClassSegment) : Prop :=
  ∀ only, segments = [only] → (w.typeVariable? only.name sc).Finds lists none

/-- **A class type stands in a type** that is written in the scope `sc`, at any depth. Of the
    segments around it, those count that `part` gives. -/
inductive Mentions (w : World) (lists : Symbol → List Symbol → Prop) (sc : ScopeView)
    (part : List ClassSegment → List ClassSegment) (segments : List ClassSegment) (place : Span) :
    TypeRef → Prop
  | here (named : w.WritesClass lists sc segments) :
      Mentions w lists sc part segments place (.classType segments place)
  | argument {around : List ClassSegment} {span : Span} {seg : ClassSegment} {arg : TypeRef}
      (named : w.WritesClass lists sc around) (counts : seg ∈ part around) (mem : arg ∈ seg.args)
      (inside : Mentions w lists sc part segments place arg) :
      Mentions w lists sc part segments place (.classType around span)
  | component {component : TypeRef} {span : Span}
      (inside : Mentions w lists sc part segments place component) :
      Mentions w lists sc part segments place (.array component span)
  | upper {bound : TypeRef} {span : Span} (inside : Mentions w lists sc part segments place bound) :
      Mentions w lists sc part segments place (.wildcardExtends bound span)
  | lower {bound : TypeRef} {span : Span} (inside : Mentions w lists sc part segments place bound) :
      Mentions w lists sc part segments place (.wildcardSuper bound span)

/-- In a type, only last segments have arguments. -/
def ArgumentsLast (w : World) (lists : Symbol → List Symbol → Prop) (sc : ScopeView)
    (type : TypeRef) : Prop :=
  ∀ segments place, w.Mentions lists sc id segments place type →
    ∀ seg ∈ segments.dropLast, seg.args = []

section Mentions

variable {segments : List ClassSegment} {place : Span} {type : TypeRef}

theorem Mentions.mono (hp : ∀ around seg, seg ∈ part around → seg ∈ part' around)
    (h : w.Mentions lists sc part segments place type) :
    w.Mentions lists sc part' segments place type := by
  induction h with
  | here named => exact .here named
  | argument named counts mem _ ih => exact .argument named (hp _ _ counts) mem ih
  | component _ ih => exact .component ih
  | upper _ ih => exact .upper ih
  | lower _ ih => exact .lower ih

/-- The dimensions after a variable do not matter. -/
theorem mentions_withDimensions {span : Span} {dims : Nat} :
    w.Mentions lists sc part segments place (Element.withDimensions span dims type) ↔
      w.Mentions lists sc part segments place type := by
  induction dims generalizing type with
  | zero => rfl
  | succ dims ih =>
    rw [Element.withDimensions, ih]
    refine ⟨fun h => ?_, .component⟩
    cases h with
    | component inside => exact inside

/-- If only last segments have arguments, it is enough to look through those. -/
theorem mentions_last (hlast : w.ArgumentsLast lists sc type) :
    w.Mentions lists sc ClassSegment.last segments place type ↔
      w.Mentions lists sc id segments place type := by
  refine ⟨.mono fun around seg h => List.mem_of_getLast? (Option.mem_toList.1 h), fun h => ?_⟩
  induction h with
  | here named => exact .here named
  | @argument around span seg arg named counts mem inside ih =>
    have hunargued := hlast around span (.here named)
    refine .argument named ?_ mem (ih fun _ _ h => hlast _ _ (.argument named counts mem h))
    -- A segment with an argument is not among those before the last one.
    have hnot : seg ∉ around.dropLast := fun hseg => by
      rw [hunargued seg hseg] at mem
      cases mem
    have hne : around ≠ [] := List.ne_nil_of_mem counts
    rw [id, ← List.dropLast_append_getLast hne, List.mem_append, List.mem_singleton] at counts
    obtain rfl := counts.resolve_left hnot
    rw [ClassSegment.last, List.getLast?_eq_some_getLast hne]
    exact List.mem_singleton_self _
  | component _ ih => exact .component (ih fun _ _ h => hlast _ _ (.component h))
  | upper _ ih => exact .upper (ih fun _ _ h => hlast _ _ (.upper h))
  | lower _ ih => exact .lower (ih fun _ _ h => hlast _ _ (.lower h))

end Mentions

/-! ### References of types -/

section References

/-- The references of the type that some segments make up are its own, and those of the arguments of
    the last segment. -/
theorem mem_references_enclosedTypes {place : Span} {front : List ClassSegment} {last : ClassSegment}
    {found : List (Name × List TypeView)} {inside : ClassSegment → ReferenceView → Prop}
    {r : ReferenceView}
    (h : List.Forall₂ (fun seg x => x.1 = seg.name ∧
      ∀ r, r ∈ TypeView.allReferences x.2 ↔ inside seg r) (front ++ [last]) found) :
    r ∈ (World.enclosedTypes sc place [] .absent found).references ↔
      r = sc.reference (front ++ [last]) place ∨ inside last r := by
  have hnames : found.map Prod.fst = (front ++ [last]).map ClassSegment.name := by
    rw [← List.forall₂_eq_eq_eq, List.forall₂_map_left_iff, List.forall₂_map_right_iff]
    exact h.flip.imp fun _ _ h => h.1
  obtain ⟨ffront, ⟨name, views⟩, rfl, -, -, hlast⟩ := forall₂_concat h
  obtain ⟨path, enclosing, htype, hpath⟩ := enclosedTypes_last sc place [] .absent
    (List.getLast?_concat (l := ffront) (a := (name, views)))
  rw [List.nil_append, hnames] at hpath
  rw [htype, hpath, TypeView.references, List.mem_cons, hlast r]
  rfl

mutual

/-- **The references of a type** are those of the class types in it. -/
theorem mem_references (hl : ∀ symbol l l', lists symbol l → lists symbol l' → l = l')
    {type : TypeRef} {v : TypeView} (ht : type.Sound base)
    (h : (w.typeOf sc type).Finds lists v) (r : ReferenceView) :
    r ∈ v.references ↔ ∃ segments place,
      w.Mentions lists sc ClassSegment.last segments place type ∧
        r = sc.reference segments place := by
  match type with
  | .primitive _ _ | .void _ | .error _ | .wildcard _ =>
    rw [World.typeOf] at h
    cases h.pure_inv
    refine iff_of_false List.not_mem_nil ?_
    rintro ⟨_, _, ⟨⟩, -⟩
  | .array component _ =>
    rw [World.typeOf] at h
    obtain ⟨inner, hinner, h⟩ := h.bind_inv
    cases h.pure_inv
    rw [TypeView.references, mem_references hl (by cases ht; assumption) hinner r]
    refine exists₂_congr fun _ _ => and_congr_left fun _ => ⟨.component, fun h => ?_⟩
    cases h with
    | component inside => exact inside
  | .wildcardExtends bound _ =>
    rw [World.typeOf] at h
    obtain ⟨inner, hinner, h⟩ := h.bind_inv
    cases h.pure_inv
    rw [TypeView.references, TypeView.boundReferences, TypeView.boundReferences, List.append_nil,
      mem_references hl (by cases ht; assumption) hinner r]
    refine exists₂_congr fun _ _ => and_congr_left fun _ => ⟨.upper, fun h => ?_⟩
    cases h with
    | upper inside => exact inside
  | .wildcardSuper bound _ =>
    rw [World.typeOf] at h
    obtain ⟨inner, hinner, h⟩ := h.bind_inv
    cases h.pure_inv
    rw [TypeView.references, TypeView.boundReferences, TypeView.boundReferences, List.nil_append,
      mem_references hl (by cases ht; assumption) hinner r]
    refine exists₂_congr fun _ _ => and_congr_left fun _ => ⟨.lower, fun h => ?_⟩
    cases h with
    | lower inside => exact inside
  | .classType segments place =>
    obtain ⟨hfilled, hargs⟩ : segments ≠ [] ∧ ∀ seg ∈ segments, ∀ a ∈ seg.args, a.Sound base := by
      cases ht with
      | classType _ _ filled _ args => exact ⟨filled, args⟩
    rcases finds_classType h with ⟨only, owner, rfl, hvariable, rfl⟩ | ⟨found, hfound, rfl, hnamed⟩
    -- A type parameter is no class type, whatever stands behind it.
    · refine iff_of_false List.not_mem_nil ?_
      rintro ⟨_, _, hmentions, -⟩
      cases hmentions with
      | here named => cases (named only rfl).unique hl hvariable
      | argument named => cases (named only rfl).unique hl hvariable
    · have hall := mem_segmentReferences hl hargs hfound
      obtain ⟨front, last, rfl⟩ : ∃ front last, segments = front ++ [last] :=
        ⟨_, _, (List.dropLast_append_getLast hfilled).symm⟩
      rw [mem_references_enclosedTypes hall]
      constructor
      · rintro (rfl | ⟨arg, harg, inner, span, hmentions, rfl⟩)
        · exact ⟨_, _, .here hnamed, rfl⟩
        · refine ⟨inner, span, .argument hnamed ?_ harg hmentions, rfl⟩
          rw [ClassSegment.last, List.getLast?_concat]
          exact List.mem_singleton_self _
      · rintro ⟨inner, span, hmentions, rfl⟩
        cases hmentions with
        | here => exact .inl rfl
        | argument _ counts harg inside =>
          rw [ClassSegment.last, List.getLast?_concat] at counts
          obtain rfl := List.mem_singleton.1 counts
          exact .inr ⟨_, harg, inner, span, inside, rfl⟩

/-- Those of the arguments of each segment. -/
theorem mem_segmentReferences (hl : ∀ symbol l l', lists symbol l → lists symbol l' → l = l')
    {segments : List ClassSegment} {found : List (Name × List TypeView)}
    (ht : ∀ seg ∈ segments, ∀ a ∈ seg.args, a.Sound base)
    (h : (w.segmentsOf sc segments).Finds lists found) :
    List.Forall₂ (fun seg x => x.1 = seg.name ∧ ∀ r, r ∈ TypeView.allReferences x.2 ↔
      ∃ arg ∈ seg.args, ∃ segments place,
        w.Mentions lists sc ClassSegment.last segments place arg ∧
          r = sc.reference segments place) segments found := by
  match segments with
  | [] =>
    rw [World.segmentsOf] at h
    cases h.pure_inv
    exact .nil
  | .mk name args :: rest =>
    obtain ⟨later, views, hlater, hviews, rfl⟩ := World.finds_segmentsOf_cons h
    exact .cons ⟨rfl, mem_allReferences hl (ht _ List.mem_cons_self) hviews⟩
      (mem_segmentReferences hl (fun seg hseg => ht seg (List.mem_cons_of_mem _ hseg)) hlater)

/-- Those of types in order. -/
theorem mem_allReferences (hl : ∀ symbol l l', lists symbol l → lists symbol l' → l = l')
    {types : List TypeRef} {vs : List TypeView} (ht : ∀ type ∈ types, type.Sound base)
    (h : (w.typesOf sc types).Finds lists vs)
    (r : ReferenceView) : r ∈ TypeView.allReferences vs ↔ ∃ type ∈ types, ∃ segments place,
      w.Mentions lists sc ClassSegment.last segments place type ∧
        r = sc.reference segments place := by
  match types with
  | [] =>
    rw [World.typesOf] at h
    cases h.pure_inv
    exact iff_of_false List.not_mem_nil (by rintro ⟨_, ⟨⟩, -⟩)
  | type :: rest =>
    obtain ⟨first, views, hfirst, hviews, rfl⟩ := World.finds_typesOf_cons h
    rw [TypeView.allReferences, List.mem_append, List.exists_mem_cons_iff,
      mem_references hl (ht _ List.mem_cons_self) hfirst r,
      mem_allReferences hl (fun t h => ht t (List.mem_cons_of_mem _ h)) hviews r]

end

end References

/-! ### Fields -/

/-- **What is reported of a type**: each class type in it resolves or has an error, and the errors
    are what is reported. -/
structure Reported (w : World) (lists : Symbol → List Symbol → Prop) (sc : ScopeView)
    (part : List ClassSegment → List ClassSegment) (type : TypeRef) (place : Span)
    (ds : List Diagnostic) : Prop where
  outcome : ∀ segments span, w.Mentions lists sc part segments span type →
    ∃ y, (w.resolveReference (sc.reference segments span)).run.Finds lists y
  mem_iff : ∀ d, d ∈ ds ↔ ∃ segments span e, w.Mentions lists sc part segments span type ∧
    (w.resolveReference (sc.reference segments span)).run.Finds lists (.error e) ∧
    d = e.diagnostic place

/-- **An account of what is reported of variables**: warnings of unknown symbols, for the class
    types that are looked through; these are all class types in the type, if only last segments have
    arguments. -/
def fieldAccount (w : World) (lists : Symbol → List Symbol → Prop) : Account where
  header := (w.account lists).header
  field d f v stub ds := stub.name = w.text v.name ∧ (∀ x ∈ ds, x.IsUnknownSymbol) ∧
    w.Reported lists (w.scopeOf d) ClassSegment.last f.type v.span ds ∧
    (w.ArgumentsLast lists (w.scopeOf d) f.type →
      w.Reported lists (w.scopeOf d) id f.type v.span ds)

/-- The errors of the references of a type are what is reported of it. -/
theorem Failures.reported (hl : ∀ symbol l l', lists symbol l → lists symbol l' → l = l')
    {type : TypeRef} {v : TypeView} {place : Span} {ds : List Diagnostic} (ht : type.Sound base)
    (hread : (w.typeOf sc type).Finds lists v) (h : w.Failures lists place v.references ds) :
    w.Reported lists sc ClassSegment.last type place ds where
  outcome segments span hmentions :=
    h.exists_outcome _ ((mem_references hl ht hread _).2 ⟨segments, span, hmentions, rfl⟩)
  mem_iff d := by
    rw [h.mem_iff hl]
    constructor
    · rintro ⟨r, hr, e, he, rfl⟩
      obtain ⟨segments, span, hmentions, rfl⟩ := (mem_references hl ht hread r).1 hr
      exact ⟨segments, span, e, hmentions, he, rfl⟩
    · rintro ⟨segments, span, e, hmentions, he, rfl⟩
      exact ⟨_, (mem_references hl ht hread _).2 ⟨segments, span, hmentions, rfl⟩, e, he, rfl⟩

/-- Where the same class types are looked through, the same is reported. -/
theorem Reported.congr {type type' : TypeRef} {place : Span} {ds : List Diagnostic}
    (hm : ∀ segments span, w.Mentions lists sc part segments span type ↔
      w.Mentions lists sc part' segments span type')
    (h : w.Reported lists sc part type place ds) : w.Reported lists sc part' type' place ds where
  outcome segments span hmentions := h.outcome segments span ((hm segments span).2 hmentions)
  mem_iff d := by
    rw [h.mem_iff]
    exact exists₃_congr fun segments span _ => and_congr_left fun _ => hm segments span

/-- With an honest provider, an extraction reports fields so. -/
theorem account_entails_fieldAccount (honest : w.provider.Honest)
    (trees : ∀ u ∈ w.units, u.Sound base False)
    (hl : ∀ symbol l l', lists symbol l → lists symbol l' → l = l') :
    w.Entails (w.account lists) (w.fieldAccount lists) where
  header _ _ _ _ _ _ h := h
  field d m f hm v hv stub ds h := by
    obtain ⟨hname, -, type, hread, -, hfailures⟩ := h
    have hsound := World.member_sound trees hm
    rw [Member.Sound] at hsound
    have hwritten : (Element.withDimensions v.span v.dims f.type).Sound base :=
      hsound.type.withDimensions v.span v.dims
    have hreported : w.Reported lists (w.scopeOf d) ClassSegment.last f.type v.span ds :=
      (hfailures.reported hl hwritten hread).congr fun _ _ => mentions_withDimensions
    refine ⟨hname, fun x hx => ?_, hreported, fun hlast => hreported.congr fun _ _ =>
      mentions_last hlast⟩
    obtain ⟨e, hexcused, rfl⟩ := hfailures.exists_error x hx
    exact ModelError.diagnostic_isUnknownSymbol (honest.isUnknownSymbol hexcused) _

end World

namespace Client

variable (token : SessionToken) (files : Batch) (provider : Provider) (config : ModelConfig)

/-- **Unresolved class types in fields are reported.** In the stubs of elements that are made from
    trees, and in those nested in them, each class type in the type of a field that is not private
    resolves, or its error is reported as a warning of an unknown symbol, and nothing else is
    reported of the field. This goes for all class types in it, if only last segments have
    arguments, and otherwise for those that are not in an argument of a segment before the last
    one. -/
theorem fields_reported (honest : provider.Honest) (questions : List Question)
    {ids : List ElementId} {ds : List DeclId} :
    let s : Session := ((start token files provider config).askAll questions).session
    List.Forall₂ s.Declares ids ds →
    ∃ stubs reported t,
      ((ids.mapM (extract files)).run #[]).run.run s = (.ok (stubs, reported), t) ∧
      (world token files provider config).AllExtracted
        ((world token files provider config).fieldAccount t.HoldsList) ds stubs
        reported.toList := by
  intro s hids
  obtain ⟨stubs, reported, t, hrun, ht, hstubs⟩ :=
    extracts token files provider config questions hids
  refine ⟨stubs, reported, t, hrun, hstubs.mono ?_⟩
  exact World.account_entails_fieldAccount honest World.indexed_of_client.trees
    fun _ _ _ h h' => h.unique ht.resolved.sound h'

/-- The messages of what is reported when stubs are extracted. -/
def reportedMessages (files : Batch) (ids : List ElementId) : SessionM (List String) := do
  let (_, reported) ← (ids.mapM (extract files)).run #[]
  return reported.toList.map Diagnostic.message

/-- Class types in a component and in a bound, and in a nested stub, and in a private field. -/
theorem fields_reported_nested :
    let files : Batch := #[⟨"A.java", "package p; class Box<T> {} " ++
      "class A { Box<? extends M[]> x[]; private N y; static class C { Box<J> f; } }"⟩]
    let s : Session := ((start 0 files onlyObject {}).askAll [.lookupType "p.A"]).session
    onlyObject.Honest ∧ List.Forall₂ s.Declares [1] [1] ∧
      (∃ stubs reported t,
        (([1].mapM (extract files)).run #[]).run.run s = (.ok (stubs, reported), t) ∧
        (world 0 files onlyObject {}).AllExtracted
          ((world 0 files onlyObject {}).fieldAccount t.HoldsList) [1] stubs reported.toList) ∧
      ((reportedMessages files [1]).run.run s).1 =
        .ok ["cannot find symbol `M`", "cannot find symbol `J`"] := by
  intro files s
  have hids : List.Forall₂ s.Declares [1] [1] := .cons (by decide +kernel) .nil
  exact ⟨onlyObject_honest, hids, fields_reported 0 files onlyObject {} onlyObject_honest _ hids,
    by decide +kernel⟩

/-- The outcome of an argument that stands before the last segment of the type of a variable, in the
    scope inside an element. -/
def resolveOuterArgument (w : World) (id : ElementId) (d : DeclId) (m number : Nat) :
    SessionM (Option (Except ModelError (Option ElementId))) := do
  match w.fieldType? d m number, ← (scopeOf id).run with
  | some (.classType (.mk _ (arg :: _) :: _ :: _) _), .ok sc =>
    return some (← (elementOfType (← typeOf directSupertypes sc arg)).run)
  | _, _ => return none

/-- **An argument that is not reported**: it stands before the last segment, and does not
    resolve. -/
theorem outer_argument_unreported :
    let files : Batch := #[⟨"A.java", "package p; class Outer<T> { class Inner {} } " ++
      "class A { Outer<M>.Inner x; }"⟩]
    let w : World := world 0 files onlyObject {}
    let s : Session := ((start 0 files onlyObject {}).askAll [.lookupType "p.A"]).session
    onlyObject.Honest ∧ (parseBatch files).2.2 = [] ∧ s.Declares 1 2 ∧
      ((resolveOuterArgument w 1 2 0 0).run.run s).1 =
        .ok (some (.error (.unknownSymbol "M" (some ⟨some 0, 61, 62⟩)))) ∧
      ((reportedMessages files [1]).run.run s).1 = .ok [] := by
  exact ⟨onlyObject_honest, by decide +kernel⟩

end Client

end JavaAbi
