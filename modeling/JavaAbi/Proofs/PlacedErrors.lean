import JavaAbi.Proofs.ClientAnswers
import JavaAbi.Proofs.ListedInterfaces
import JavaAbi.Proofs.RaisedErrors
import JavaAbi.Proofs.RenderedTypes
import Mathlib.Data.List.DropRight

namespace JavaAbi

/-!
# Places of unknown symbols

Looking up a name, searching for a member type and following a path fail without a place. A place is
given once, on the way out: to the error of a reference that of the reference, and to the error of a
supertype that nothing writes that of the name of the declaration. What is kept of the name does not
have the place, so it does not matter for which reference the name was looked up first.

* `ModelError.Unplaced`, `ModelError.PlacedAt` — what is said of the places of errors;
* `World.resolvePath_unplaced`, `World.resolveReference_placed` — errors of paths and references;
* `World.declaredSuperclass_placed`, `World.finds_declaredInterfaces` — errors of supertypes;
* `TypeRef.ReadFor` — a type next to what is written for it;
* `Client.unknown_symbols_placed` — where clients are told that unknown symbols are.
-/

variable {w : World} {s t : Session} {lists : Symbol → List Symbol → Prop} {α β : Type}

/-! ### Errors with and without a place -/

/-- The error has no place. -/
def ModelError.Unplaced (e : ModelError) : Prop := e.span? = none

/-- The error, if it is an unknown symbol, is at `place`. -/
def ModelError.PlacedAt (place : Span) (e : ModelError) : Prop :=
  ∀ n p, e = .unknownSymbol n p → p = some place

/-- **An error that has no place is given one.** -/
theorem ModelError.Unplaced.located {e : ModelError} (h : e.Unplaced) (place : Span) :
    (e.located place).PlacedAt place := by
  intro n p he
  cases e with
  | unknownSymbol m q =>
    obtain rfl : q = none := h
    exact ((ModelError.unknownSymbol.injEq ..).mp he).2.symm
  | _ => cases he

/-- A place is given on the way out. -/
theorem Rule.Raises.located {rule : Rule α} (h : rule.Raises ModelError.Unplaced) (place : Span) :
    (tryCatch rule fun e => MonadExcept.throw (e.located place)).Raises
      (ModelError.PlacedAt place) :=
  h.handle fun _ he => .throw (he.located place)

namespace World

/-! ### Look-ups -/

/-- **The error of a look-up has no place.** -/
theorem lookup_unplaced (name : String) (e : ModelError) (h : w.lookup name = .error e) :
    e.Unplaced := by
  rcases lookupOutcome_error name (lookupOutcome_of_lookup h) with rfl | ⟨_, _, -, -, rfl⟩ <;> rfl

theorem tryLookup_unplaced (name : String) (e : ModelError) (h : w.tryLookup name = .error e) :
    e.Unplaced := by
  rw [tryLookup] at h
  cases hl : w.lookup name with
  | ok symbol =>
    rw [hl] at h
    cases h
  | error e' =>
    rw [hl] at h
    dsimp only at h
    split at h
    · cases h
    · cases h
      exact lookup_unplaced name _ hl

/-! ### Paths -/

theorem memberOf_unplaced (owner : Symbol) (simple : Name) :
    (w.memberOf owner simple).Raises ModelError.Unplaced := by
  unfold memberOf
  refine Rule.Raises.bind (.ofExcept fun _ => declaredMember_raises tryLookup_unplaced)
    fun found => ?_
  cases found with
  | some member => exact .pure member
  | none =>
    refine (inherited_raises tryLookup_unplaced owner simple).bind fun found => ?_
    cases found with
    | some member => exact .pure member
    | none => exact .throw rfl

/-- **The errors of a path have no place.** -/
theorem resolvePath_unplaced (sc : ScopeView) (path : List Name) :
    (w.resolvePath sc path).Raises ModelError.Unplaced := by
  unfold resolvePath
  cases path with
  | nil => exact .throw rfl
  | cons first rest =>
    refine (resolveSimple_raises tryLookup_unplaced sc first).bind fun found => ?_
    cases found with
    | some symbol => exact .foldlM memberOf_unplaced rest symbol
    | none =>
      dsimp only
      split
      · exact .throw rfl
      · split
        · exact .ofExcept (lookup_unplaced _)
        · exact .throw rfl

/-- **An unknown symbol is where the reference is.** -/
theorem resolveReference_placed (r : ReferenceView) :
    (w.resolveReference r).Raises (ModelError.PlacedAt r.span) :=
  (resolvePath_unplaced r.scope r.path).located r.span

/-! ### Supertypes -/

/-- The element of a type that is written is looked for where the type is written. -/
theorem resolveType_placed {sc : ScopeView} {type : TypeRef} {v : TypeView}
    (h : (w.typeOf sc type).Finds lists v) :
    (w.resolveType v).Raises (ModelError.PlacedAt type.span) := by
  cases type with
  | classType segments place =>
    rcases finds_classType h with ⟨_, _, -, -, rfl⟩ | ⟨found, -, rfl, -⟩
    · exact .pure none
    · cases hlast : found.getLast? with
      | none =>
        rw [List.getLast?_eq_none_iff.1 hlast]
        exact .pure none
      | some last =>
        obtain ⟨path, enclosing, htype, -⟩ := enclosedTypes_last sc place [] .absent hlast
        rw [htype]
        exact (resolveReference_placed _).bind fun _ => .pure _
  | array | wildcardExtends | wildcardSuper =>
    rw [typeOf] at h
    obtain ⟨inner, -, h⟩ := h.bind_inv
    cases h.pure_inv
    exact .pure none
  | primitive | void | wildcard | error =>
    rw [typeOf] at h
    cases h.pure_inv
    exact .pure none

/-- **An unknown supertype is where the clause writes it.** -/
theorem supertype_placed (sc : ScopeView) (type : TypeRef) :
    (w.supertype sc type).Raises (ModelError.PlacedAt type.span) := by
  intro lists e h
  unfold supertype at h
  obtain ⟨v, hv, h⟩ := Rule.finds_lift_inv h
  have hresolved : (do let _ ← w.resolveType v; return v : Rule TypeView).Raises
      (ModelError.PlacedAt type.span) := (resolveType_placed hv).bind fun _ => .pure v
  cases v with
  | error =>
    cases h.pure_inv
    exact nofun
  | _ => exact hresolved lists e h

theorem plainType_placed (place : Span) (name : String) :
    (w.plainType place name).Raises (ModelError.PlacedAt place) :=
  (Rule.Raises.located (.ofExcept (lookup_unplaced _)) place).bind fun _ => .pure _

end World

/-- Where the superclass of a declaration stands: in the clause of a class that has one, and else
    with the name of the declaration. -/
def DeclHead.superclassPlace (h : DeclHead) : Span :=
  match h.kind, h.extended with
  | .classType, written :: _ => written.span
  | _, _ => h.nameSpan

namespace World

/-- **An unknown superclass is where it is written**, or where the declaration is named. -/
theorem declaredSuperclass_placed (d : DeclId) {i : DeclInfo} {h : DeclHead}
    (hplace : i.nameSpan = h.nameSpan) :
    (w.declaredSuperclass d i h).Raises (ModelError.PlacedAt h.superclassPlace) := by
  have hname (hkind : h.kind ≠ .classType) : h.superclassPlace = i.nameSpan := by
    rw [hplace, DeclHead.superclassPlace]
    split
    · rename_i hclass _
      exact absurd hclass hkind
    · rfl
  unfold declaredSuperclass
  split
  · exact .pure _
  split
  · split
    · exact .pure _
    · exact .throw nofun
  split
  · rename_i henum
    rw [hname (by rw [henum]; decide)]
    exact (Rule.Raises.located (.ofExcept (lookup_unplaced _)) _).bind fun _ => .pure _
  split
  · rename_i hrecord
    rw [hname (by rw [hrecord]; decide)]
    exact plainType_placed _ _
  split
  · exact .pure _
  · rename_i hinterface _ henum hrecord _
    -- Only a class can have an `extends` clause with one type, and the place is that of the clause.
    have hclass : h.kind = .classType := by
      cases hkind : h.kind <;> simp_all
    split
    · rename_i written rest hextended
      rw [DeclHead.superclassPlace, hclass, hextended]
      exact supertype_placed _ _
    · rename_i hextended
      have hfree : h.superclassPlace = i.nameSpan := by
        rw [hplace, DeclHead.superclassPlace, hclass, hextended]
      rw [hfree]
      exact plainType_placed _ _

/-- **The first type that does not resolve**, of those that a clause writes, is an unknown symbol where
    it is written. -/
inductive FailsFirst (w : World) (lists : Symbol → List Symbol → Prop) (sc : ScopeView) :
    List TypeRef → String → Option Span → Prop
  | at {before after : List TypeRef} {r : TypeRef} {n : String}
      (resolve : ∀ q ∈ before, ∃ v, (w.supertype sc q).run.Finds lists (.ok v))
      (fails : (w.supertype sc r).run.Finds lists (.error (.unknownSymbol n (some r.span)))) :
      FailsFirst w lists sc (before ++ r :: after) n (some r.span)

/-- **An unknown interface** is the first one that fails, where it is written; that of an annotation
    type, which nothing writes, is where the type is named. -/
theorem finds_declaredInterfaces {d : DeclId} {i : DeclInfo} {h : DeclHead} {n : String}
    {p : Option Span} (hplace : i.nameSpan = h.nameSpan)
    (hf : (w.declaredInterfaces d i h).run.Finds lists (.error (.unknownSymbol n p))) :
    if h.kind = .annotationType then p = some h.nameSpan
    else w.FailsFirst lists (w.headerScopeOf d) h.interfaces n p := by
  unfold declaredInterfaces at hf
  split at hf
  · rename_i hkind
    rw [if_pos hkind, ← hplace]
    have hbase : (do return [← w.plainType i.nameSpan (w.text w.wellKnown.annotationBase)] :
        Rule (List TypeView)).Raises (ModelError.PlacedAt i.nameSpan) :=
      (plainType_placed _ _).bind fun _ => .pure _
    exact hbase lists _ hf n p rfl
  · rename_i hkind
    rw [if_neg hkind]
    rcases Rule.finds_mapM hf with ⟨_, hok, -⟩ |
      ⟨before, r, after, types, e, hsplit, hbefore, hr, herror⟩
    · cases hok
    · cases herror
      obtain rfl := supertype_placed _ r lists _ hr n p rfl
      rw [DeclHead.interfaces, hsplit]
      refine .at (fun q hq => ?_) hr
      obtain ⟨v, -, hv⟩ := forall₂_mem_left hbefore q hq
      exact ⟨v, hv⟩

end World

/-! ### Types next to what is written -/

/-- The segments up to the last one that has arguments. -/
def ClassSegment.upToArgs (segments : List ClassSegment) : List ClassSegment :=
  segments.rdropWhile fun seg => seg.args.isEmpty

/-- The segments of a class type that write the type around it: of those before the last one, up to
    the last one that has arguments. -/
def ClassSegment.around (segments : List ClassSegment) : List ClassSegment :=
  upToArgs segments.dropLast

/-- **A type next to what is written for it**, part for part. Of every class or interface type in it,
    at any depth, `P` is so for the place where it is written. -/
inductive TypeRef.ReadFor (P : Span → ModelType → Prop) : TypeRef → ModelType → Prop
  | primitive {p : PrimitiveType} {place : Span} : ReadFor P (.primitive p place) (.primitive p)
  | void {place : Span} : ReadFor P (.void place) .void
  | error {place : Span} : ReadFor P (.error place) .error
  | array {component : TypeRef} {type : ModelType} {place : Span} (inner : ReadFor P component type) :
      ReadFor P (.array component place) (.array type)
  | wildcard {place : Span} : ReadFor P (.wildcard place) (.wildcard none none)
  | upper {bound : TypeRef} {type : ModelType} {place : Span} (inner : ReadFor P bound type) :
      ReadFor P (.wildcardExtends bound place) (.wildcard (some type) none)
  | lower {bound : TypeRef} {type : ModelType} {place : Span} (inner : ReadFor P bound type) :
      ReadFor P (.wildcardSuper bound place) (.wildcard none (some type))
  | parameter {only : ClassSegment} {place : Span} {name : Name} {owner : ElementId} :
      ReadFor P (.classType [only] place) (.typeVariable name owner)
  | classType {segments : List ClassSegment} {place : Span} {origin : SessionToken} {cell : Nat}
      {reference : TypeReference} {args : List ModelType} {enclosing : ModelType}
      (path : reference.path = segments.map ClassSegment.name)
      (here : P place (.declared origin (.written cell reference) args enclosing))
      (arguments : List.Forall₂ (ReadFor P) (ClassSegment.lastArgs segments) args)
      (outermost : ClassSegment.around segments = [] → enclosing = .absent)
      (outer : ClassSegment.around segments ≠ [] →
        ReadFor P (.classType (ClassSegment.around segments) place) enclosing) :
      ReadFor P (.classType segments place) (.declared origin (.written cell reference) args enclosing)

/-! ### Types that were read -/

section ReadFor

variable {P : Span → ModelType → Prop} {sc : ScopeView} {place : Span} {base : NameTable}

/-- `P` is so of every class or interface type that is written, for the place of its reference. -/
def SaidOfWritten (P : Span → ModelType → Prop) : Prop :=
  ∀ origin cell reference args enclosing,
    P reference.span (.declared origin (.written cell reference) args enclosing)

/-- The type around that was read for the segments before the next one. -/
def Session.ReadAround (s : Session) (P : Span → ModelType → Prop) (place : Span)
    (front : List ClassSegment) (v : TypeView) : Prop :=
  ∀ type, s.view type = v →
    (ClassSegment.upToArgs front = [] → type = .absent) ∧
      (ClassSegment.upToArgs front ≠ [] →
        TypeRef.ReadFor P (.classType (ClassSegment.upToArgs front) place) type)

/-- A segment next to what was read for it. -/
structure Session.ReadSegment (s : Session) (P : Span → ModelType → Prop) (seg : ClassSegment)
    (x : Name × List TypeView) : Prop where
  name : x.1 = seg.name
  isEmpty : x.2.isEmpty = seg.args.isEmpty
  args : ∀ types, s.viewAll types = x.2 → List.Forall₂ (TypeRef.ReadFor P) seg.args types

theorem ClassSegment.around_concat (front : List ClassSegment) (last : ClassSegment) :
    around (front ++ [last]) = upToArgs front := by
  rw [around, List.dropLast_concat]

theorem ClassSegment.upToArgs_concat (front : List ClassSegment) (last : ClassSegment) :
    upToArgs (front ++ [last]) = if last.args.isEmpty then upToArgs front else front ++ [last] :=
  List.rdropWhile_concat _ _ _

theorem ClassSegment.lastArgs_concat (front : List ClassSegment) (last : ClassSegment) :
    lastArgs (front ++ [last]) = last.args := by
  rw [lastArgs, List.getLast?_concat]
  rfl

/-- A declared type for the segments up to one that was read. -/
theorem Session.ReadSegment.readFor
    (hP : SaidOfWritten P)
    {front : List ClassSegment} {seg : ClassSegment} {x : Name × List TypeView} {v : TypeView}
    (h : s.ReadSegment P seg x)
    (haround : s.ReadAround P place front v)
    {type : ModelType}
    (htype : s.view type =
      .declared (.written ⟨sc, front.map ClassSegment.name ++ [x.1], place⟩) x.2 v) :
    TypeRef.ReadFor P (.classType (front ++ [seg]) place) type := by
  obtain ⟨origin, cell, reference, args, enclosing, rfl, hreference⟩ := s.view_eq_written htype
  rw [Session.view] at htype
  obtain ⟨-, hargs, henclosing⟩ := TypeView.declared.inj htype
  have hspan : reference.span = place := congrArg ReferenceView.span hreference
  have hpath : reference.path = (front ++ [seg]).map ClassSegment.name := by
    rw [List.map_append, List.map_singleton, ← h.name]
    exact congrArg ReferenceView.path hreference
  have hencl := haround enclosing henclosing
  refine .classType hpath (hspan ▸ hP ..) ?_ ?_ ?_
  · rw [ClassSegment.lastArgs_concat]
    exact h.args args hargs
  · rw [ClassSegment.around_concat]
    exact hencl.1
  · rw [ClassSegment.around_concat]
    exact hencl.2

/-- **The types of segments** are read one around the other. -/
theorem Session.readFor_enclosedTypes
    (hP : SaidOfWritten P)
    {rest : List ClassSegment} {found : List (Name × List TypeView)}
    (h : List.Forall₂ (s.ReadSegment P) rest found) (hrest : rest ≠ []) {front : List ClassSegment}
    {v : TypeView}
    (haround : s.ReadAround P place front v)
    {type : ModelType}
    (htype : s.view type =
      World.enclosedTypes sc place (front.map ClassSegment.name) v found) :
    TypeRef.ReadFor P (.classType (front ++ rest) place) type := by
  induction h generalizing front v with
  | nil => exact absurd rfl hrest
  | @cons seg x rest found hseg hfound ih =>
    rw [World.enclosedTypes] at htype
    have hnames : front.map ClassSegment.name ++ [x.1] =
        (front ++ [seg]).map ClassSegment.name := by
      rw [List.map_append, List.map_singleton, hseg.name]
    cases hfound with
    | nil => exact hseg.readFor hP haround htype
    | @cons next y rest found hnext hfound =>
      rw [List.append_cons]
      rw [hseg.isEmpty] at htype
      by_cases hempty : seg.args.isEmpty = true
      · -- A segment without arguments is but a part of the path, so the type around stays.
        have haround' : s.ReadAround P place (front ++ [seg]) v := by
          rw [Session.ReadAround, ClassSegment.upToArgs_concat, if_pos hempty]
          exact haround
        rw [hempty] at htype
        exact ih (List.cons_ne_nil _ _) haround' (hnames ▸ htype)
      · -- the segment has arguments, so there is a type for the segments up to it
        have haround' : s.ReadAround P place (front ++ [seg])
            (.declared (.written ⟨sc, front.map ClassSegment.name ++ [x.1], place⟩) x.2 v) := by
          rw [Session.ReadAround, ClassSegment.upToArgs_concat, if_neg hempty]
          exact fun type' htype' => ⟨fun h => absurd h (by simp), fun _ =>
            hseg.readFor hP haround htype'⟩
        rw [Bool.not_eq_true] at hempty
        rw [hempty] at htype
        refine ih (List.cons_ne_nil _ _) haround' ?_
        rw [← hnames]
        exact htype

theorem World.finds_typesOf_isEmpty {types : List TypeRef} {vs : List TypeView}
    (h : (w.typesOf sc types).Finds lists vs) : vs.isEmpty = types.isEmpty := by
  cases types with
  | nil =>
    rw [World.typesOf] at h
    cases h.pure_inv
    rfl
  | cons type rest =>
    obtain ⟨_, _, -, -, rfl⟩ := World.finds_typesOf_cons h
    rfl

mutual

/-- **A type that looks as what is written is read** for it. -/
theorem Session.readFor_of_finds (hP : SaidOfWritten P) {written : TypeRef} {type : ModelType}
    (hw : written.Sound base) (h : (w.typeOf sc written).Finds lists (s.view type)) :
    written.ReadFor P type := by
  match written with
  | .primitive p _ =>
    rw [World.typeOf] at h
    have hv := h.pure_inv
    cases type with
    | primitive q =>
      rw [Session.view] at hv
      cases hv
      exact .primitive
    | _ => rw [Session.view] at hv; cases hv
  | .void _ =>
    rw [World.typeOf] at h
    have hv := h.pure_inv
    cases type with
    | void => exact .void
    | _ => rw [Session.view] at hv; cases hv
  | .error _ =>
    rw [World.typeOf] at h
    have hv := h.pure_inv
    cases type with
    | error => exact .error
    | _ => rw [Session.view] at hv; cases hv
  | .wildcard _ =>
    rw [World.typeOf] at h
    -- A wildcard without bounds, then those with one of the two.
    obtain ⟨upper, lower, rfl, hupper, hlower⟩ := s.view_eq_wildcard h.pure_inv
    cases upper <;> cases hupper
    cases lower <;> cases hlower
    exact .wildcard
  | .array component _ =>
    rw [World.typeOf] at h
    obtain ⟨v, hv, h⟩ := h.bind_inv
    obtain ⟨inner, rfl, rfl⟩ := s.view_eq_array h.pure_inv
    exact .array (readFor_of_finds hP (by cases hw; assumption) hv)
  | .wildcardExtends bound _ =>
    rw [World.typeOf] at h
    obtain ⟨v, hv, h⟩ := h.bind_inv
    obtain ⟨upper, lower, rfl, hupper, hlower⟩ := s.view_eq_wildcard h.pure_inv
    cases lower <;> cases hlower
    cases upper with
    | none => cases hupper
    | some inner =>
      cases hupper
      exact .upper (readFor_of_finds hP (by cases hw; assumption) hv)
  | .wildcardSuper bound _ =>
    rw [World.typeOf] at h
    obtain ⟨v, hv, h⟩ := h.bind_inv
    obtain ⟨upper, lower, rfl, hupper, hlower⟩ := s.view_eq_wildcard h.pure_inv
    cases upper <;> cases hupper
    cases lower with
    | none => cases hlower
    | some inner =>
      cases hlower
      exact .lower (readFor_of_finds hP (by cases hw; assumption) hv)
  | .classType segments place =>
    obtain ⟨hfilled, hargs⟩ : segments ≠ [] ∧ ∀ seg ∈ segments, ∀ a ∈ seg.args, a.Sound base := by
      cases hw with
      | classType _ _ filled _ args => exact ⟨filled, args⟩
    rcases World.finds_classType h with ⟨only, owner, rfl, -, hv⟩ | ⟨found, hfound, hv, -⟩
    · obtain ⟨name, id, rfl, -, -⟩ := s.view_eq_typeVariable hv
      exact .parameter
    · -- The segments are gone through with the types around them; around the first one is nothing.
      have hnothing : s.ReadAround P place [] .absent := fun type' htype' =>
        ⟨fun _ => s.view_eq_absent htype', fun h => absurd rfl h⟩
      exact Session.readFor_enclosedTypes hP (readSegments_of_finds hP hargs hfound) hfilled hnothing hv

theorem Session.readSegments_of_finds (hP : SaidOfWritten P) {segments : List ClassSegment}
    {found : List (Name × List TypeView)} (hw : ∀ seg ∈ segments, ∀ a ∈ seg.args, a.Sound base)
    (h : (w.segmentsOf sc segments).Finds lists found) :
    List.Forall₂ (s.ReadSegment P) segments found := by
  match segments with
  | [] =>
    rw [World.segmentsOf] at h
    cases h.pure_inv
    exact .nil
  | .mk name args :: rest =>
    obtain ⟨later, views, hlater, hviews, rfl⟩ := World.finds_segmentsOf_cons h
    have hargs : ∀ types, s.viewAll types = views → List.Forall₂ (TypeRef.ReadFor P) args types :=
      fun types htypes => readAll_of_finds hP (hw _ List.mem_cons_self) (htypes ▸ hviews)
    exact .cons ⟨rfl, World.finds_typesOf_isEmpty hviews, hargs⟩
      (readSegments_of_finds hP (fun seg hseg => hw seg (List.mem_cons_of_mem _ hseg)) hlater)

theorem Session.readAll_of_finds (hP : SaidOfWritten P) {written : List TypeRef} {types : List ModelType}
    (hw : ∀ r ∈ written, r.Sound base) (h : (w.typesOf sc written).Finds lists (s.viewAll types)) :
    List.Forall₂ (TypeRef.ReadFor P) written types := by
  match written with
  | [] =>
    rw [World.typesOf] at h
    have hv := h.pure_inv
    cases types with
    | nil => exact .nil
    | cons => cases hv
  | r :: rest =>
    obtain ⟨first, views, hfirst, hviews, hv⟩ := World.finds_typesOf_cons h
    cases types with
    | nil => cases hv
    | cons type types =>
      obtain ⟨rfl, rfl⟩ := List.cons.inj hv
      exact .cons (readFor_of_finds hP (hw r List.mem_cons_self) hfirst)
        (readAll_of_finds hP (fun q hq => hw q (List.mem_cons_of_mem _ hq)) hviews)

end

end ReadFor

/-! ### Clients -/

/-- The type that is written for a variable is sound. -/
theorem World.fieldType?_sound {base : NameTable} {clean : Prop} {d : DeclId} {m number : Nat}
    {written : TypeRef} (h : ∀ u ∈ w.units, u.Sound base clean)
    (hwritten : w.fieldType? d m number = some written) : written.Sound base := by
  rw [fieldType?] at hwritten
  split at hwritten
  · rename_i f hm
    have hfield := World.member_sound h (d := d) (m := m) hm
    rw [Member.Sound] at hfield
    obtain ⟨v, -, rfl⟩ := Option.map_eq_some_iff.1 hwritten
    exact hfield.type.withDimensions v.span v.dims
  · cases hwritten

namespace Client

variable {c : Client} {id : ElementId} {d : DeclId} {tree : TypeDecl} {n : String}
  {p : Option Span}

/-- An unknown superclass is where the superclass stands. -/
theorem ask_superclass_placed (h : c.Fits w) (hid : c.session.Declares id d)
    (htree : w.index.tree? w.units d = some tree)
    (hask : (c.ask (.superclass id)).1 = .unanswered (.unknownSymbol n p)) :
    p = some tree.head.superclassPlace := by
  have hs := h.idle.resolved
  obtain ⟨hshow, hdecl⟩ := hid.shows hs
  obtain ⟨i, hi, hat⟩ := Option.bind_eq_some_iff.1 htree
  have hplace := (hs.world.index.infos d i hi).nameSpan tree hat
  rcases ask_superclass h hshow with ⟨_, _, hok, -⟩ | ⟨e, he, hrule⟩
  · cases hok.symm.trans hask
  · cases he.symm.trans hask
    have hfound := hrule.held
    rw [World.superclassOf, hdecl] at hfound
    dsimp only at hfound
    rw [hi, htree] at hfound
    exact World.declaredSuperclass_placed d hplace _ _ hfound n p rfl

/-- An unknown interface is the first one that fails, or that of an annotation type. -/
theorem ask_interfaces_placed (h : c.Fits w) (hid : c.session.Declares id d)
    (htree : w.index.tree? w.units d = some tree)
    (hask : (c.ask (.interfaces id)).1 = .unanswered (.unknownSymbol n p)) :
    if tree.head.kind = .annotationType then p = some tree.head.nameSpan
    else w.FailsFirst (c.ask (.interfaces id)).2.session.HoldsList (w.headerScopeOf d)
      tree.head.interfaces n p := by
  have hs := h.idle.resolved
  obtain ⟨hshow, hdecl⟩ := hid.shows hs
  obtain ⟨i, hi, hat⟩ := Option.bind_eq_some_iff.1 htree
  have hplace := (hs.world.index.infos d i hi).nameSpan tree hat
  rcases ask_interfaces h hshow with ⟨_, _, hok, -⟩ | ⟨e, he, hrule⟩
  · cases hok.symm.trans hask
  · cases he.symm.trans hask
    have hfound := hrule.held
    rw [World.interfacesOf, hdecl] at hfound
    dsimp only at hfound
    rw [hi, htree] at hfound
    exact World.finds_declaredInterfaces hplace hfound

/-- Wherever a client received a type, an unknown symbol for its element is at `place`. -/
def PlacesElement (c : Client) (place : Span) (type : ModelType) : Prop :=
  ∀ (more : List Question) (i : Nat) (n : String) (p : Option Span),
    (c.askAll more).types[i]? = some type →
    ((c.askAll more).ask (.elementOf i)).1 = .unanswered (.unknownSymbol n p) → p = some place

/-- The element of a type that is written is looked for where its reference is. -/
theorem saidOfWritten_placesElement (h : c.Fits w) : SaidOfWritten c.PlacesElement := by
  intro origin cell reference args enclosing more i n p hi hask
  rcases ask_elementOf (fits_askAll h more).1 hi with ⟨_, _, hok, -⟩ | ⟨e, he, hrule⟩
  · cases hok.symm.trans hask
  · cases he.symm.trans hask
    have hplaced : (w.resolveType ((c.askAll more).session.view
        (.declared origin (.written cell reference) args enclosing))).Raises
          (ModelError.PlacedAt reference.span) :=
      (World.resolveReference_placed reference.view).bind fun _ => .pure _
    exact hplaced _ _ hrule.held n p rfl

/-- The type of a variable is read for what is written. -/
theorem ask_ownType_placed (h : c.Fits w) {m number : Nat} {written : TypeRef}
    (hid : c.session.Shows (.field d m number) id) (hwritten : w.fieldType? d m number = some written) :
    ∃ type, (c.ask (.ownType id)).1 = .types [type] ∧
      written.ReadFor (c.ask (.ownType id)).2.PlacesElement type := by
  obtain ⟨type, htype, hown⟩ := ask_ownType h hid
  refine ⟨type, htype, ?_⟩
  have hfits := (fits_ask h (.ownType id)).1
  have hread := hown.held (w.typeOf (w.scopeOf d) written) (by
    rw [World.reading?, hwritten]
    rfl)
  exact Session.readFor_of_finds (saidOfWritten_placesElement hfits)
    (World.fieldType?_sound h.idle.resolved.world.trees hwritten) hread

variable (token : SessionToken) (files : Batch) (provider : Provider) (config : ModelConfig)
  (questions : List Question)

/-- **Unknown symbols are placed where they are written**, after any questions. An unknown superclass
    is where the class extends it, or where the declaration is named if nothing is written. An unknown
    interface is the first one that fails, where it is written; that of an annotation type is where
    the type is named. The type of a variable is read part for part, and for every class or interface
    type in it an unknown symbol is where that class type is written, whatever is asked in between. -/
theorem unknown_symbols_placed :
    let c : Client := (start token files provider config).askAll questions
    let w : World := world token files provider config
    (∀ id d tree, c.session.Declares id d → w.index.tree? w.units d = some tree →
      (∀ n p, (c.ask (.superclass id)).1 = .unanswered (.unknownSymbol n p) →
        p = some tree.head.superclassPlace) ∧
      ∀ n p, (c.ask (.interfaces id)).1 = .unanswered (.unknownSymbol n p) →
        if tree.head.kind = .annotationType then p = some tree.head.nameSpan
        else w.FailsFirst (c.ask (.interfaces id)).2.session.HoldsList (w.headerScopeOf d)
          tree.head.interfaces n p) ∧
    ∀ id d m number written, c.session.Shows (.field d m number) id →
      w.fieldType? d m number = some written →
      ∃ type, (c.ask (.ownType id)).1 = .types [type] ∧
        written.ReadFor (c.ask (.ownType id)).2.PlacesElement type := by
  intro c w
  have h : c.Fits w := fits_asked token files provider config questions
  refine ⟨fun id d tree hid htree => ⟨fun n p hask => ?_, fun n p hask => ?_⟩, ?_⟩
  · exact ask_superclass_placed h hid htree hask
  · exact ask_interfaces_placed h hid htree hask
  · exact fun id d m number written hid hwritten => ask_ownType_placed h hid hwritten

/-- A class that names an unknown type as its superclass and twice in the type of a variable. -/
def naming : Batch :=
  #[⟨"A.java", "package p; class A extends M implements J, N { J<M, M> f; } interface J<S, T> {}"⟩]

/-- Each mention of the unknown type has its own place, whichever was looked up first. -/
theorem unknown_symbols_placed_apart :
    let w : World := world 0 naming onlyObject {}
    let c : Client := (start 0 naming onlyObject {}).askAll
      [.lookupType "p.A", .superclass 1, .interfaces 1, .enclosed 1]
    let d : Client := (c.ask (.ownType 3)).2
    ∃ tree written type,
      (c.session.Declares 1 0 ∧ w.index.tree? w.units 0 = some tree ∧
        c.session.Shows (.field 0 0 0) 3 ∧ w.fieldType? 0 0 0 = some written) ∧
      ((c.ask (.superclass 1)).1 = .unanswered (.unknownSymbol "M" (some ⟨some 0, 27, 28⟩)) ∧
        tree.head.superclassPlace = ⟨some 0, 27, 28⟩) ∧
      ((c.ask (.interfaces 1)).1 = .unanswered (.unknownSymbol "N" (some ⟨some 0, 43, 44⟩)) ∧
        w.FailsFirst (c.ask (.interfaces 1)).2.session.HoldsList (w.headerScopeOf 0)
          tree.head.interfaces "N" (some ⟨some 0, 43, 44⟩)) ∧
      ((c.ask (.ownType 3)).1 = .types [type] ∧ written.ReadFor d.PlacesElement type) ∧
      ((d.askAll [.parts 0]).ask (.elementOf 2)).1 =
        .unanswered (.unknownSymbol "M" (some ⟨some 0, 49, 50⟩)) ∧
      ((d.askAll [.parts 0, .elementOf 2]).ask (.elementOf 3)).1 =
        .unanswered (.unknownSymbol "M" (some ⟨some 0, 52, 53⟩)) := by
  intro w c d
  obtain ⟨hdeclares, htree, hdenotes, hwritten, hkind, hm, hn, hfirst, hsecond⟩ :
      c.session.Declares 1 0 ∧ (w.index.tree? w.units 0).isSome ∧
        c.session.Denotes (.field 0 0 0) 3 ∧ (w.fieldType? 0 0 0).isSome ∧
        ((w.index.tree? w.units 0).map fun tree => tree.head.kind) = some .classType ∧
        (c.ask (.superclass 1)).1.error? = some (.unknownSymbol "M" (some ⟨some 0, 27, 28⟩)) ∧
        (c.ask (.interfaces 1)).1.error? = some (.unknownSymbol "N" (some ⟨some 0, 43, 44⟩)) ∧
        ((d.askAll [.parts 0]).ask (.elementOf 2)).1.error? =
          some (.unknownSymbol "M" (some ⟨some 0, 49, 50⟩)) ∧
        ((d.askAll [.parts 0, .elementOf 2]).ask (.elementOf 3)).1.error? =
          some (.unknownSymbol "M" (some ⟨some 0, 52, 53⟩)) := by
    unfold Session.Denotes
    decide +kernel
  obtain ⟨tree, htree⟩ := Option.isSome_iff_exists.1 htree
  obtain ⟨written, hwritten⟩ := Option.isSome_iff_exists.1 hwritten
  have hshow : c.session.Shows (.field 0 0 0) 3 := ⟨_, hdenotes, rfl⟩
  obtain ⟨hdeclared, hfields⟩ := unknown_symbols_placed 0 naming onlyObject {}
    [.lookupType "p.A", .superclass 1, .interfaces 1, .enclosed 1]
  obtain ⟨hsuperclass, hinterfaces⟩ := hdeclared 1 0 tree hdeclares htree
  obtain ⟨type, htype, hread⟩ := hfields 3 0 0 0 written hshow hwritten
  replace hm := Reply.eq_unanswered hm
  replace hn := Reply.eq_unanswered hn
  rw [htree] at hkind
  have hannotation : tree.head.kind ≠ .annotationType := by
    rw [show tree.head.kind = .classType from Option.some.inj hkind]
    decide
  have hplace := Option.some.inj (hsuperclass _ _ hm)
  have hfails := hinterfaces _ _ hn
  rw [if_neg hannotation] at hfails
  -- the facts from the general theorem are about the client as it is written
  unfold c d
  exact ⟨tree, written, type, ⟨hdeclares, htree, hshow, hwritten⟩, ⟨hm, hplace.symm⟩,
    ⟨hn, hfails⟩, ⟨htype, hread⟩, Reply.eq_unanswered hfirst, Reply.eq_unanswered hsecond⟩

end Client

end JavaAbi
