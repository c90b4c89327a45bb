import JavaAbi.Proofs.TwinResolution

namespace JavaAbi

/-!
# Answers in twin sessions

What two sessions answer about corresponding elements. Answers are kept in step, so that one is computed
in both sessions or in neither.

* `ownType_runs` — own types of elements;
* `superclassOf_asks`, `interfacesOf_asks` — their supertypes;
* `displayElement_runs`, `displayType_runs` — elements and types as text.
-/

open Course

variable {w w' : World} {T : Twins w w'} {s s' t t' : Session} {id id' : ElementId}

theorem ModelType.Alike.isParameterized_eq {R : Resemblance} {type type' : ModelType}
    (h : ModelType.Alike R type type') : type.isParameterized = type'.isParameterized := by
  cases h with
  | @declared _ _ _ _ args args' _ _ _ _ arguments around =>
    have hargs : args.isEmpty = args'.isEmpty := by cases arguments <;> rfl
    rw [ModelType.isParameterized, ModelType.isParameterized, hargs]
    cases around <;> rfl
  | _ => rfl

namespace Twins

/-! ### Kept answers -/

/-- Corresponding elements with the answers that they keep. -/
structure Recalled (T : Twins w w') (id id' : ElementId) (e e' : Element) (t t' : Session) : Prop
    extends T.Elements t t' id id' e e' where
  memories : ∃ key list list', t.Denotes key id ∧
    T.Memories t t' key (e.memory list) (e'.memory list')

theorem recall_runs (hid : T.Same s s' id id') :
    T.Runs s s' (elementAt id) (elementAt id') (T.Recalled id id') := by
  refine .alike fun hs => ?_
  obtain ⟨e, e', he, he', hel⟩ := hs.elements hid
  obtain ⟨key, key', hd, hd', hk⟩ := hid
  have hm := hs.memory key key' id id' hd hd' hk
  rw [Session.memory_of_get he, Session.memory_of_get he'] at hm
  exact .of_reads (reads_elementAt he) (reads_elementAt he') fun _ =>
    { hel with memories := ⟨key, _, _, hd, hm⟩ }

section Kept

variable {α β : Type} {rel : α → β → Session → Session → Prop} {q : Query α} {q' : Query β}
  {keep : Except ModelError α → Element → Element} {keep' : Except ModelError β → Element → Element}

/-- **An answer that corresponding elements come to keep.** -/
theorem keepAnswer_asks (hq : T.Asks s s' q q' rel)
    (hkeep : ∀ r r' t t', Later s s' t t' → OutcomeAlike (fun a b => rel a b t t') r r' →
      T.Runs t t' (updateElement id (keep r)) (updateElement id' (keep' r')) fun _ _ _ _ => True)
    (hlater : ∀ a b t t' u u', Later t t' u u' → rel a b t t' → rel a b u u') :
    T.Asks s s'
      (do
        let r ← Query.attempt q
        updateElement id (keep r)
        Query.ofExcept r)
      (do
        let r ← Query.attempt q'
        updateElement id' (keep' r)
        Query.ofExcept r) rel := by
  refine hq.attempt fun r r' t t' _ hl hr => ?_
  refine .lift (hkeep r r' t t' hl hr) fun _ _ u u' _ hl' _ => .ofExcept fun _ => ?_
  exact hr.mono fun a b h => hlater a b t t' u u' hl' h

end Kept

/-! ### Own types -/

/-- What is relied on of the functions that give the own types of the elements around two others. -/
def Owns (T : Twins w w') (own own' : ElementId → SessionM ModelType) (bound bound' : Nat) : Prop :=
  ∀ s s' id id', T.Same s s' id id' → id < bound → id' < bound' →
    T.Runs s s' (own id) (own' id') T.typed

section OwnType

variable {own own' : ElementId → SessionM ModelType} {e e' : Element}

theorem enclosingInstance_runs (ho : T.Owns own own' id id') (he : T.Elements s s' id id' e e') :
    T.Runs s s' (enclosingInstance e own) (enclosingInstance e' own') T.typed := by
  have habsent : ∀ t t', T.Runs t t' (pure ModelType.absent) (pure ModelType.absent) T.typed :=
    fun t t' => .pure fun _ => .absent
  have houter := he.enclosing
  have hold := he.older
  have hold' := he.older'
  unfold enclosingInstance
  rw [Element.hasModifier, Element.hasModifier, he.kind, he.modifiers]
  generalize e.enclosing = enc, e'.enclosing = enc' at houter hold hold' ⊢
  cases houter with
  | none => exact habsent s s'
  | some hid =>
    dsimp only
    split
    · exact habsent s s'
    · refine (elementAt_runs hid).bind fun o o' t t' _ hl hkind => ?_
      have hown := ho t t' _ _ (hid.later hl) (hold _ rfl) (hold' _ rfl)
      -- The own type around it counts if it is parameterized, and then it is in both.
      have hinstance : T.Runs t t' (do
            let type ← own _
            return if type.isParameterized then type else .absent)
          (do
            let type ← own' _
            return if type.isParameterized then type else .absent) T.typed :=
        hown.bind fun type type' u u' _ _ htype => .pure fun _ => by
          rw [htype.isParameterized_eq]
          split
          · exact htype
          · exact .absent
      rw [hkind.kind]
      cases o'.kind with
      | classType | enumType | recordType => exact hinstance
      | _ => exact habsent t t'

/-- **The own types of corresponding elements**, by way of those around them. -/
theorem computeOwnType_runs (ho : T.Owns own own' id id') (hid : T.Same s s' id id')
    (he : T.Elements s s' id id' e e') :
    T.Runs s s' (computeOwnType own id e) (computeOwnType own' id' e') T.typed := by
  refine .alike fun hs => ?_
  -- A type has itself with its parameters as arguments, whether it comes from the batch or not.
  have hdeclared : T.Runs s s'
      (do
        let args := e.typeParams.map fun n => ModelType.typeVariable n id
        return .declared (← get).token (.known id) args (← enclosingInstance e own))
      (do
        let args := e'.typeParams.map fun n => ModelType.typeVariable n id'
        return .declared (← get).token (.known id') args (← enclosingInstance e' own'))
      T.typed := by
    refine .read ((enclosingInstance_runs ho he).bind fun inst inst' t t' _ hl hinst =>
      .pure fun _ => ?_)
    refine .declared ⟨congrArg SessionBase.token hs.left.of.base,
      congrArg SessionBase.token hs.right.of.base⟩ (.known (hid.later hl)) ?_ hinst
    refine ModelType.allAlike_iff.2 (List.forall₂_map_left_iff.2 (List.forall₂_map_right_iff.2 ?_))
    exact he.typeParams.imp fun n n' hn =>
      .typeVariable (hn.le hl.left.names hl.right.names) (hid.later hl)
  have hsource := he.source
  unfold computeOwnType
  generalize e.source = x, e'.source = x' at hsource ⊢
  cases hsource with
  | package => exact .pure fun _ => .package
  | field htype =>
    refine Runs.bind (scopeOf_asks hid) fun r r' t t' _ _ hr => ?_
    cases hr with
    | error _ => exact .pure fun _ => .error
    | ok hsc => exact typeOf_runs directSupertypes_supplies hsc htype
  | constant _ =>
    have houter := he.enclosing
    have hold := he.older
    have hold' := he.older'
    dsimp only
    generalize e.enclosing = enc, e'.enclosing = enc' at houter hold hold' ⊢
    cases houter with
    | none => exact .pure fun _ => .error
    | some ho' => exact ho s s' _ _ ho' (hold _ rfl) (hold' _ rfl)
  | tree _ => exact hdeclared
  | described _ => exact hdeclared

end OwnType

theorem keepOwnType_runs {type type' : ModelType} (hid : T.Same s s' id id')
    (htype : T.typed type type' s s') :
    T.Runs s s' (updateElement id fun e => { e with ownType := some type })
      (updateElement id' fun e => { e with ownType := some type' }) fun _ _ _ _ => True :=
  updateElement_runs hid (fun _ => rfl) (fun _ => rfl) fun _ _ _ _ _ _ hm =>
    { hm with ownType := .some htype }

theorem ownTypeWithin_owns {fuel fuel' : Nat} :
    T.Owns (ownTypeWithin fuel) (ownTypeWithin fuel') fuel fuel' := by
  induction fuel generalizing fuel' with
  | zero => exact fun s s' id id' _ hlt => absurd hlt (Nat.not_lt_zero _)
  | succ fuel ih =>
    intro s s' id id' hid hlt hlt'
    cases fuel' with
    | zero => exact absurd hlt' (Nat.not_lt_zero _)
    | succ fuel' =>
      unfold ownTypeWithin
      refine (recall_runs hid).bind fun e e' t t' _ hl he => ?_
      obtain ⟨key, list, list', hd, hm⟩ := he.memories
      have hkept : Option.Rel (ModelType.Alike (T.resemblance t t')) e.ownType e'.ownType :=
        hm.ownType
      generalize e.ownType = kept, e'.ownType = kept' at hkept ⊢
      -- Both have kept their own type, or neither has.
      cases hkept with
      | some htype => exact .pure fun _ => htype
      | none =>
        have howns : T.Owns (ownTypeWithin fuel) (ownTypeWithin fuel') id id' :=
          fun u u' o o' ho hlo hlo' => ih u u' o o' ho
            (Nat.lt_of_lt_of_le hlo (Nat.le_of_lt_succ hlt))
            (Nat.lt_of_lt_of_le hlo' (Nat.le_of_lt_succ hlt'))
        have hidt := hid.later hl
        refine (computeOwnType_runs howns hidt he.toElements).bind fun type type' u u' _ hl' htype => ?_
        refine (keepOwnType_runs (hidt.later hl') htype).bind fun _ _ v v' _ hl'' _ => .pure fun _ => ?_
        exact htype.mono hl''.resemblance

/-- **The own types of corresponding elements.** -/
theorem ownType_runs (hid : T.Same s s' id id') :
    T.Runs s s' (ownType id) (ownType id') T.typed := by
  refine .alike fun hs => .read ?_
  have hsame := hid
  obtain ⟨key, key', hd, hd', -⟩ := hid
  exact ownTypeWithin_owns s s' id id' hsame (Nat.lt_succ_of_lt (hs.left.sound.lt_size hd))
    (Nat.lt_succ_of_lt (hs.right.sound.lt_size hd'))

/-! ### Supertypes -/

/-- The type of a canonical name, of which the error is given its place. -/
theorem locatedType_asks {n n' : Name} {place : Span} (hn : s.names.Agree s'.names n n') :
    T.Asks s s' (tryCatch (findType n) fun e => throw (e.located place))
      (tryCatch (findType n') fun e => throw (e.located place)) T.same :=
  (findType_asks hn).handle fun e _ _ _ _ => .throw (e.located place)

theorem plainTypeOf_asks {n n' : Name} {place : Span} (hn : s.names.Agree s'.names n n') :
    T.Asks s s' (plainTypeOf place n) (plainTypeOf place n') T.typed :=
  (locatedType_asks hn).bind fun _ _ _ _ ht _ hid => .read (.pure fun _ =>
    .declared ⟨congrArg SessionBase.token ht.left.of.base, congrArg SessionBase.token ht.right.of.base⟩
      (.known hid) .nil .absent)

/-- **A supertype clause in corresponding scopes.** -/
theorem resolveSupertype_asks {sc sc' : Scope} {r : TypeRef} (hsc : T.Scopes s s' sc sc')
    (hr : r.Sound T.base) :
    T.Asks s s' (resolveSupertype sc r) (resolveSupertype sc' r) T.typed := by
  refine .lift (typeOf_runs directSupertypes_supplies hsc hr) fun type type' t t' _ _ htype => ?_
  have hresolve : T.Asks t t'
      (do
        let _ ← elementOfType type
        return type)
      (do
        let _ ← elementOfType type'
        return type') T.typed :=
    (resolveType_asks directSupertypes_supplies htype).bind fun _ _ _ _ _ hl _ => .pure fun _ =>
      htype.mono hl.resemblance
  cases htype with
  | error => exact .throw _
  | _ => exact hresolve

section Supertypes

variable {e e' : Element}

/-- The superclass of an enum. -/
theorem enumSuperclass_asks {n n' : Name} {place : Span} (hid : T.Same s s' id id')
    (hn : s.names.Agree s'.names n n') :
    T.Asks s s' (enumSuperclass n place id) (enumSuperclass n' place id') T.typed := by
  refine (locatedType_asks hn).bind fun base base' t t' _ hl hbase => ?_
  refine .lift (ownType_runs (hid.later hl)) fun own own' u u' hu hl' hown => .read (.pure fun _ => ?_)
  exact .declared ⟨congrArg SessionBase.token hu.left.of.base,
    congrArg SessionBase.token hu.right.of.base⟩ (.known (Same.later hbase hl')) (.cons hown .nil)
    .absent

/-- The superclass of the body of a constant. -/
theorem bodySuperclass_asks {enc enc' : Option ElementId}
    (henc : Option.Rel (T.Same s s') enc enc') :
    T.Asks s s' (bodySuperclass enc) (bodySuperclass enc') T.typed := by
  cases henc with
  | none => exact .throw _
  | some hid =>
    refine .lift (elementAt_runs hid) fun c c' t t' _ _ hc => ?_
    have houter := hc.enclosing
    generalize c.enclosing = o, c'.enclosing = o' at houter ⊢
    cases houter with
    | none => exact .throw _
    | some ho => exact .lift_last (ownType_runs ho)

/-- **The superclasses of corresponding elements.** -/
theorem computeSuperclass_asks (hid : T.Same s s' id id') (he : T.Elements s s' id id' e e') :
    T.Asks s s' (computeSuperclass id e) (computeSuperclass id' e') T.typed := by
  refine .alike fun hs => ?_
  have hw := T.wellKnown
  rw [← hs.left.of.wellKnown, ← hs.right.of.wellKnown] at hw
  have hroot := he.qualifiedName.eq_named_iff (hs.agree hw.rootObject)
  have hsource := he.source
  have habsent : T.Asks s s' (pure .absent) (pure .absent) T.typed := .pure fun _ => .absent
  unfold computeSuperclass
  rw [he.kind, he.span]
  split
  · exact habsent
  · refine .read ?_
    generalize e.source = x, e'.source = x' at hsource ⊢
    cases hsource with
    | tree hshape =>
      dsimp only
      rw [hshape.isConstantBody, hshape.extended]
      have hsound := hshape.supertypes
      rw [hshape.extended] at hsound
      split
      · -- In the order of the rules: bodies of constants, enums, records, the root, and then
        -- classes.
        exact bodySuperclass_asks he.enclosing
      split
      · exact enumSuperclass_asks hid (hs.agree hw.enumBase)
      split
      · exact plainTypeOf_asks (hs.agree hw.recordBase)
      refine .ite hroot habsent ?_
      split
      · rename_i written rest hext
        refine (headerScopeOf_asks hid).bind fun _ _ _ _ _ _ hsc => resolveSupertype_asks hsc ?_
        exact hsound written (by rw [hext]; exact List.mem_append_left _ List.mem_cons_self)
      · exact plainTypeOf_asks (hs.agree hw.rootObject)
    | described d =>
      dsimp only
      split
      · exact .lift (internName_runs _) fun _ _ _ _ _ _ hn => plainTypeOf_asks hn
      · exact habsent
    | field _ => exact habsent
    | constant _ => exact habsent
    | package => exact habsent

theorem superclassOf_asks (hid : T.Same s s' id id') :
    T.Asks s s' (superclassOf id) (superclassOf id') T.typed := by
  refine .lift (recall_runs hid) fun e e' t t' _ hl he => ?_
  obtain ⟨key, list, list', hd, hm⟩ := he.memories
  have hkept : Option.Rel (OutcomeAlike fun a b => T.typed a b t t') e.superclass e'.superclass :=
    hm.superclass
  have hcompute := computeSuperclass_asks (hid.later hl) he.toElements
  generalize e.superclass = kept, e'.superclass = kept' at hkept ⊢
  cases hkept with
  | some hr => exact .ofExcept fun _ => hr
  | none =>
    refine keepAnswer_asks hcompute (fun r r' u u' hl' hr => ?_)
      fun _ _ _ _ _ _ hl' htype => htype.mono hl'.resemblance
    exact updateElement_runs ((hid.later hl).later hl') (fun _ => rfl) (fun _ => rfl)
      fun _ _ _ _ _ _ hm => { hm with superclass := .some hr }

/-- **The interfaces of corresponding elements.** -/
theorem computeInterfaces_asks (hid : T.Same s s' id id') (he : T.Elements s s' id id' e e') :
    T.Asks s s' (computeInterfaces id e) (computeInterfaces id' e')
      fun types types' t t' => List.Forall₂ (fun a b => T.typed a b t t') types types' := by
  refine .alike fun hs => ?_
  have hw := T.wellKnown
  rw [← hs.left.of.wellKnown, ← hs.right.of.wellKnown] at hw
  have hsource := he.source
  have hlater : ∀ a b t t' u u', Later t t' u u' → T.typed a b t t' → T.typed a b u u' :=
    fun _ _ _ _ _ _ hl htype => htype.mono hl.resemblance
  unfold computeInterfaces
  rw [he.kind, he.span]
  generalize e.source = x, e'.source = x' at hsource ⊢
  cases hsource with
  | tree hshape =>
    -- The clauses that count are the same, and written the same in both.
    have hwritten : ∀ written : List TypeRef, (∀ r ∈ written, r.Sound T.base) →
        T.Asks s s'
          (if written.isEmpty then return [] else do written.mapM (resolveSupertype (← headerScopeOf id)))
          (if written.isEmpty then return [] else do written.mapM (resolveSupertype (← headerScopeOf id')))
          fun types types' t t' => List.Forall₂ (fun a b => T.typed a b t t') types types' := by
      intro written hsound
      split
      · exact .pure fun _ => .nil
      · refine (headerScopeOf_asks hid).bind fun sc sc' t t' ht _ hsc => ?_
        refine .mapM (List.forall₂_same.2 fun r hr u u' _ hl => ?_) hlater ht (.refl t t')
        exact resolveSupertype_asks (hsc.later hl) (hsound r hr)
    have hsound := hshape.supertypes
    rw [hshape.extended, hshape.implemented] at hsound
    dsimp only
    rw [hshape.extended, hshape.implemented]
    refine .ite Iff.rfl ?_ ?_
    · refine .read ((plainTypeOf_asks (hs.agree hw.annotationBase)).bind
        fun _ _ _ _ _ _ h => .pure fun _ => .cons h .nil)
    · split
      · exact hwritten _ fun r hr => hsound r (List.mem_append_left _ hr)
      · exact hwritten _ fun r hr => hsound r (List.mem_append_right _ hr)
  | described d =>
    refine .mapM (List.forall₂_same.2 fun name _ t t' _ _ => ?_) hlater hs (.refl s s')
    exact .lift (internName_runs name) fun _ _ _ _ _ _ hn => plainTypeOf_asks hn
  | field _ => exact .pure fun _ => .nil
  | constant _ => exact .pure fun _ => .nil
  | package => exact .pure fun _ => .nil

theorem interfacesOf_asks (hid : T.Same s s' id id') :
    T.Asks s s' (interfacesOf id) (interfacesOf id')
      fun types types' t t' => List.Forall₂ (fun a b => T.typed a b t t') types types' := by
  refine .lift (recall_runs hid) fun e e' t t' _ hl he => ?_
  obtain ⟨key, list, list', hd, hm⟩ := he.memories
  have hkept : Option.Rel (OutcomeAlike fun types types' => List.Forall₂
      (fun a b => T.typed a b t t') types types') e.interfaces e'.interfaces := hm.interfaces
  have hcompute := computeInterfaces_asks (hid.later hl) he.toElements
  generalize e.interfaces = kept, e'.interfaces = kept' at hkept ⊢
  cases hkept with
  | some hr => exact .ofExcept fun _ => hr
  | none =>
    refine keepAnswer_asks hcompute (fun r r' u u' hl' hr => ?_)
      fun _ _ _ _ _ _ hl' htypes => htypes.imp fun _ _ htype => htype.mono hl'.resemblance
    exact updateElement_runs ((hid.later hl).later hl') (fun _ => rfl) (fun _ => rfl)
      fun _ _ _ _ _ _ hm => { hm with interfaces := .some hr }

end Supertypes

/-! ### Elements as text -/

theorem displayElement_runs (hid : T.Same s s' id id') :
    T.Runs s s' (displayElement id) (displayElement id') equal := by
  refine (elementAt_runs hid).bind fun e e' t t' _ _ he => nameText_runs ?_
  have hname := he.qualifiedName.name?
  generalize e.qualifiedName.name? = n, e'.qualifiedName.name? = n' at hname ⊢
  cases hname with
  | none => exact he.simpleName
  | some hn => exact hn

theorem pathTexts_runs {path : List Name} (hp : ∀ n ∈ path, T.base.Issued n) :
    T.Runs s s' (path.mapM nameText) (path.mapM nameText) equal := by
  induction path generalizing s s' with
  | nil => exact .pure fun _ => rfl
  | cons n rest ih =>
    rw [List.mapM_cons]
    refine .alike fun hs => (nameText_runs (hs.agree_base (hp n List.mem_cons_self))).bind
      fun text text' t t' _ _ htext => ?_
    refine (ih fun m hm => hp m (List.mem_cons_of_mem _ hm)).bind fun rest rest' _ _ _ _ hrest =>
      .pure fun _ => ?_
    rw [equal, show text = text' from htext, show rest = rest' from hrest]

theorem writtenName?_runs {o o' : SessionToken} {target target' : TypeTarget}
    (ho : (T.resemblance s s').origin o o')
    (htarget : TypeTarget.Alike (T.resemblance s s') target target') :
    T.Runs s s' (writtenName? o target) (writtenName? o' target') equal := by
  obtain ⟨rfl, rfl⟩ := ho
  cases htarget with
  | known _ => exact .pure fun _ => rfl
  | written href =>
    obtain ⟨-, href⟩ := href
    refine .alike fun hs => .read ?_
    rw [if_pos (congrArg SessionBase.token hs.left.of.base).symm,
      if_pos (congrArg SessionBase.token hs.right.of.base).symm, ← href.path]
    refine (pathTexts_runs fun n hn => (href.proper n hn).1).bind fun _ _ _ _ _ _ htexts =>
      .pure fun _ => ?_
    rw [equal, htexts]

theorem displayHead_runs {o o' : SessionToken} {target target' : TypeTarget}
    {r r' : Except ModelError (Option ElementId)}
    (ho : (T.resemblance s s').origin o o')
    (htarget : TypeTarget.Alike (T.resemblance s s') target target')
    (hr : OutcomeAlike (fun a b => optional T.same a b s s') r r') :
    T.Runs s s' (displayHead o target r) (displayHead o' target' r') equal := by
  have hwritten : T.Runs s s' (do return (← writtenName? o target).getD "<error>")
      (do return (← writtenName? o' target').getD "<error>") equal :=
    (writtenName?_runs ho htarget).bind fun name name' _ _ _ _ hname => .pure fun _ => by
      rw [equal, show name = name' from hname]
  cases hr with
  | error e => exact hwritten
  | ok hfound =>
    cases hfound with
    | none => exact hwritten
    | some hid => exact displayElement_runs hid

mutual

/-- **Corresponding types are shown as one text.** -/
theorem displayType_runs {s s' : Session} {type type' : ModelType}
    (h : ModelType.Alike (T.resemblance s s') type type') :
    T.Runs s s' (displayType type) (displayType type') equal := by
  match h with
  | .primitive _ | .absent | .void | .package | .error =>
    rw [displayType]
    exact .pure fun _ => rfl
  | .typeVariable hn _ =>
    rw [displayType, displayType]
    exact nameText_runs hn
  | .array hc =>
    rw [displayType, displayType]
    refine (displayType_runs hc).bind fun _ _ _ _ _ _ htext => .pure fun _ => ?_
    rw [equal, htext]
  | .wildcard hupper hlower =>
    rw [displayType, displayType]
    refine (displayBound_runs hupper).bind fun _ _ t t' _ hl htext => ?_
    refine (displayBound_runs (hlower.mono hl.resemblance)).bind fun _ _ _ _ _ _ htext' =>
      .pure fun _ => ?_
    rw [equal, htext, htext']
  | @ModelType.Alike.declared _ o o' target target' args args' enclosing enclosing' made named
      arguments around =>
    have htype : T.typed _ _ s s' := .declared made named arguments around
    have helement := resolveType_asks directSupertypes_supplies htype
    rw [displayType_declared, displayType_declared]
    refine Runs.bind helement fun r r' t t' _ hl hr => ?_
    -- The head depends on what the type refers to and on where it was made.
    have hhead := displayHead_runs (hl.resemblance.origin made) (named.mono hl.resemblance) hr
    refine hhead.bind fun head head' u u' _ hl' heq => ?_
    have htexts := displayTypes_runs (arguments.mono (hl.trans hl').resemblance)
    refine htexts.bind fun texts texts' _ _ _ _ heqs => .pure fun _ => ?_
    rw [equal, show head = head' from heq, show texts = texts' from heqs]

theorem displayBound_runs {s s' : Session} {word : String} {bound bound' : Option ModelType}
    (h : ModelType.BoundAlike (T.resemblance s s') bound bound') :
    T.Runs s s' (displayBound word bound) (displayBound word bound') equal := by
  match h with
  | .none =>
    rw [displayBound]
    exact .pure fun _ => rfl
  | .some hb =>
    rw [displayBound, displayBound]
    refine (displayType_runs hb).bind fun _ _ _ _ _ _ htext => .pure fun _ => ?_
    rw [equal, htext]

theorem displayTypes_runs {s s' : Session} {types types' : List ModelType}
    (h : ModelType.AllAlike (T.resemblance s s') types types') :
    T.Runs s s' (displayTypes types) (displayTypes types') equal := by
  match h with
  | .nil =>
    rw [displayTypes]
    exact .pure fun _ => rfl
  | .cons ha hrest =>
    rw [displayTypes, displayTypes]
    refine (displayType_runs ha).bind fun _ _ t t' _ hl htext => ?_
    refine (displayTypes_runs (hrest.mono hl.resemblance)).bind fun _ _ _ _ _ _ htexts =>
      .pure fun _ => ?_
    rw [equal, htext, htexts]

end

end Twins

end JavaAbi
