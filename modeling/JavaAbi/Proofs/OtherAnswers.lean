import JavaAbi.Proofs.OtherProviders
import JavaAbi.Proofs.Termination
import JavaAbi.Proofs.TwinClients

namespace JavaAbi

/-!
# Clients over other providers

All that a client can ask is answered in the same way over another provider that says the same about
the names that the batch does not declare. For the bounds on the work of a question are not reached,
so that no run is cut off.

* `query_mirrors` — one question;
* `Client.ask_servedBy`, `Client.askAll_servedBy` — what a client is told and has learnt afterwards;
* `Client.provider_independent` — any questions, asked of new clients.
-/

variable {w : World} {p : Provider} {α : Type}

/-! ### Elements by name -/

theorem lookupType_mirrors (hw : w.Sound) (hp : w.Stands p) (name : String) :
    w.QueryMirrors p (lookupType name) (lookupType name) := by
  unfold lookupType
  split
  · exact .throw _
  · exact .lift (internName_mirrors name) fun n => findType_mirrors hw hp n

theorem lookupPackage_mirrors (hw : w.Sound) (hp : w.Stands p) (name : String) :
    w.QueryMirrors p (lookupPackage name) (lookupPackage name) := by
  unfold lookupPackage
  split
  · exact .throw _
  · exact .lift (internName_mirrors name) fun n => canonical_mirrors hw hp (.package n)

theorem distinctElements_mirrors (hw : w.Sound) (hp : w.Stands p) (seen : List ElementId)
    (ds : List DeclId) :
    w.QueryMirrors p (distinctElements seen ds) (distinctElements seen ds) := by
  induction ds generalizing seen with
  | nil => exact .pure seen
  | cons d rest ih => exact (elementOfDecl_mirrors hw hp d).bind fun id => ih _

theorem topLevelTypes_mirrors (hw : w.Sound) (hp : w.Stands p) :
    w.QueryMirrors p topLevelTypes topLevelTypes :=
  .read (fun _ => rfl) fun _ _ => distinctElements_mirrors hw hp [] _

theorem reportDuplicates_mirrors : w.Mirrors p reportDuplicates reportDuplicates := by
  refine .read (fun _ => rfl) fun s _ => (World.Mirrors.mapM fun d => ?_).bind fun _ => .pure _
  refine (declAt_mirrors d.1).bind fun info => ?_
  split
  · exact .pure none
  · exact (nameText_mirrors _).bind fun _ => (declAt_mirrors d.2).bind fun _ => .pure _

/-! ### Types -/

theorem elementOfType_mirrors (hw : w.Sound) (hp : w.Stands p) (type : ModelType) :
    w.QueryMirrors p (elementOfType type) (elementOfType type) :=
  resolveType_mirrors hw hp (directSupertypes_mirrors hw hp) type

theorem writtenName?_mirrors (origin : SessionToken) (target : TypeTarget) :
    w.Mirrors p (writtenName? origin target) (writtenName? origin target) := by
  cases target with
  | known id => exact .pure none
  | written cell r =>
    refine .read (fun _ => rfl) fun s _ => ?_
    split
    · exact (World.Mirrors.mapM nameText_mirrors).bind fun _ => .pure _
    · exact .pure none

theorem displayHead_mirrors (origin : SessionToken) (target : TypeTarget)
    (r : Except ModelError (Option ElementId)) :
    w.Mirrors p (displayHead origin target r) (displayHead origin target r) := by
  match r with
  | .ok (some id) => exact displayElement_mirrors id
  | .ok none | .error _ => exact (writtenName?_mirrors origin target).bind fun _ => .pure _

mutual

/-- **A type is shown as the same text.** -/
theorem displayType_mirrors (hw : w.Sound) (hp : w.Stands p) (type : ModelType) :
    w.Mirrors p (displayType type) (displayType type) := by
  match type with
  | .primitive _ | .absent | .void | .package | .error =>
    rw [displayType]
    exact .pure _
  | .typeVariable name _ =>
    rw [displayType]
    exact nameText_mirrors name
  | .array component =>
    rw [displayType]
    exact (displayType_mirrors hw hp component).bind fun _ => .pure _
  | .wildcard upper lower =>
    rw [displayType]
    exact (displayBound_mirrors hw hp _ upper).bind fun _ =>
      (displayBound_mirrors hw hp _ lower).bind fun _ => .pure _
  | .declared origin target args enclosing =>
    rw [displayType_declared]
    refine World.Mirrors.bind (elementOfType_mirrors hw hp _) fun r => ?_
    exact (displayHead_mirrors origin target r).bind fun _ =>
      (displayTypes_mirrors hw hp args).bind fun _ => .pure _

theorem displayBound_mirrors (hw : w.Sound) (hp : w.Stands p) (word : String)
    (bound : Option ModelType) :
    w.Mirrors p (displayBound word bound) (displayBound word bound) := by
  match bound with
  | none =>
    rw [displayBound]
    exact .pure ""
  | some type =>
    rw [displayBound]
    exact (displayType_mirrors hw hp type).bind fun _ => .pure _

theorem displayTypes_mirrors (hw : w.Sound) (hp : w.Stands p) (types : List ModelType) :
    w.Mirrors p (displayTypes types) (displayTypes types) := by
  match types with
  | [] =>
    rw [displayTypes]
    exact .pure []
  | type :: rest =>
    rw [displayTypes]
    exact (displayType_mirrors hw hp type).bind fun _ =>
      (displayTypes_mirrors hw hp rest).bind fun _ => .pure _

end

/-! ### Own types and supertypes -/

/-- An answer that an element comes to keep. -/
theorem keepAnswer_mirrors {q : Query α} {keep : Except ModelError α → Element → Element}
    (id : ElementId) (h : w.QueryMirrors p q q) :
    w.QueryMirrors p
      (do
        let r ← Query.attempt q
        updateElement id (keep r)
        Query.ofExcept r)
      (do
        let r ← Query.attempt q
        updateElement id (keep r)
        Query.ofExcept r) :=
  h.attempt fun r => .lift (updateElement_mirrors id (keep r)) fun _ => .ofExcept r

section OwnType

variable {own : ElementId → SessionM ModelType}

theorem enclosingInstance_mirrors (hown : ∀ id, w.Mirrors p (own id) (own id)) (e : Element) :
    w.Mirrors p (enclosingInstance e own) (enclosingInstance e own) := by
  unfold enclosingInstance
  split
  · exact .pure _
  · split
    · exact .pure _
    · refine (elementAt_mirrors _).bind fun outer => ?_
      split
      · exact (hown _).bind fun _ => .pure _
      · exact (hown _).bind fun _ => .pure _
      · exact (hown _).bind fun _ => .pure _
      · exact .pure _

theorem computeOwnType_mirrors (hw : w.Sound) (hp : w.Stands p)
    (hown : ∀ id, w.Mirrors p (own id) (own id)) (id : ElementId) (e : Element) :
    w.Mirrors p (computeOwnType own id e) (computeOwnType own id e) := by
  unfold computeOwnType
  split
  · exact .pure _
  · refine World.Mirrors.bind (scopeOf_mirrors id) fun r => ?_
    cases r with
    | ok sc => exact typeOf_mirrors hw hp (directSupertypes_mirrors hw hp) sc _
    | error e => exact .pure _
  · split
    · exact hown _
    · exact .pure _
  · exact .read (fun _ => rfl) fun s _ =>
      (enclosingInstance_mirrors hown e).bind fun _ => .pure _

end OwnType

theorem ownTypeWithin_mirrors (hw : w.Sound) (hp : w.Stands p) (fuel : Nat) (id : ElementId) :
    w.Mirrors p (ownTypeWithin fuel id) (ownTypeWithin fuel id) := by
  induction fuel generalizing id with
  | zero => exact .pure _
  | succ fuel ih =>
    refine (elementAt_mirrors id).bind fun e => ?_
    cases e.ownType with
    | some type => exact .pure type
    | none =>
      exact (computeOwnType_mirrors hw hp ih id e).bind fun type =>
        (updateElement_mirrors id _).bind fun _ => .pure type

theorem ownType_mirrors (hw : w.Sound) (hp : w.Stands p) (id : ElementId) :
    w.Mirrors p (ownType id) (ownType id) :=
  .read (fun _ => rfl) fun _ _ => ownTypeWithin_mirrors hw hp _ id

theorem locatedType_mirrors (hw : w.Sound) (hp : w.Stands p) (place : Span) (n : Name) :
    w.QueryMirrors p (tryCatch (findType n) fun e => throw (e.located place))
      (tryCatch (findType n) fun e => throw (e.located place)) :=
  (findType_mirrors hw hp n).handle fun _ => .throw _

theorem plainTypeOf_mirrors (hw : w.Sound) (hp : w.Stands p) (place : Span) (n : Name) :
    w.QueryMirrors p (plainTypeOf place n) (plainTypeOf place n) :=
  (locatedType_mirrors hw hp place n).bind fun _ => .read (fun _ => rfl) fun _ _ => .pure _

theorem resolveSupertype_mirrors (hw : w.Sound) (hp : w.Stands p) (sc : Scope) (t : TypeRef) :
    w.QueryMirrors p (resolveSupertype sc t) (resolveSupertype sc t) := by
  refine .lift (typeOf_mirrors hw hp (directSupertypes_mirrors hw hp) sc t) fun type => ?_
  have hresolve : w.QueryMirrors p
      (do
        let _ ← elementOfType type
        return type)
      (do
        let _ ← elementOfType type
        return type) :=
    (elementOfType_mirrors hw hp type).bind fun _ => .pure type
  cases type with
  | error => exact .throw _
  | _ => exact hresolve

/-- The superclass of an enum. -/
theorem enumSuperclass_mirrors (hw : w.Sound) (hp : w.Stands p) (base : Name) (place : Span)
    (id : ElementId) :
    w.QueryMirrors p (enumSuperclass base place id) (enumSuperclass base place id) :=
  (locatedType_mirrors hw hp place base).bind fun _ =>
    .lift (ownType_mirrors hw hp id) fun _ => .read (fun _ => rfl) fun _ _ => .pure _

/-- The superclass of the body of a constant. -/
theorem bodySuperclass_mirrors (hw : w.Sound) (hp : w.Stands p) (constant : Option ElementId) :
    w.QueryMirrors p (bodySuperclass constant) (bodySuperclass constant) := by
  cases constant with
  | none => exact .throw _
  | some constant =>
    refine .lift (elementAt_mirrors constant) fun e => ?_
    cases e.enclosing with
    | none => exact .throw _
    | some owner => exact .lift_last (ownType_mirrors hw hp owner)

theorem computeSuperclass_mirrors (hw : w.Sound) (hp : w.Stands p) (id : ElementId) (e : Element) :
    w.QueryMirrors p (computeSuperclass id e) (computeSuperclass id e) := by
  unfold computeSuperclass
  split
  · exact .pure _
  refine .read (fun _ => rfl) fun s _ => ?_
  dsimp only
  split
  · split
    · exact bodySuperclass_mirrors hw hp e.enclosing
    split
    · exact enumSuperclass_mirrors hw hp _ _ id
    split
    · exact plainTypeOf_mirrors hw hp _ _
    split
    · exact .pure _
    split
    · exact (headerScopeOf_mirrors id).bind fun sc => resolveSupertype_mirrors hw hp sc _
    · exact plainTypeOf_mirrors hw hp _ _
  · split
    · exact .lift (internName_mirrors _) fun n => plainTypeOf_mirrors hw hp _ n
    · exact .pure _
  · exact .pure _

theorem superclassOf_mirrors (hw : w.Sound) (hp : w.Stands p) (id : ElementId) :
    w.QueryMirrors p (superclassOf id) (superclassOf id) := by
  refine .lift (elementAt_mirrors id) fun e => ?_
  cases e.superclass with
  | some r => exact .ofExcept r
  | none => exact keepAnswer_mirrors id (computeSuperclass_mirrors hw hp id e)

theorem computeInterfaces_mirrors (hw : w.Sound) (hp : w.Stands p) (id : ElementId) (e : Element) :
    w.QueryMirrors p (computeInterfaces id e) (computeInterfaces id e) := by
  have hwritten : ∀ written : List TypeRef, w.QueryMirrors p
      (if written.isEmpty then return [] else do
        let sc ← headerScopeOf id
        written.mapM (resolveSupertype sc))
      (if written.isEmpty then return [] else do
        let sc ← headerScopeOf id
        written.mapM (resolveSupertype sc)) := by
    intro written
    split
    · exact .pure _
    · exact (headerScopeOf_mirrors id).bind fun sc =>
        .mapM fun t => resolveSupertype_mirrors hw hp sc t
  unfold computeInterfaces
  dsimp only
  split
  · split
    · exact .read (fun _ => rfl) fun s _ => (plainTypeOf_mirrors hw hp _ _).bind fun _ => .pure _
    · exact hwritten _
  · exact .mapM fun name => .lift (internName_mirrors name) fun n => plainTypeOf_mirrors hw hp _ n
  · exact .pure _

theorem interfacesOf_mirrors (hw : w.Sound) (hp : w.Stands p) (id : ElementId) :
    w.QueryMirrors p (interfacesOf id) (interfacesOf id) := by
  refine .lift (elementAt_mirrors id) fun e => ?_
  cases e.interfaces with
  | some r => exact .ofExcept r
  | none => exact keepAnswer_mirrors id (computeInterfaces_mirrors hw hp id e)

/-! ### What an element encloses -/

theorem World.QueryMirrors.filterM {f : α → Query Bool} (h : ∀ a, w.QueryMirrors p (f a) (f a))
    (xs : List α) : w.QueryMirrors p (xs.filterM f) (xs.filterM f) := by
  have haux : ∀ acc, w.QueryMirrors p (xs.filterAuxM f acc) (xs.filterAuxM f acc) := by
    induction xs with
    | nil => exact fun acc => .pure acc
    | cons a rest ih => exact fun acc => (h a).bind fun b => ih _
  exact (haux []).bind fun found => .pure found.reverse

theorem computeEnclosed_mirrors (hw : w.Sound) (hp : w.Stands p) (e : Element) :
    w.QueryMirrors p (computeEnclosed e) (computeEnclosed e) := by
  unfold computeEnclosed
  split
  · exact .mapM fun key => canonical_mirrors hw hp key
  · refine .read (fun _ => rfl) fun s _ => World.QueryMirrors.bind ?_ fun inside =>
      distinctElements_mirrors hw hp [] inside
    exact .filterM (fun d => .lift (declAt_mirrors d) fun _ => .pure _) _
  · exact .pure []

theorem enclosedOf_mirrors (hw : w.Sound) (hp : w.Stands p) (id : ElementId) :
    w.QueryMirrors p (enclosedOf id) (enclosedOf id) := by
  refine .lift (elementAt_mirrors id) fun e => ?_
  cases e.enclosed with
  | some r => exact .ofExcept r
  | none => exact keepAnswer_mirrors id (computeEnclosed_mirrors hw hp e)

theorem bodyOf_mirrors (hw : w.Sound) (hp : w.Stands p) (id : ElementId) :
    w.QueryMirrors p (bodyOf id) (bodyOf id) := by
  refine .lift (elementAt_mirrors id) fun e => ?_
  split
  · exact (elementOfDecl_mirrors hw hp _).map
  · exact .pure none

theorem packageWithin_mirrors (fuel : Nat) (id : ElementId) :
    w.Mirrors p (packageWithin fuel id) (packageWithin fuel id) := by
  induction fuel generalizing id with
  | zero => exact .pure none
  | succ fuel ih =>
    refine (elementAt_mirrors id).bind fun e => ?_
    split
    · exact .pure (some id)
    · split
      · exact ih _
      · exact .pure none

theorem packageOf_mirrors (id : ElementId) : w.Mirrors p (packageOf id) (packageOf id) :=
  .read (fun _ => rfl) fun _ _ => packageWithin_mirrors _ id

/-! ### Questions -/

theorem withType_mirrors {f : ModelType → Query Reply}
    (h : ∀ type, w.QueryMirrors p (f type) (f type)) (received : List ModelType) (i : Nat) :
    w.QueryMirrors p (withType received i f) (withType received i f) := by
  unfold withType
  split
  · exact h _
  · exact .pure _

/-- **The work that a question starts.** -/
theorem query_mirrors (hw : w.Sound) (hp : w.Stands p) (received : List ModelType) (q : Question) :
    w.QueryMirrors p (q.query received) (q.query received) := by
  cases q with
  | lookupType name => exact (lookupType_mirrors hw hp name).bind fun _ => .pure _
  | lookupPackage name => exact (lookupPackage_mirrors hw hp name).bind fun _ => .pure _
  | topLevelTypes => exact (topLevelTypes_mirrors hw hp).bind fun _ => .pure _
  | duplicates => exact .lift reportDuplicates_mirrors fun _ => .pure _
  | enclosing id => exact .lift (elementAt_mirrors id) fun _ => .pure _
  | package id =>
    exact .lift (elementAt_mirrors id) fun _ => .lift (packageOf_mirrors id) fun _ => .pure _
  | enclosed id => exact (enclosedOf_mirrors hw hp id).bind fun _ => .pure _
  | body id => exact (bodyOf_mirrors hw hp id).bind fun _ => .pure _
  | superclass id => exact (superclassOf_mirrors hw hp id).bind fun _ => .pure _
  | interfaces id => exact (interfacesOf_mirrors hw hp id).bind fun _ => .pure _
  | ownType id => exact .lift (ownType_mirrors hw hp id) fun _ => .pure _
  | display id => exact .lift (displayElement_mirrors id) fun _ => .pure _
  | elementOf i =>
    exact withType_mirrors (fun type => (elementOfType_mirrors hw hp type).bind fun _ => .pure _)
      received i
  | parts i => exact withType_mirrors (fun type => .pure _) received i
  | displayType i =>
    exact withType_mirrors (fun type => .lift (displayType_mirrors hw hp type) fun _ => .pure _)
      received i

/-! ### Clients -/

namespace Client

/-- The client over another provider. -/
def servedBy (c : Client) (p : Provider) : Client := ⟨c.session.servedBy p, c.types⟩

variable {w : World} {p : Provider} {c : Client}

theorem servedBy_self (h : c.session.provider = p) : c.servedBy p = c := by
  subst h
  rfl

/-- A search that was cut off before a question stays so: if none was afterwards, none was before. -/
theorem cutOff_of_ask (h : c.Fits w) (q : Question)
    (huncut : (c.ask q).2.session.cutOff = false) : c.session.cutOff = false := by
  have hstands : w.Stands w.provider := ⟨fun _ _ => rfl, Nat.le_refl _⟩
  obtain ⟨r, t, hrun, -, hcut, -⟩ :=
    query_mirrors h.idle.resolved.world hstands c.types q c.session h.idle.resolved.of
  have hrun : (q.query c.types).run.run.run c.session = (r, t) := hrun
  have hask : (c.ask q).2.session = t := by rw [ask, hrun]
  rw [hask] at huncut
  exact Bool.eq_false_iff.2 fun hoff => Bool.false_ne_true (huncut.symm.trans (hcut hoff))

theorem cutOff_of_askAll (h : c.Fits w) (questions : List Question)
    (huncut : (c.askAll questions).session.cutOff = false) : c.session.cutOff = false := by
  induction questions generalizing c with
  | nil => exact huncut
  | cons q rest ih => exact cutOff_of_ask h q (ih (fits_ask h q).1 huncut)

/-- **One question** is answered in the same way over another provider. If that provider allows for
    more types, this needs that no search was cut off. -/
theorem ask_servedBy (h : c.Fits w) (hp : w.Stands p) (q : Question)
    (huncut : w.provider.extent = p.extent ∨ (c.ask q).2.session.cutOff = false) :
    (c.servedBy p).ask q = ((c.ask q).1, (c.ask q).2.servedBy p) := by
  have hof := h.idle.resolved.of
  obtain ⟨r, t, hrun, -, -, hsame⟩ :=
    query_mirrors h.idle.resolved.world hp c.types q c.session hof
  have hrun : (q.query c.types).run.run.run c.session = (r, t) := hrun
  have hask : c.ask q = (replyOf r, ⟨t, c.types ++ (replyOf r).received⟩) := by rw [ask, hrun]
  have hserved : (q.query c.types).run.run.run (c.session.servedBy p) = (r, t.servedBy p) := by
    refine hsame.resolve_left ?_
    rintro ⟨hextent, hshort⟩
    have hon := huncut.resolve_left (Nat.ne_of_lt hextent)
    rw [hask] at hon
    rcases hshort with hoff | hstopped
    · exact Bool.false_ne_true (hon.symm.trans hoff)
    · -- Only a question about an unknown element is stopped, and for another reason.
      obtain ⟨id, -, -, hb⟩ := foreign_of_stopped (b := .endlessSupertypes) (q := q) h
        (by rw [hask, hstopped]; rfl)
      cases hb
  have hask' : (c.servedBy p).ask q =
      (replyOf r, ⟨t.servedBy p, c.types ++ (replyOf r).received⟩) := by
    unfold ask
    have hrun' : (q.query (c.servedBy p).types).run.run.run (c.servedBy p).session =
        (r, t.servedBy p) := hserved
    rw [hrun']
    rfl
  rw [hask, hask']
  rfl

/-- **Any questions.** The client is told the same, and learns the same. -/
theorem askAll_servedBy (h : c.Fits w) (hp : w.Stands p) (questions : List Question)
    (huncut : w.provider.extent = p.extent ∨ (c.askAll questions).session.cutOff = false) :
    (c.servedBy p).transcript questions = c.transcript questions ∧
      (c.servedBy p).askAll questions = (c.askAll questions).servedBy p := by
  induction questions generalizing c with
  | nil => exact ⟨rfl, rfl⟩
  | cons q rest ih =>
    have hfits := (fits_ask h q).1
    obtain ⟨htold, hlearnt⟩ := ih hfits huncut
    have hask := ask_servedBy h hp q (huncut.imp_right (cutOff_of_askAll hfits rest))
    constructor
    · rw [transcript, transcript, hask, htold]
    · show ((c.servedBy p).ask q).2.askAll rest = ((c.ask q).2.askAll rest).servedBy p
      rw [hask, hlearnt]

/-! ### New clients -/

section Start

variable (token : SessionToken) (files : Batch) (config : ModelConfig)
  (provider provider' : Provider)

/-- Of two providers that agree, the one that allows for more types may stand in for the other. -/
theorem start_servedBy
    (agree : ∀ name, (start token files provider config).session.world.find? name = none →
      provider'.resolve? name = provider.resolve? name)
    (hextent : provider.extent ≤ provider'.extent)
    (counted : provider.extent = provider'.extent ∨ provider.Counted) (questions : List Question) :
    let c := start token files provider config
    let c' := start token files provider' config
    c'.transcript questions = c.transcript questions ∧
      c'.askAll questions = (c.askAll questions).servedBy provider' := by
  intro c c'
  have hfits : c.Fits c.session.world := fits_start token files provider config
  exact askAll_servedBy hfits ⟨agree, hextent⟩ questions
    (counted.imp_right (fits_askAll hfits questions).2.cutOff)

/-- **The provider is asked at most once for a name, and never for a name that the batch declares**,
    by whatever questions. So providers that agree on all other names lead to the same run: the
    client is told the same, and its session has learnt the same. -/
theorem provider_independent (questions : List Question) :
    let c := start token files provider config
    let c' := start token files provider' config
    let asked := (c.askAll questions).session.asked
    asked.Nodup ∧ (∀ name ∈ asked, c.session.world.find? name = none) ∧
    ((∀ name, c.session.world.find? name = none →
        provider'.resolve? name = provider.resolve? name) →
      provider.extent = provider'.extent ∨ provider.Counted ∧ provider'.Counted →
      c'.transcript questions = c.transcript questions ∧
        c'.askAll questions = (c.askAll questions).servedBy provider') := by
  intro c c' asked
  have hfits : c.Fits c.session.world := fits_start token files provider config
  have hidle := (fits_askAll hfits questions).1.idle
  have hsound := hidle.resolved.sound
  refine ⟨hsound.asked_nodup, fun name hname => ?_, fun agree hextent => ?_⟩
  · obtain ⟨n, hn, hnone, -⟩ := hsound.asked_known name hname
    rw [← hidle.resolved.of.find? hidle.resolved.world hn]
    exact hnone
  · rcases Nat.le_total provider.extent provider'.extent with hle | hle
    · exact start_servedBy token files config provider provider' agree hle
        (hextent.imp_right And.left) questions
    · -- The second provider allows for fewer types, so that the first one stands in for it.
      have hback := start_servedBy token files config provider' provider
        (fun name hname => (agree name hname).symm) hle (hextent.imp Eq.symm And.right) questions
      have hfits' : c'.Fits c'.session.world := fits_start token files provider' config
      have hprovider : (c'.askAll questions).session.provider = provider' :=
        (fits_askAll hfits' questions).1.idle.resolved.of.provider
      refine ⟨hback.1.symm, ?_⟩
      rw [hback.2]
      exact (servedBy_self hprovider).symm

end Start

/-- The root type, and an interface of the name that the class of a batch has. -/
def misleading : Provider where
  resolve? name :=
    if name = "p.A" then some { qualifiedName := "p.A", package := "p", kind := .interfaceType }
    else onlyObject.resolve? name
  extent := 1

/-- The interface is never asked for. -/
theorem provider_independent_misleading :
    let files : Batch := #[⟨"A.java", "package p; class A { A a; }"⟩]
    let questions : List Question := [.lookupType "p.A", .superclass 1, .enclosed 1, .ownType 3]
    let c := start 0 files onlyObject {}
    (∀ name, c.session.world.find? name = none →
      misleading.resolve? name = onlyObject.resolve? name) ∧
    misleading.resolve? "p.A" ≠ onlyObject.resolve? "p.A" ∧
    (start 0 files misleading {}).transcript questions = c.transcript questions := by
  intro files questions c
  have hdeclared : c.session.world.find? "p.A" ≠ none := by decide +kernel
  have agree : ∀ name, c.session.world.find? name = none →
      misleading.resolve? name = onlyObject.resolve? name := by
    intro name hname
    have hne : name ≠ "p.A" := by
      rintro rfl
      exact hdeclared hname
    exact if_neg hne
  refine ⟨agree, by decide, ?_⟩
  obtain ⟨-, -, hsame⟩ := provider_independent 0 files {} onlyObject misleading questions
  exact (hsame agree (.inl rfl)).1

end Client

end JavaAbi
