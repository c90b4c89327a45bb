import JavaAbi.Proofs.Clients

namespace JavaAbi

/-!
# Other providers

What a provider says about the names of the batch is never heard: another provider that says the
same about all other names leads to the same run. The runs are compared step by step, by a judgement
on work, with one rule for each way to put work together and one lemma for each function.

A search for a member type goes through at most as many types as the provider allows for. Where the
first provider allows for fewer types than the second, the runs are the same unless the first one is
cut off.

* `Session.servedBy` — a session over another provider;
* `World.Stands` — a provider that may stand in for that of a world;
* `World.Mirrors` — work that runs the same over both, with its rules;
* `canonical_mirrors` — elements are made in the same way;
* `directSupertypes_mirrors`, `resolveType_mirrors` — names are resolved in the same way.
-/

theorem NameTable.le_of_qualify? {t u : NameTable} {outer : Option Name} {simple n : Name}
    (h : t.qualify? outer simple = some (n, u)) : t.Le u := by
  unfold qualify? at h
  split at h
  · cases h
  · split at h
    · cases h
      exact .refl t
    · split at h
      · cases h
        exact .refl t
      · obtain ⟨o, -, h⟩ := Option.bind_eq_some_iff.1 h
        obtain ⟨s, -, h⟩ := Option.bind_eq_some_iff.1 h
        have hu : (t.intern (o ++ "." ++ s)).2 = u := congrArg Prod.snd (Option.some.inj h)
        rw [← hu]
        exact t.le_intern _

/-- The session over another provider. -/
def Session.servedBy (s : Session) (p : Provider) : Session := { s with provider := p }

namespace World

variable {w : World} {p : Provider} {α β : Type}

/-- A provider says what that of the world says about all names that the batch does not declare. It
    allows for as many types or more. -/
structure Stands (w : World) (p : Provider) : Prop where
  agrees : ∀ name, w.find? name = none → p.resolve? name = w.provider.resolve? name
  extent : w.provider.extent ≤ p.extent

/-- The run over the provider of the world is cut off, and the other provider allows for more. -/
def CutShort (w : World) (p : Provider) (r : Except Breach α) (t : Session) : Prop :=
  w.provider.extent < p.extent ∧ (t.cutOff = true ∨ r = .error .endlessSupertypes)

/-- **Work that runs the same over another provider**, unless it is cut off. -/
def Mirrors (w : World) (p : Provider) (m m' : SessionM α) : Prop :=
  ∀ s, s.Of w → ∃ r t, m.run.run s = (r, t) ∧ t.Of w ∧ (s.cutOff = true → t.cutOff = true) ∧
    (w.CutShort p r t ∨ m'.run.run (s.servedBy p) = (r, t.servedBy p))

/-- The same for queries. -/
def QueryMirrors (w : World) (p : Provider) (q q' : Query α) : Prop := w.Mirrors p q.run q'.run

/-! ### Rules for work -/

section Rules

variable {m m' : SessionM α} {f f' : α → SessionM β}

theorem Mirrors.pure (a : α) : w.Mirrors p (Pure.pure a) (Pure.pure a) := fun s hs =>
  ⟨.ok a, s, rfl, hs, id, .inr rfl⟩

theorem Mirrors.throw (b : Breach) : w.Mirrors p (throw b : SessionM α) (throw b) := fun s hs =>
  ⟨.error b, s, rfl, hs, id, .inr rfl⟩

theorem Mirrors.bind (h : w.Mirrors p m m') (hf : ∀ a, w.Mirrors p (f a) (f' a)) :
    w.Mirrors p (m >>= f) (m' >>= f') := by
  intro s hs
  obtain ⟨r, t, hm, ht, hcut, hm'⟩ := h s hs
  cases r with
  | ok a =>
    obtain ⟨r, u, hfa, hu, hcut', hfa'⟩ := hf a t ht
    refine ⟨r, u, by rw [SessionM.run_bind hm, hfa], hu, fun h => hcut' (hcut h), ?_⟩
    rcases hm' with ⟨hextent, hoff⟩ | hm'
    · -- What is cut off stays so.
      rcases hoff with hoff | hoff
      · exact .inl ⟨hextent, .inl (hcut' hoff)⟩
      · cases hoff
    · rcases hfa' with hshort | hfa'
      · exact .inl hshort
      · exact .inr (by rw [SessionM.run_bind hm', hfa'])
  | error b =>
    refine ⟨.error b, t, SessionM.run_breach hm, ht, hcut, ?_⟩
    rcases hm' with ⟨hextent, hoff⟩ | hm'
    · refine .inl ⟨hextent, hoff.imp_right fun hb => ?_⟩
      cases hb
      rfl
    · exact .inr (SessionM.run_breach hm')

/-- Reading a session, for something that is the same over the other provider. -/
theorem Mirrors.read_served {f f' : Session → SessionM α}
    (hserved : ∀ s, s.Of w → f' (s.servedBy p) = f' s)
    (hf : ∀ s, s.Of w → w.Mirrors p (f s) (f' s)) : w.Mirrors p (get >>= f) (get >>= f') := by
  intro s hs
  obtain ⟨r, t, hm, ht, hcut, hm'⟩ := hf s hs s hs
  refine ⟨r, t, hm, ht, hcut, hm'.imp_right fun hm' => ?_⟩
  rw [← hserved s hs] at hm'
  exact hm'

/-- Reading a session, of which the provider is not read. -/
theorem Mirrors.read {f f' : Session → SessionM α} (hserved : ∀ s, f' (s.servedBy p) = f' s)
    (hf : ∀ s, s.Of w → w.Mirrors p (f s) (f' s)) : w.Mirrors p (get >>= f) (get >>= f') :=
  .read_served (fun s _ => hserved s) hf

/-- A change of a session that leaves what it was opened with. -/
theorem Mirrors.change {f : Session → α × Session}
    (hserved : ∀ s, f (s.servedBy p) = ((f s).1, (f s).2.servedBy p))
    (hbase : ∀ s, (f s).2.toSessionBase = s.toSessionBase)
    (hnames : ∀ s : Session, s.names.Le (f s).2.names)
    (hcut : ∀ s, s.cutOff = true → (f s).2.cutOff = true) :
    w.Mirrors p (modifyGet f) (modifyGet f) := fun s hs =>
  ⟨.ok (f s).1, (f s).2, rfl, ⟨(hbase s).trans hs.base, hs.names.trans (hnames s)⟩, hcut s,
    .inr (by show (Except.ok (f (s.servedBy p)).1, (f (s.servedBy p)).2) = _; rw [hserved])⟩

/-- Where a breach stops the work, it is undone, and the breach stays. -/
theorem run_guarded_breach {undo : SessionM Unit} {s t u : Session} {b : Breach}
    (h : m.run.run s = (.error b, t)) (hundo : undo.run.run t = (.ok (), u)) :
    (guarded undo m).run.run s = (.error b, u) := by
  rw [guarded, ExceptT.run_tryCatch, StateT.run_bind, h]
  exact SessionM.run_bind hundo

/-- Work that is undone where a breach stops it. -/
theorem Mirrors.guarded {undo : SessionM Unit} (h : w.Mirrors p m m')
    (hundo : w.Mirrors p undo undo) (hends : ∀ t, (undo.run.run t).1 = .ok ()) :
    w.Mirrors p (guarded undo m) (JavaAbi.guarded undo m') := by
  intro s hs
  obtain ⟨r, t, hm, ht, hcut, hm'⟩ := h s hs
  cases r with
  | ok a =>
    refine ⟨.ok a, t, run_guarded undo hm, ht, hcut, ?_⟩
    exact hm'.imp_right fun hm' => run_guarded undo hm'
  | error b =>
    obtain ⟨r, u, hu, hof, hcut', hu'⟩ := hundo t ht
    have hok : r = .ok () := by rw [← hends t, hu]
    subst hok
    refine ⟨.error b, u, run_guarded_breach hm hu, hof, fun h => hcut' (hcut h), ?_⟩
    rcases hm' with ⟨hextent, hoff⟩ | hm'
    · refine .inl ⟨hextent, hoff.imp hcut' fun hb => ?_⟩
      cases hb
      rfl
    · rcases hu' with ⟨hextent, hoff⟩ | hu'
      · refine .inl ⟨hextent, .inl (hoff.resolve_right nofun)⟩
      · exact .inr (run_guarded_breach hm' hu')

theorem Mirrors.mapM {xs : List α} (h : ∀ a, w.Mirrors p (f a) (f' a)) :
    w.Mirrors p (xs.mapM f) (xs.mapM f') := by
  induction xs with
  | nil =>
    rw [List.mapM_nil, List.mapM_nil]
    exact .pure []
  | cons a rest ih =>
    rw [List.mapM_cons, List.mapM_cons]
    exact (h a).bind fun b => ih.bind fun bs => .pure (b :: bs)

end Rules

/-! ### Rules for queries -/

section Queries

variable {q q' : Query α} {f f' : α → Query β} {m m' : SessionM α}

theorem QueryMirrors.pure (a : α) : w.QueryMirrors p (Pure.pure a) (Pure.pure a) :=
  Mirrors.pure (w := w) (p := p) (Except.ok a)

theorem QueryMirrors.throw (e : ModelError) :
    w.QueryMirrors p (throw e : Query α) (throw e) :=
  Mirrors.pure (w := w) (p := p) (Except.error e)

theorem QueryMirrors.bind (h : w.QueryMirrors p q q') (hf : ∀ a, w.QueryMirrors p (f a) (f' a)) :
    w.QueryMirrors p (q >>= f) (q' >>= f') := by
  refine Mirrors.bind h fun r => ?_
  cases r with
  | ok a => exact hf a
  | error e => exact Mirrors.pure (Except.error e)

/-- Work in a query. -/
theorem QueryMirrors.lift_last (h : w.Mirrors p m m') :
    w.QueryMirrors p (liftM m) (liftM m') :=
  Mirrors.bind h fun a => Mirrors.pure (Except.ok a)

theorem QueryMirrors.lift (h : w.Mirrors p m m') (hf : ∀ a, w.QueryMirrors p (f a) (f' a)) :
    w.QueryMirrors p (liftM m >>= f) (liftM m' >>= f') :=
  (QueryMirrors.lift_last h).bind hf

theorem QueryMirrors.read {f f' : Session → Query α} (hserved : ∀ s, f' (s.servedBy p) = f' s)
    (hf : ∀ s, s.Of w → w.QueryMirrors p (f s) (f' s)) :
    w.QueryMirrors p (get >>= f) (get >>= f') :=
  Mirrors.read (f := fun s => (f s).run) (fun s => congrArg ExceptT.run (hserved s)) hf

/-- The outcome of a query. -/
theorem QueryMirrors.attempt {f f' : Except ModelError α → Query β} (h : w.QueryMirrors p q q')
    (hf : ∀ r, w.QueryMirrors p (f r) (f' r)) :
    w.QueryMirrors p (Query.attempt q >>= f) (Query.attempt q' >>= f') :=
  QueryMirrors.lift h hf

theorem QueryMirrors.ofExcept (r : Except ModelError α) :
    w.QueryMirrors p (Query.ofExcept r) (Query.ofExcept r) :=
  Mirrors.pure (w := w) (p := p) r

/-- Work on the error of a query. -/
theorem QueryMirrors.handle {f f' : ModelError → Query α} (h : w.QueryMirrors p q q')
    (hf : ∀ e, w.QueryMirrors p (f e) (f' e)) :
    w.QueryMirrors p (tryCatch q f) (tryCatch q' f') := by
  refine Mirrors.bind h fun r => ?_
  cases r with
  | ok a => exact Mirrors.pure (Except.ok a)
  | error e => exact hf e

theorem QueryMirrors.map {f : α → β} (h : w.QueryMirrors p q q') :
    w.QueryMirrors p (f <$> q) (f <$> q') := by
  rw [map_eq_pure_bind, map_eq_pure_bind]
  exact h.bind fun a => .pure (f a)

theorem QueryMirrors.mapM {xs : List α} (h : ∀ a, w.QueryMirrors p (f a) (f' a)) :
    w.QueryMirrors p (xs.mapM f) (xs.mapM f') := by
  induction xs with
  | nil =>
    rw [List.mapM_nil, List.mapM_nil]
    exact .pure []
  | cons a rest ih =>
    rw [List.mapM_cons, List.mapM_cons]
    exact (h a).bind fun b => ih.bind fun bs => .pure (b :: bs)

theorem QueryMirrors.foldlM {f f' : β → α → Query β} {xs : List α} {b : β}
    (h : ∀ b a, w.QueryMirrors p (f b a) (f' b a)) :
    w.QueryMirrors p (xs.foldlM f b) (xs.foldlM f' b) := by
  induction xs generalizing b with
  | nil => exact .pure b
  | cons a rest ih =>
    rw [List.foldlM_cons, List.foldlM_cons]
    exact (h b a).bind fun b => ih

end Queries

end World

variable {w : World} {p : Provider} {α β : Type}

/-! ### Names, elements and declarations -/

theorem internName_mirrors (text : String) : w.Mirrors p (internName text) (internName text) :=
  .change (fun _ => rfl) (fun _ => rfl) (fun s => s.names.le_intern text) fun _ h => h

theorem internNames_mirrors (texts : List String) :
    w.Mirrors p (internNames texts) (internNames texts) := by
  induction texts with
  | nil => exact .pure []
  | cons text rest ih =>
    exact (internName_mirrors text).bind fun n => ih.bind fun ns => .pure (n :: ns)

theorem note_mirrors (e : SessionEvent) : w.Mirrors p (note e) (note e) :=
  .change (fun _ => rfl) (fun _ => rfl) (fun s => .refl s.names) fun _ h => h

theorem nameText_mirrors (n : Name) : w.Mirrors p (nameText n) (nameText n) := by
  unfold nameText
  refine .read (fun _ => rfl) fun s _ => ?_
  match s.names.resolve? n with
  | some text => exact .pure text
  | none => exact .throw (.foreignName n)

/-- Whether the batch declares the text of a name is known from the name. -/
theorem nameText_bind_mirrors {n : Name} {f f' : String → Query α} (hw : w.Sound)
    (hf : ∀ text, w.find? text = w.index.find? n → w.QueryMirrors p (f text) (f' text)) :
    w.QueryMirrors p (liftM (nameText n) >>= f) (liftM (nameText n) >>= f') := by
  intro s hs
  match hn : s.names.resolve? n with
  | some text =>
    have hrun : (nameText n).run.run s = (.ok text, s) := by
      rw [nameText, SessionM.run_get_bind, hn]
      rfl
    have hrun' : (nameText n).run.run (s.servedBy p) = (.ok text, s.servedBy p) := by
      have hn' : (s.servedBy p).names.resolve? n = some text := hn
      rw [nameText, SessionM.run_get_bind, hn']
      rfl
    have hfind := hs.find? hw hn
    rw [hs.index] at hfind
    obtain ⟨r, t, hm, ht, hcut, hm'⟩ := hf text hfind.symm s hs
    refine ⟨r, t, (Query.run_lift_bind hrun).trans hm, ht, hcut, hm'.imp_right fun hm' => ?_⟩
    exact (Query.run_lift_bind hrun').trans hm'
  -- A name of another table ends both runs with the same error.
  | none =>
    have hrun : (nameText n).run.run s = (.error (.foreignName n), s) := by
      rw [nameText, SessionM.run_get_bind, hn]
      rfl
    have hrun' : (nameText n).run.run (s.servedBy p) = (.error (.foreignName n), s.servedBy p) := by
      have hn' : (s.servedBy p).names.resolve? n = none := hn
      rw [nameText, SessionM.run_get_bind, hn']
      rfl
    exact ⟨_, s, Query.run_lift_breach hrun, hs, id, .inr (Query.run_lift_breach hrun')⟩

theorem elementAt_mirrors (id : ElementId) : w.Mirrors p (elementAt id) (elementAt id) := by
  unfold elementAt
  refine .read (fun _ => rfl) fun s _ => ?_
  match s.elements.get? id with
  | some e => exact .pure e
  | none => exact .throw (.foreignElement id)

theorem updateElement_mirrors (id : ElementId) (f : Element → Element) :
    w.Mirrors p (updateElement id f) (updateElement id f) :=
  (elementAt_mirrors id).bind fun _ =>
    .change (fun _ => rfl) (fun _ => rfl) (fun s => .refl s.names) fun _ h => h

theorem allocate_mirrors (e : Element) : w.Mirrors p (allocate e) (allocate e) :=
  .bind (.change (fun _ => rfl) (fun _ => rfl) (fun s => .refl s.names) fun _ h => h)
    fun id => (note_mirrors _).bind fun _ => .pure id

theorem declAt_mirrors (d : DeclId) : w.Mirrors p (declAt d) (declAt d) := by
  unfold declAt
  refine .read (fun _ => rfl) fun s _ => ?_
  match s.index.get? d with
  | some info => exact .pure info
  | none => exact .throw (.foreignDecl d)

theorem qualifyName_mirrors (outer : Option Name) (simple : Name) :
    w.Mirrors p (qualifyName outer simple) (qualifyName outer simple) := by
  intro s hs
  have hserved : (s.servedBy p).names = s.names := rfl
  match hq : s.names.qualify? outer simple with
  | some (n, names) =>
    have hle : s.names.Le names := NameTable.le_of_qualify? hq
    refine ⟨.ok n, { s with names }, ?_, ⟨hs.base, hs.names.trans hle⟩, id, .inr ?_⟩
    · rw [qualifyName, SessionM.run_get_bind, hq]
      rfl
    · rw [qualifyName, SessionM.run_get_bind, hserved, hq]
      rfl
  | none =>
    refine ⟨.error (if simple = .empty then .emptyName else .foreignName simple), s, ?_, hs, id,
      .inr ?_⟩
    · rw [qualifyName, SessionM.run_get_bind, hq]
      rfl
    · rw [qualifyName, SessionM.run_get_bind, hserved, hq]
      rfl

theorem findNamed_mirrors (simple : Name) (ds : List DeclId) :
    w.Mirrors p (findNamed simple ds) (findNamed simple ds) := by
  induction ds with
  | nil => exact .pure none
  | cons d rest ih =>
    refine (declAt_mirrors d).bind fun info => ?_
    split
    · exact .pure (some d)
    · exact ih

theorem memberTypeNamed_mirrors (owner : DeclId) (simple : Name) :
    w.Mirrors p (memberTypeNamed owner simple) (memberTypeNamed owner simple) :=
  (declAt_mirrors owner).bind fun info => findNamed_mirrors simple info.memberTypes

theorem keyOf_mirrors (d : DeclId) : w.Mirrors p (keyOf d) (keyOf d) :=
  (declAt_mirrors d).bind fun info => .pure (info.key d)

theorem describeKey_mirrors (key : ElementKey) :
    w.Mirrors p (describeKey key) (describeKey key) := by
  cases key with
  | package n | type n => exact (nameText_mirrors n).bind fun _ => .pure _
  | unnamed d | field d m v | constant d m => exact .pure _

theorem requestElement_mirrors (key : ElementKey) :
    w.Mirrors p (requestElement key) (requestElement key) :=
  .change (fun _ => rfl) (fun _ => rfl) (fun s => .refl s.names) fun _ h => h

theorem finishElement_mirrors (key : ElementKey) (r : Except ModelError ElementId) :
    w.Mirrors p (finishElement key r) (finishElement key r) :=
  .change (fun _ => rfl) (fun _ => rfl) (fun s => .refl s.names) fun _ h => h

theorem abandonElement_mirrors (key : ElementKey) :
    w.Mirrors p (abandonElement key) (abandonElement key) :=
  .change (fun _ => rfl) (fun _ => rfl) (fun s => .refl s.names) fun _ h => h

/-! ### Construction -/

section Build

variable {make : ElementKey → Query ElementId}

theorem packageElement_mirrors (hmake : ∀ key, w.QueryMirrors p (make key) (make key))
    (package : Option Name) :
    w.QueryMirrors p (packageElement make package) (packageElement make package) := by
  unfold packageElement
  split
  · split
    · exact .pure none
    · exact (hmake _).map
  · exact .pure none

theorem buildPackage_mirrors (n : Name) : w.Mirrors p (buildPackage n) (buildPackage n) :=
  (nameText_mirrors n).bind fun _ => (internName_mirrors _).bind fun _ => .pure _

theorem memberKeys_mirrors (d : DeclId) (i : Nat) (m : Member) :
    w.Mirrors p (memberKeys d i m) (memberKeys d i m) := by
  cases m with
  | type decl =>
    refine .read (fun _ => rfl) fun s _ => ?_
    match s.index.child? d i with
    | some child => exact (keyOf_mirrors child).bind fun key => .pure [key]
    | none => exact .pure []
  | field f | constant n body span => exact .pure _

theorem allMemberKeys_mirrors (d : DeclId) (i : Nat) (ms : List Member) :
    w.Mirrors p (allMemberKeys d i ms) (allMemberKeys d i ms) := by
  induction ms generalizing i with
  | nil => exact .pure []
  | cons m rest ih =>
    exact (memberKeys_mirrors d i m).bind fun keys => (ih (i + 1)).bind fun later =>
      .pure (keys ++ later)

theorem declEnclosing_mirrors (hmake : ∀ key, w.QueryMirrors p (make key) (make key))
    (info : DeclInfo) :
    w.QueryMirrors p (declEnclosing make info) (declEnclosing make info) := by
  unfold declEnclosing
  split
  · exact (hmake _).map
  · exact .lift (keyOf_mirrors _) fun key => (hmake key).map
  · exact .read (fun _ => rfl) fun s _ => packageElement_mirrors hmake _

theorem buildTreeType_mirrors (hmake : ∀ key, w.QueryMirrors p (make key) (make key))
    (d : DeclId) : w.QueryMirrors p (buildTreeType make d) (buildTreeType make d) := by
  refine .lift (declAt_mirrors d) fun info => .read (fun _ => rfl) fun s _ => ?_
  match s.index.tree? s.units d with
  | none => exact .throw _
  | some tree =>
    exact (declEnclosing_mirrors hmake info).bind fun enclosing =>
      .lift (allMemberKeys_mirrors d 0 tree.members) fun members => .pure _

theorem buildField_mirrors (hmake : ∀ key, w.QueryMirrors p (make key) (make key)) (d : DeclId)
    (m v : Nat) : w.QueryMirrors p (buildField make d m v) (buildField make d m v) := by
  refine .read (fun _ => rfl) fun s _ => ?_
  split
  · split
    · exact .lift (keyOf_mirrors d) fun key => (hmake key).bind fun owner => .pure _
    · exact .throw _
  · exact .throw _

theorem buildConstant_mirrors (hmake : ∀ key, w.QueryMirrors p (make key) (make key)) (d : DeclId)
    (m : Nat) : w.QueryMirrors p (buildConstant make d m) (buildConstant make d m) := by
  refine .read (fun _ => rfl) fun s _ => ?_
  split
  · exact .lift (keyOf_mirrors d) fun key => (hmake key).bind fun owner => .pure _
  · exact .throw _

theorem describedPackage_mirrors (hmake : ∀ key, w.QueryMirrors p (make key) (make key))
    (d : Descriptor) :
    w.QueryMirrors p (describedPackage make d) (describedPackage make d) :=
  .lift (internName_mirrors d.package) fun n => packageElement_mirrors hmake (some n)

theorem describedEnclosing_mirrors (hmake : ∀ key, w.QueryMirrors p (make key) (make key))
    (d : Descriptor) :
    w.QueryMirrors p (describedEnclosing make d) (describedEnclosing make d) := by
  unfold describedEnclosing
  split
  · exact describedPackage_mirrors hmake d
  · refine .lift (internName_mirrors _) fun n => (hmake (.type n)).attempt fun r => ?_
    cases r with
    | ok id => exact .pure (some id)
    | error e =>
      dsimp only
      split
      · exact describedPackage_mirrors hmake d
      · exact .throw e

theorem buildDescribed_mirrors (hmake : ∀ key, w.QueryMirrors p (make key) (make key))
    (d : Descriptor) : w.QueryMirrors p (buildDescribed make d) (buildDescribed make d) :=
  .lift (internName_mirrors _) fun _ => (describedEnclosing_mirrors hmake d).bind fun _ =>
    .lift (internName_mirrors _) fun _ => .lift (internNames_mirrors _) fun _ => .pure _

/-- **The provider is asked.** The batch does not declare the name, so both say the same. -/
theorem buildForwarded_mirrors (hw : w.Sound) (hp : w.Stands p)
    (hmake : ∀ key, w.QueryMirrors p (make key) (make key)) {n : Name}
    (hn : w.index.find? n = none) :
    w.QueryMirrors p (buildForwarded make n) (buildForwarded make n) := by
  refine nameText_bind_mirrors hw fun text htext => .lift (note_mirrors _) fun _ => ?_
  have hsame := hp.agrees text (htext.trans hn)
  refine World.Mirrors.read_served (fun s hs => ?_) fun s hs => ?_
  · have hprovider : (s.servedBy p).provider.resolve? text = s.provider.resolve? text := by
      rw [hs.provider]
      exact hsame
    rw [hprovider]
  · match s.provider.resolve? text with
    | none => exact World.QueryMirrors.throw _
    | some d =>
      dsimp only
      split
      · exact buildDescribed_mirrors hmake d
      · exact World.QueryMirrors.throw _

theorem build_mirrors (hw : w.Sound) (hp : w.Stands p)
    (hmake : ∀ key, w.QueryMirrors p (make key) (make key)) (key : ElementKey) :
    w.QueryMirrors p (build make key) (build make key) := by
  cases key with
  | package n => exact .lift_last (buildPackage_mirrors n)
  | type n =>
    refine .read (fun _ => rfl) fun s hs => ?_
    match hf : s.index.find? n with
    | some d => exact buildTreeType_mirrors hmake d
    | none =>
      rw [hs.index] at hf
      exact buildForwarded_mirrors hw hp hmake hf
  | unnamed d => exact buildTreeType_mirrors hmake d
  | field d m v => exact buildField_mirrors hmake d m v
  | constant d m => exact buildConstant_mirrors hmake d m

theorem construct_mirrors (hw : w.Sound) (hp : w.Stands p)
    (hmake : ∀ key, w.QueryMirrors p (make key) (make key)) (key : ElementKey) :
    w.QueryMirrors p (construct make key) (construct make key) := by
  have hprepare : w.QueryMirrors p (prepare make key) (prepare make key) :=
    .lift (describeKey_mirrors key) fun text => .lift (note_mirrors _) fun _ =>
      build_mirrors hw hp hmake key
  exact hprepare.bind fun e => .lift_last (allocate_mirrors e)

end Build

theorem canonicalWithin_mirrors (hw : w.Sound) (hp : w.Stands p) (fuel : Nat) (key : ElementKey) :
    w.QueryMirrors p (canonicalWithin fuel key) (canonicalWithin fuel key) := by
  induction fuel generalizing key with
  | zero => exact .lift (describeKey_mirrors key) fun _ => .throw _
  | succ fuel ih =>
    refine .lift (requestElement_mirrors key) fun r => ?_
    cases r with
    | found r => exact .ofExcept r
    | reentrant => exact .lift (describeKey_mirrors key) fun _ => .throw _
    | construct =>
      have hguarded : w.QueryMirrors p
          (Query.guarded (abandonElement key) (construct (canonicalWithin fuel) key))
          (Query.guarded (abandonElement key) (construct (canonicalWithin fuel) key)) :=
        World.Mirrors.guarded (construct_mirrors hw hp ih key) (abandonElement_mirrors key)
          fun _ => rfl
      exact hguarded.attempt fun r => .lift (finishElement_mirrors key r) fun _ => .ofExcept r

/-- **Elements are made in the same way.** -/
theorem canonical_mirrors (hw : w.Sound) (hp : w.Stands p) (key : ElementKey) :
    w.QueryMirrors p (canonical key) (canonical key) :=
  .read (fun _ => rfl) fun _ _ => canonicalWithin_mirrors hw hp _ key

theorem findType_mirrors (hw : w.Sound) (hp : w.Stands p) (n : Name) :
    w.QueryMirrors p (findType n) (findType n) := canonical_mirrors hw hp (.type n)

theorem tryType_mirrors (hw : w.Sound) (hp : w.Stands p) (n : Name) :
    w.QueryMirrors p (tryType n) (tryType n) := by
  refine (findType_mirrors hw hp n).attempt fun r => ?_
  cases r with
  | ok id => exact .pure (some id)
  | error e =>
    dsimp only
    split
    · exact .pure none
    · exact .throw e

theorem elementOfDecl_mirrors (hw : w.Sound) (hp : w.Stands p) (d : DeclId) :
    w.QueryMirrors p (elementOfDecl d) (elementOfDecl d) :=
  .lift (keyOf_mirrors d) fun key => canonical_mirrors hw hp key

theorem displayElement_mirrors (id : ElementId) :
    w.Mirrors p (displayElement id) (displayElement id) :=
  (elementAt_mirrors id).bind fun _ => nameText_mirrors _

/-! ### Bounds -/

/-- A bound and the one that takes its place: it is greater only where the provider allows for more
    types. -/
structure World.Room (w : World) (p : Provider) (n n' : Nat) : Prop where
  le : n ≤ n'
  eq : n = n' ∨ w.provider.extent < p.extent

theorem World.Room.pred {n n' : Nat} (h : w.Room p (n + 1) (n' + 1)) : w.Room p n n' :=
  ⟨Nat.le_of_succ_le_succ h.le, h.eq.imp_left Nat.succ.inj⟩

theorem World.Room.of_typeBound {s : Session} (hp : w.Stands p) (hs : s.Of w) :
    w.Room p s.typeBound (s.servedBy p).typeBound := by
  have hextent := hp.extent
  have hbound : (s.servedBy p).typeBound = s.index.size + p.extent + 1 := rfl
  rw [hbound, Session.typeBound, hs.provider]
  refine ⟨by omega, ?_⟩
  rcases Nat.eq_or_lt_of_le hextent with heq | hlt
  · exact .inl (by rw [heq])
  · exact .inr hlt

/-- Work that is given the bound on types. -/
theorem World.Mirrors.bounded (hp : w.Stands p) (f f' : Nat → SessionM α)
    (h : ∀ n n', w.Room p n n' → w.Mirrors p (f n) (f' n')) :
    w.Mirrors p (get >>= fun s => f s.typeBound) (get >>= fun s => f' s.typeBound) := fun s hs =>
  h _ _ (.of_typeBound hp hs) s hs

theorem World.QueryMirrors.bounded (hp : w.Stands p) (f f' : Nat → Query α)
    (h : ∀ n n', w.Room p n n' → w.QueryMirrors p (f n) (f' n')) :
    w.QueryMirrors p (get >>= fun s => f s.typeBound) (get >>= fun s => f' s.typeBound) :=
  World.Mirrors.bounded hp (fun n => (f n).run) (fun n => (f' n).run) h

/-! ### Member types -/

theorem scopeChain_mirrors (fuel : Nat) (id : Option ElementId) :
    w.Mirrors p (scopeChain fuel id) (scopeChain fuel id) := by
  induction fuel generalizing id with
  | zero => exact .pure _
  | succ fuel ih =>
    cases id with
    | none => exact .pure _
    | some id =>
      refine (elementAt_mirrors id).bind fun e => ?_
      split
      · exact .pure _
      · exact (ih _).bind fun _ => .pure _
      · exact ih _

theorem scopeOf_mirrors (id : ElementId) : w.QueryMirrors p (scopeOf id) (scopeOf id) := by
  refine .read (fun _ => rfl) fun s _ => .lift (scopeChain_mirrors _ _) fun ⟨chain, unit⟩ => ?_
  cases unit with
  | some unit => exact .pure _
  | none => exact .throw _

theorem headerScopeOf_mirrors (id : ElementId) :
    w.QueryMirrors p (headerScopeOf id) (headerScopeOf id) :=
  (scopeOf_mirrors id).bind fun _ => .pure _

theorem declaredMemberType_mirrors (hw : w.Sound) (hp : w.Stands p) (owner : ElementId)
    (simple : Name) :
    w.QueryMirrors p (declaredMemberType owner simple) (declaredMemberType owner simple) := by
  refine .lift (elementAt_mirrors owner) fun e => ?_
  split
  · refine .lift (memberTypeNamed_mirrors _ _) fun child => ?_
    cases child with
    | some child => exact (elementOfDecl_mirrors hw hp child).map
    | none => exact .pure none
  · exact .lift (qualifyName_mirrors _ _) fun n => tryType_mirrors hw hp n
  · exact .pure none

section Members

variable {sup sup' : ElementId → SessionM (List ElementId)}

/-- **A search for a member type**, with the bound and with one that takes its place. Where the
    first one ends a search that the second one would go on with, the run is cut off. -/
theorem searchMember_mirrors (hw : w.Sound) (hp : w.Stands p)
    (hsup : ∀ id, w.Mirrors p (sup id) (sup' id)) {simple : Name} {fuel fuel' : Nat}
    (hroom : w.Room p fuel fuel') (visited queue : List ElementId) :
    w.QueryMirrors p (searchMember sup simple fuel visited queue)
      (searchMember sup' simple fuel' visited queue) := by
  induction fuel generalizing fuel' visited queue with
  | zero =>
    cases fuel' with
    | zero =>
      have hoff : w.Mirrors p (modify fun s => { s with cutOff := true } : SessionM Unit)
          (modify fun s => { s with cutOff := true }) :=
        .change (fun _ => rfl) (fun _ => rfl) (fun s => .refl s.names) fun _ _ => rfl
      exact .lift hoff fun _ => .pure none
    | succ fuel' =>
      -- The search with the larger bound goes on; the run of this one is cut off.
      have hextent := hroom.eq.resolve_left nofun
      exact fun s hs => ⟨.ok (.ok none), { s with cutOff := true }, rfl, ⟨hs.base, hs.names⟩,
        fun _ => rfl, .inl ⟨hextent, .inl rfl⟩⟩
  | succ fuel ih =>
    cases fuel' with
    | zero => exact absurd hroom.le (Nat.not_succ_le_zero fuel)
    | succ fuel' =>
      unfold searchMember
      generalize queue.dropWhile visited.contains = front
      cases front with
      | nil => exact .pure none
      | cons current rest =>
        have hnext : w.QueryMirrors p
            (do searchMember sup simple fuel (current :: visited) (rest ++ (← sup current)))
            (do searchMember sup' simple fuel' (current :: visited) (rest ++ (← sup' current))) :=
          .lift (hsup current) fun ids => ih hroom.pred _ _
        refine (declaredMemberType_mirrors hw hp current simple).bind fun found => ?_
        cases found with
        | none => exact hnext
        | some id =>
          refine .lift (elementAt_mirrors id) fun e => ?_
          split
          · exact hnext
          · exact .pure (some id)

theorem inheritedMemberType_mirrors (hw : w.Sound) (hp : w.Stands p)
    (hsup : ∀ id, w.Mirrors p (sup id) (sup' id)) (owner : ElementId) (simple : Name) :
    w.QueryMirrors p (inheritedMemberType sup owner simple)
      (inheritedMemberType sup' owner simple) :=
  .lift (hsup owner) fun queue =>
    World.QueryMirrors.bounded hp (searchMember sup simple · [owner] queue)
      (searchMember sup' simple · [owner] queue) fun _ _ hroom =>
        searchMember_mirrors hw hp hsup hroom [owner] queue

theorem memberOf_mirrors (hw : w.Sound) (hp : w.Stands p)
    (hsup : ∀ id, w.Mirrors p (sup id) (sup' id)) (owner : ElementId) (simple : Name) :
    w.QueryMirrors p (memberOf sup owner simple) (memberOf sup' owner simple) := by
  have hunknown : ∀ n, w.QueryMirrors p (do throw (.unknown (← nameText n)) : Query ElementId)
      (do throw (.unknown (← nameText n)) : Query ElementId) := fun n =>
    .lift (nameText_mirrors n) fun _ => .throw _
  refine (declaredMemberType_mirrors hw hp owner simple).bind fun declared => ?_
  cases declared with
  | some id => exact .pure id
  | none =>
    refine (inheritedMemberType_mirrors hw hp hsup owner simple).bind fun inherited => ?_
    cases inherited with
    | some id => exact .pure id
    | none =>
      refine .lift (elementAt_mirrors owner) fun e => ?_
      cases e.qualifiedName with
      | named outer => exact .lift (qualifyName_mirrors _ _) hunknown
      | anonymous | notApplicable => exact hunknown simple

theorem memberTypeAt_mirrors (hw : w.Sound) (hp : w.Stands p)
    (hsup : ∀ id, w.Mirrors p (sup id) (sup' id)) (level : DeclId × ElementId) (simple : Name) :
    w.QueryMirrors p (memberTypeAt sup level simple) (memberTypeAt sup' level simple) := by
  refine .lift (memberTypeNamed_mirrors _ _) fun member => ?_
  cases member with
  | some member => exact (elementOfDecl_mirrors hw hp member).map
  | none => exact inheritedMemberType_mirrors hw hp hsup level.2 simple

/-! ### Names -/

theorem firstFound_mirrors {qs qs' : List (Query (Option ElementId))}
    (h : List.Forall₂ (w.QueryMirrors p) qs qs') :
    w.QueryMirrors p (firstFound qs) (firstFound qs') := by
  induction h with
  | nil => exact .pure none
  | cons hq _ ih =>
    refine hq.bind fun found => ?_
    cases found with
    | some id => exact .pure (some id)
    | none => exact ih

theorem forall₂_map_mirrors {q q' : α → Query β} (xs : List α)
    (h : ∀ a, w.QueryMirrors p (q a) (q' a)) :
    List.Forall₂ (w.QueryMirrors p) (xs.map q) (xs.map q') :=
  List.forall₂_map_left_iff.2 (List.forall₂_map_right_iff.2 (List.forall₂_same.2 fun a _ => h a))

/-- **A simple name** is looked up in the same places. -/
theorem resolveSimple_mirrors (hw : w.Sound) (hp : w.Stands p)
    (hsup : ∀ id, w.Mirrors p (sup id) (sup' id)) (sc : Scope) (simple : Name) :
    w.QueryMirrors p (resolveSimple sup sc simple) (resolveSimple sup' sc simple) := by
  have hwithin : ∀ outer, w.QueryMirrors p (do tryType (← qualifyName outer simple))
      (do tryType (← qualifyName outer simple)) := fun outer =>
    .lift (qualifyName_mirrors outer simple) fun n => tryType_mirrors hw hp n
  refine .read (fun _ => rfl) fun s _ => firstFound_mirrors ?_
  refine List.rel_append (List.rel_append (List.rel_append (List.rel_append ?_ ?_) ?_) ?_) ?_
  · exact forall₂_map_mirrors _ fun level => memberTypeAt_mirrors hw hp hsup level simple
  · exact forall₂_map_mirrors _ fun i => tryType_mirrors hw hp i.2
  · exact .cons (hwithin _) .nil
  · exact forall₂_map_mirrors _ fun o => hwithin (some o)
  · exact forall₂_map_mirrors _ fun o => hwithin (some o)

theorem canonicalPath_mirrors (outer : Option Name) (path : List Name) :
    w.Mirrors p (canonicalPath outer path) (canonicalPath outer path) := by
  induction path generalizing outer with
  | nil => exact .pure outer
  | cons first rest ih => exact (qualifyName_mirrors outer first).bind fun n => ih (some n)

theorem resolvePath_mirrors (hw : w.Sound) (hp : w.Stands p)
    (hsup : ∀ id, w.Mirrors p (sup id) (sup' id)) (sc : Scope) (path : List Name) :
    w.QueryMirrors p (resolvePath sup sc path) (resolvePath sup' sc path) := by
  cases path with
  | nil => exact .throw _
  | cons first rest =>
    refine (resolveSimple_mirrors hw hp hsup sc first).bind fun found => ?_
    cases found with
    | some id => exact .foldlM fun owner simple => memberOf_mirrors hw hp hsup owner simple
    | none =>
      dsimp only
      split
      · exact .lift (nameText_mirrors first) fun _ => .throw _
      · refine .lift (canonicalPath_mirrors none _) fun name => ?_
        cases name with
        | some name => exact findType_mirrors hw hp name
        | none => exact .throw _

theorem resolveReference_mirrors (hw : w.Sound) (hp : w.Stands p)
    (hsup : ∀ id, w.Mirrors p (sup id) (sup' id)) (r : TypeReference) :
    w.QueryMirrors p (resolveReference sup r) (resolveReference sup' r) :=
  (resolvePath_mirrors hw hp hsup r.scope r.path).handle fun _ => .throw _

/-! ### Types -/

theorem newCell_mirrors (r : TypeReference) : w.Mirrors p (newCell r) (newCell r) :=
  .change (fun _ => rfl) (fun _ => rfl) (fun s => .refl s.names) fun _ h => h

theorem keepOutcome_mirrors (cell : Nat) (r : Except ModelError ElementId) :
    w.Mirrors p (keepOutcome cell r) (keepOutcome cell r) :=
  .change (fun _ => rfl) (fun _ => rfl) (fun s => .refl s.names) fun _ h => h

theorem resolveTarget_mirrors (hw : w.Sound) (hp : w.Stands p)
    (hsup : ∀ id, w.Mirrors p (sup id) (sup' id)) (target : TypeTarget) :
    w.QueryMirrors p (resolveTarget sup target) (resolveTarget sup' target) := by
  cases target with
  | known id => exact .pure id
  | written cell reference =>
    refine .read (fun _ => rfl) fun s _ => ?_
    cases (s.cells[cell]?).bind Cell.outcome with
    | some r => exact .ofExcept r
    | none =>
      exact (resolveReference_mirrors hw hp hsup reference).attempt fun r =>
        .lift (keepOutcome_mirrors cell r) fun _ => .ofExcept r

theorem resolveType_mirrors (hw : w.Sound) (hp : w.Stands p)
    (hsup : ∀ id, w.Mirrors p (sup id) (sup' id)) (type : ModelType) :
    w.QueryMirrors p (resolveType sup type) (resolveType sup' type) := by
  cases type with
  | declared origin target args enclosing =>
    refine .read (fun _ => rfl) fun s _ => ?_
    split
    · exact (resolveTarget_mirrors hw hp hsup target).map
    · exact .throw _
  | _ => exact .pure none

theorem parameterLevel_mirrors (name : Name) (levels : List (DeclId × ElementId)) :
    w.Mirrors p (parameterLevel name levels) (parameterLevel name levels) := by
  induction levels with
  | nil => exact .pure none
  | cons level rest ih =>
    refine (declAt_mirrors level.1).bind fun info => ?_
    split
    · exact .pure (some 0)
    · exact ih.bind fun n => .pure _

theorem hidden_mirrors (hw : w.Sound) (hp : w.Stands p)
    (hsup : ∀ id, w.Mirrors p (sup id) (sup' id)) (name : Name)
    (levels : List (DeclId × ElementId)) :
    w.Mirrors p (hidden sup name levels) (hidden sup' name levels) := by
  induction levels with
  | nil => exact .pure false
  | cons level rest ih =>
    refine World.Mirrors.bind (memberTypeAt_mirrors hw hp hsup level name) fun found => ?_
    split
    · exact .pure true
    · exact ih

theorem typeVariable?_mirrors (hw : w.Sound) (hp : w.Stands p)
    (hsup : ∀ id, w.Mirrors p (sup id) (sup' id)) (name : Name) (sc : Scope) :
    w.Mirrors p (typeVariable? sup name sc) (typeVariable? sup' name sc) := by
  refine (parameterLevel_mirrors name sc.chain).bind fun level => ?_
  cases level with
  | none => exact .pure none
  | some level =>
    refine (hidden_mirrors hw hp hsup name _).bind fun b => ?_
    split
    · exact .pure none
    · exact .pure _

theorem enclosedTypes_mirrors (sc : Scope) (span : Span) (path : List Name)
    (enclosing : ModelType) (segments : List (Name × List ModelType)) :
    w.Mirrors p (enclosedTypes sc span path enclosing segments)
      (enclosedTypes sc span path enclosing segments) := by
  induction segments generalizing path enclosing with
  | nil => exact .pure enclosing
  | cons segment rest ih =>
    unfold enclosedTypes
    dsimp only
    split
    · exact (newCell_mirrors _).bind fun c => .read (fun _ => rfl) fun s _ => ih _ _
    · exact ih _ _

mutual

/-- **A written type** is read in the same way. -/
theorem typeOf_mirrors (hw : w.Sound) (hp : w.Stands p)
    (hsup : ∀ id, w.Mirrors p (sup id) (sup' id)) (sc : Scope) (type : TypeRef) :
    w.Mirrors p (typeOf sup sc type) (typeOf sup' sc type) := by
  match type with
  | .primitive _ _ | .void _ | .error _ | .wildcard _ =>
    rw [typeOf, typeOf]
    exact .pure _
  | .array component _ =>
    rw [typeOf, typeOf]
    exact (typeOf_mirrors hw hp hsup sc component).bind fun _ => .pure _
  | .wildcardExtends bound _ | .wildcardSuper bound _ =>
    rw [typeOf, typeOf]
    exact (typeOf_mirrors hw hp hsup sc bound).bind fun _ => .pure _
  | .classType segments span =>
    have hread := segmentsOf_mirrors hw hp hsup sc segments
    -- Only a single segment can be a type parameter.
    have hrest : ∀ parameter : Option (Name × ElementId), w.Mirrors p
        (match parameter with
          | some (name, owner) => return .typeVariable name owner
          | none => do enclosedTypes sc span [] .absent (← segmentsOf sup sc segments))
        (match parameter with
          | some (name, owner) => return .typeVariable name owner
          | none => do enclosedTypes sc span [] .absent (← segmentsOf sup' sc segments)) := by
      intro parameter
      cases parameter with
      | some parameter => exact .pure _
      | none => exact hread.bind fun read => enclosedTypes_mirrors sc span [] .absent read
    unfold typeOf
    match segments, hrest with
    | [only], hrest => exact (typeVariable?_mirrors hw hp hsup only.name sc).bind hrest
    | [], hrest => exact hrest none
    | _ :: _ :: _, hrest => exact hrest none

theorem segmentsOf_mirrors (hw : w.Sound) (hp : w.Stands p)
    (hsup : ∀ id, w.Mirrors p (sup id) (sup' id)) (sc : Scope) (segments : List ClassSegment) :
    w.Mirrors p (segmentsOf sup sc segments) (segmentsOf sup' sc segments) := by
  match segments with
  | [] =>
    rw [segmentsOf, segmentsOf]
    exact .pure []
  | .mk name args :: rest =>
    rw [segmentsOf, segmentsOf]
    exact (segmentsOf_mirrors hw hp hsup sc rest).bind fun _ =>
      (typesOf_mirrors hw hp hsup sc args).bind fun _ => .pure _

theorem typesOf_mirrors (hw : w.Sound) (hp : w.Stands p)
    (hsup : ∀ id, w.Mirrors p (sup id) (sup' id)) (sc : Scope) (types : List TypeRef) :
    w.Mirrors p (typesOf sup sc types) (typesOf sup' sc types) := by
  match types with
  | [] =>
    rw [typesOf, typesOf]
    exact .pure []
  | type :: rest =>
    rw [typesOf, typesOf]
    exact (typeOf_mirrors hw hp hsup sc type).bind fun _ =>
      (typesOf_mirrors hw hp hsup sc rest).bind fun _ => .pure _

end

/-! ### Lists of supertypes -/

theorem collectFound_mirrors {q q' : α → Query (Option ElementId)}
    (h : ∀ a, w.QueryMirrors p (q a) (q' a)) (xs : List α) :
    w.Mirrors p (collectFound q xs) (collectFound q' xs) := by
  induction xs with
  | nil => exact .pure []
  | cons a rest ih =>
    exact World.Mirrors.bind (h a) fun r => ih.bind fun ids => .pure _

theorem computeSupertypes_mirrors (hw : w.Sound) (hp : w.Stands p)
    (hsup : ∀ id, w.Mirrors p (sup id) (sup' id)) (id : ElementId) :
    w.Mirrors p (computeSupertypes sup id) (computeSupertypes sup' id) := by
  refine (elementAt_mirrors id).bind fun e => ?_
  split
  · split
    · split
      · exact (elementAt_mirrors _).bind fun _ => .pure _
      · exact .pure []
    · refine .read (fun _ => rfl) fun s _ => ?_
      refine (collectFound_mirrors (fun n => (findType_mirrors hw hp n).map) _).bind
        fun implicit => World.Mirrors.bind (headerScopeOf_mirrors id) fun r => ?_
      cases r with
      | error e => exact .pure implicit
      | ok sc =>
        have hwritten : ∀ type, w.QueryMirrors p
            (do resolveType sup (← typeOf sup sc type))
            (do resolveType sup' (← typeOf sup' sc type)) := fun type =>
          .lift (typeOf_mirrors hw hp hsup sc type) fun t => resolveType_mirrors hw hp hsup t
        exact (collectFound_mirrors hwritten _).bind fun written => .pure _
  · refine collectFound_mirrors (fun name => ?_) _
    exact .lift (internName_mirrors name) fun n => (findType_mirrors hw hp n).map
  · exact .pure []

end Members

theorem requestSupertypes_mirrors (id : ElementId) :
    w.Mirrors p (requestSupertypes id) (requestSupertypes id) :=
  .change (fun _ => rfl) (fun _ => rfl) (fun s => .refl s.names) fun _ h => h

theorem finishSupertypes_mirrors (id : ElementId) (ids : List ElementId) :
    w.Mirrors p (finishSupertypes id ids) (finishSupertypes id ids) :=
  .change (fun _ => rfl) (fun _ => rfl) (fun s => .refl s.names) fun _ h => h

theorem abandonSupertypes_mirrors (id : ElementId) :
    w.Mirrors p (abandonSupertypes id) (abandonSupertypes id) :=
  .change (fun _ => rfl) (fun _ => rfl) (fun s => .refl s.names) fun _ h => h

/-- Lists of supertypes are made in the same way, unless the bound ends the making of one. -/
theorem supertypesWithin_mirrors (hw : w.Sound) (hp : w.Stands p) {fuel fuel' : Nat}
    (hroom : w.Room p fuel fuel') (making : List ElementId) (id : ElementId) :
    w.Mirrors p (supertypesWithin fuel making id) (supertypesWithin fuel' making id) := by
  induction fuel generalizing fuel' making id with
  | zero =>
    cases fuel' with
    | zero => exact .throw .endlessSupertypes
    | succ fuel' =>
      -- Only the first run is at its bound: it ends there, while the other goes on.
      have hextent := hroom.eq.resolve_left nofun
      exact fun s hs =>
        ⟨.error .endlessSupertypes, s, rfl, hs, fun h => h, .inl ⟨hextent, .inr rfl⟩⟩
  | succ fuel ih =>
    cases fuel' with
    | zero => exact absurd hroom.le (Nat.not_succ_le_zero fuel)
    | succ fuel' =>
      refine (requestSupertypes_mirrors id).bind fun r => ?_
      cases r with
      | found ids => exact .pure ids
      | reentrant => exact .pure []
      | construct =>
        dsimp only
        split
        · exact .throw (.nestedSupertypes id)
        · -- The lists asked for on the way are made with one step less.
          have hmake := computeSupertypes_mirrors hw hp (ih hroom.pred (id :: making)) id
          refine (hmake.guarded (abandonSupertypes_mirrors id) fun _ => rfl).bind fun ids => ?_
          exact (finishSupertypes_mirrors id ids).bind fun _ => .pure ids

/-- **The direct supertypes of a type.** -/
theorem directSupertypes_mirrors (hw : w.Sound) (hp : w.Stands p) (id : ElementId) :
    w.Mirrors p (directSupertypes id) (directSupertypes id) :=
  World.Mirrors.bounded hp (supertypesWithin · [] id) (supertypesWithin · [] id)
    fun _ _ hroom => supertypesWithin_mirrors hw hp hroom [] id

end JavaAbi
