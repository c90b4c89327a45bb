import JavaAbi.Proofs.FieldPlaces
import JavaAbi.Proofs.Honesty
import JavaAbi.Proofs.TwinExtraction
import JavaAbi.Proofs.TwinStarts

namespace JavaAbi

/-!
# Private fields are no part of the interface

Leave any private fields out of a batch: the stubs of its top-level types stay the same, and so does
what is reported while they are extracted.

* `TypeDecl.Trims` — a declaration without some of its private fields;
* `exists_keep` — which fields those are can be told by the field declarations themselves, since no
  two of a batch are alike, so that the rest of the batch is a restriction of it;
* `private_fields_hidden` — the stubs of a batch without some private fields.
-/

open Course Indexing

/-! ### Leaving out private fields -/

mutual

/-- A declaration without some of its private fields, and without some of those of the declarations
    inside it. -/
inductive TypeDecl.Trims : TypeDecl → TypeDecl → Prop
  | mk (head : DeclHead) {ms ms' : List Member} (members : Member.Trims ms ms') :
      TypeDecl.Trims (.mk head ms) (.mk head ms')

/-- Members without some private fields. -/
inductive Member.Trims : List Member → List Member → Prop
  | nil : Member.Trims [] []
  | drop {f : FieldDecl} {ms ms' : List Member} (hidden : .privateAccess ∈ f.modifiers)
      (rest : Member.Trims ms ms') : Member.Trims (.field f :: ms) ms'
  | field (f : FieldDecl) {ms ms' : List Member} (rest : Member.Trims ms ms') :
      Member.Trims (.field f :: ms) (.field f :: ms')
  | type {d d' : TypeDecl} {ms ms' : List Member} (decl : TypeDecl.Trims d d')
      (rest : Member.Trims ms ms') : Member.Trims (.type d :: ms) (.type d' :: ms')
  | constant (n : Name) (span : Span) {ms ms' : List Member} (rest : Member.Trims ms ms') :
      Member.Trims (.constant n none span :: ms) (.constant n none span :: ms')
  | body (n : Name) (span : Span) {d d' : TypeDecl} {ms ms' : List Member}
      (decl : TypeDecl.Trims d d') (rest : Member.Trims ms ms') :
      Member.Trims (.constant n (some d) span :: ms) (.constant n (some d') span :: ms')

end

/-- A file without some of the private fields in it. -/
structure CompilationUnit.Trims (u u' : CompilationUnit) : Prop where
  package : u.package = u'.package
  imports : u.imports = u'.imports
  types : List.Forall₂ TypeDecl.Trims u.types u'.types
  span : u.span = u'.span

/-! ### Which fields are left out -/

/-- Some of these fields are private and can be left out, with this outcome. -/
def Deletes (fields : List FieldDecl) (outcome : (FieldDecl → Bool) → Prop) : Prop :=
  ∃ gone kept, fields.Perm (gone ++ kept) ∧ (∀ f ∈ gone, .privateAccess ∈ f.modifiers) ∧
    ∀ keep, (∀ f ∈ gone, keep f = false) → (∀ f ∈ kept, keep f = true) → outcome keep

namespace Deletes

variable {fields fields' : List FieldDecl} {P P' Q : (FieldDecl → Bool) → Prop}

theorem nil (h : ∀ keep, P keep) : Deletes [] P :=
  ⟨[], [], .refl _, List.forall_mem_nil _, fun keep _ _ => h keep⟩

theorem append (h : Deletes fields P) (h' : Deletes fields' P')
    (hq : ∀ keep, P keep → P' keep → Q keep) : Deletes (fields ++ fields') Q := by
  obtain ⟨gone, kept, hperm, hgone, hkeep⟩ := h
  obtain ⟨gone', kept', hperm', hgone', hkeep'⟩ := h'
  refine ⟨gone ++ gone', kept ++ kept', ?_, fun f hf => ?_, fun keep hfalse htrue => ?_⟩
  · refine (hperm.append hperm').trans ?_
    rw [List.append_assoc, List.append_assoc]
    refine List.Perm.append_left gone ?_
    rw [← List.append_assoc, ← List.append_assoc]
    exact List.perm_append_comm.append_right kept'
  · exact (List.mem_append.1 hf).elim (hgone f) (hgone' f)
  · have hfalse := List.forall_mem_append.1 hfalse
    have htrue := List.forall_mem_append.1 htrue
    exact hq keep (hkeep keep hfalse.1 htrue.1) (hkeep' keep hfalse.2 htrue.2)

theorem mono (h : Deletes fields P) (hq : ∀ keep, P keep → Q keep) : Deletes fields Q := by
  obtain ⟨gone, kept, hperm, hgone, hkeep⟩ := h
  exact ⟨gone, kept, hperm, hgone, fun keep hfalse htrue => hq keep (hkeep keep hfalse htrue)⟩

/-- A field that is left out, and one that is kept. -/
theorem gone {f : FieldDecl} (h : .privateAccess ∈ f.modifiers)
    (hp : ∀ keep, keep f = false → P keep) :
    Deletes [f] P :=
  ⟨[f], [], .refl _, List.forall_mem_singleton.2 h, fun keep hfalse _ =>
    hp keep (hfalse f List.mem_cons_self)⟩

theorem kept {f : FieldDecl} (hp : ∀ keep, keep f = true → P keep) : Deletes [f] P :=
  ⟨[], [f], .refl _, List.forall_mem_nil _,
    fun keep _ htrue => hp keep (htrue f List.mem_cons_self)⟩

/-- Of different fields it can be told which are left out. -/
theorem exists_keep (h : Deletes fields P) (hnodup : fields.Nodup) :
    ∃ keep : FieldDecl → Bool, (∀ f, keep f = false → .privateAccess ∈ f.modifiers) ∧ P keep := by
  classical
  obtain ⟨gone, kept, hperm, hgone, hkeep⟩ := h
  have hdisjoint := (List.nodup_append'.1 (hperm.nodup_iff.1 hnodup)).2.2
  refine ⟨fun f => decide (f ∉ gone), fun f hf => hgone f ?_,
    hkeep _ (fun f hf => ?_) fun f hf => ?_⟩
  · simpa using hf
  · simpa using hf
  · simpa using fun hf' => hdisjoint hf' hf

end Deletes

theorem Member.restrictAll_cons {keep : FieldDecl → Bool} {m : Member} (h : m.kept keep = true)
    (rest : List Member) :
    Member.restrictAll keep (m :: rest) = m.restrict keep :: Member.restrictAll keep rest := by
  rw [Member.restrictAll, if_pos h]

mutual

/-- What is left of a declaration is a restriction of it. -/
theorem TypeDecl.Trims.deletes {d d' : TypeDecl} (h : TypeDecl.Trims d d') :
    Deletes d.allFields fun keep => d.restrict keep = d' := by
  match h with
  | .mk head members =>
    rw [TypeDecl.allFields]
    refine (Member.Trims.deletes members).mono fun keep hms => ?_
    rw [TypeDecl.restrict, hms]

theorem Member.Trims.deletes {ms ms' : List Member} (h : Member.Trims ms ms') :
    Deletes (Member.allFields ms) fun keep => Member.restrictAll keep ms = ms' := by
  match h with
  | .nil => exact .nil fun _ => rfl
  | .drop hidden rest =>
    refine (Deletes.gone hidden fun _ h => h).append (Member.Trims.deletes rest)
      fun keep hf hms => ?_
    rw [Member.restrictAll, Member.kept, hf, if_neg Bool.false_ne_true, hms]
  | .field f rest =>
    refine (Deletes.kept fun _ h => h).append (Member.Trims.deletes rest) fun keep hf hms => ?_
    have hkept : (Member.field f).kept keep = true := hf
    rw [Member.restrictAll_cons hkept, hms, Member.restrict]
  | .type decl rest =>
    refine (TypeDecl.Trims.deletes decl).append (Member.Trims.deletes rest) fun keep hd hms => ?_
    rw [Member.restrictAll_cons rfl, hms, Member.restrict, hd]
  | .constant n span rest =>
    refine (Member.Trims.deletes rest).mono fun keep hms => ?_
    rw [Member.restrictAll_cons rfl, hms, Member.restrict]
  | .body n span decl rest =>
    refine (TypeDecl.Trims.deletes decl).append (Member.Trims.deletes rest) fun keep hd hms => ?_
    rw [Member.restrictAll_cons rfl, hms, Member.restrict, hd]

end

/-- What is left of things in order, each by itself. -/
theorem Deletes.forall₂ {α : Type} {fields : α → List FieldDecl}
    {restrict : (FieldDecl → Bool) → α → α} {trims : α → α → Prop} {xs ys : List α}
    (h : List.Forall₂ trims xs ys)
    (hone : ∀ x y, trims x y → Deletes (fields x) fun keep => restrict keep x = y) :
    Deletes (xs.flatMap fields) fun keep => xs.map (restrict keep) = ys := by
  induction h with
  | nil => exact .nil fun _ => rfl
  | cons hxy _ ih =>
    rw [List.flatMap_cons]
    refine (hone _ _ hxy).append ih fun keep hx hxs => ?_
    rw [List.map_cons, hx, hxs]

theorem CompilationUnit.Trims.deletes {u u' : CompilationUnit} (h : u.Trims u') :
    Deletes u.allFields fun keep => u.restrict keep = u' := by
  obtain ⟨hpackage, himports, htypes, hspan⟩ := h
  refine (Deletes.forall₂ htypes fun d d' hd => hd.deletes).mono fun keep hds => ?_
  rw [CompilationUnit.restrict, hds, hpackage, himports, hspan]

/-- **What is left of a parsed batch** is a restriction of it. -/
theorem exists_keep {files : Batch} {units' : List CompilationUnit}
    (h : List.Forall₂ CompilationUnit.Trims (parseBatch files).1 units') :
    ∃ keep : FieldDecl → Bool, (∀ f, keep f = false → .privateAccess ∈ f.modifiers) ∧
      (parseBatch files).1.map (CompilationUnit.restrict keep) = units' :=
  (Deletes.forall₂ h fun _ _ hu => hu.deletes).exists_keep (parseBatch_fields files).2

mutual

/-- A restriction that keeps what is not private leaves out some private fields. -/
theorem TypeDecl.trims_restrict {keep : FieldDecl → Bool}
    (hp : ∀ f, keep f = false → .privateAccess ∈ f.modifiers) (d : TypeDecl) :
    d.Trims (d.restrict keep) := by
  match d with
  | .mk head ms =>
    rw [TypeDecl.restrict]
    exact .mk head (Member.trims_restrict hp ms)

theorem Member.trims_restrict {keep : FieldDecl → Bool}
    (hp : ∀ f, keep f = false → .privateAccess ∈ f.modifiers) (ms : List Member) :
    Member.Trims ms (Member.restrictAll keep ms) := by
  match ms with
  | [] => exact .nil
  | .type d :: rest =>
    rw [Member.restrictAll_cons rfl, Member.restrict]
    exact .type (d.trims_restrict hp) (Member.trims_restrict hp rest)
  | .constant n none span :: rest =>
    rw [Member.restrictAll_cons rfl, Member.restrict]
    exact .constant n span (Member.trims_restrict hp rest)
  | .constant n (some d) span :: rest =>
    rw [Member.restrictAll_cons rfl, Member.restrict]
    exact .body n span (d.trims_restrict hp) (Member.trims_restrict hp rest)
  | .field f :: rest =>
    cases hf : keep f with
    | true =>
      have hkept : (Member.field f).kept keep = true := hf
      rw [Member.restrictAll_cons hkept, Member.restrict]
      exact .field f (Member.trims_restrict hp rest)
    | false =>
      rw [Member.restrictAll, Member.kept, hf, if_neg Bool.false_ne_true]
      exact .drop (hp f hf) (Member.trims_restrict hp rest)

end

theorem CompilationUnit.trims_restrict {keep : FieldDecl → Bool}
    (hp : ∀ f, keep f = false → .privateAccess ∈ f.modifiers) (u : CompilationUnit) :
    u.Trims (u.restrict keep) where
  package := rfl
  imports := rfl
  types := List.forall₂_map_right_iff.2 (List.forall₂_same.2 fun d _ => d.trims_restrict hp)
  span := rfl

/-! ### The sessions of the two batches -/

namespace Twins

variable {α β : Type} {w w' : World} {T : Twins w w'} {s s' t t' : Session}

/-- What is known of an answer in the first session. -/
theorem Asks.with_left {q : Query α} {q' : Query β} {rel : α → β → Session → Session → Prop}
    {P : Except ModelError α → Session → Prop} (h : T.Asks s s' q q' rel)
    (hp : building.Answers s q P) :
    T.Asks s s' q q' fun a b t t' => rel a b t t' ∧ P (.ok a) t := by
  intro hs
  obtain ⟨_, _, t, t', hrun, hrun', ht, hl, hend⟩ := h hs
  obtain ⟨_, u, hrunp, -, -, r, rfl, hpr⟩ := hp hs.left.sound
  cases hrun.symm.trans hrunp
  refine ⟨_, _, t, t', hrun, hrun', ht, hl, ?_⟩
  cases hend with
  | ok hr =>
    cases hr with
    | ok hab => exact .ok (.ok ⟨hab, hpr⟩)
    | error e => exact .ok (.error e)

/-- The top-level types are no packages. -/
theorem topLevelTypes_noPackage (hq : s.Quiet) : building.Answers s topLevelTypes fun r t =>
    ∀ ids, r = .ok ids → ∀ id ∈ ids, NoPackage t id := by
  refine .read fun hs => ?_
  refine (distinctElements_collects hq hs.index.topLevel (.nil s)).mono fun r t ht _ hr => ?_
  obtain ⟨_, rfl, hids⟩ := hr
  rintro ids ⟨rfl⟩ id hid n hn
  obtain ⟨d, -, hd⟩ := hids.of id hid
  exact DeclIndex.keyOf_ne_package _ d (ht.unique _ _ _ hd hn)

/-- **The stubs of all top-level types**, but for the files that they were extracted from. -/
theorem stubs_gathers (hp : T.HidesPrivate)
    (htop : List.Forall₂ T.decl w.index.topLevel w'.index.topLevel) {b b' : Batch} :
    T.Gathers s s'
      (do
        match ← (topLevelTypes.run : SessionM _) with
        | .error e => return .error e
        | .ok ids => return .ok (← ids.mapM (extract b)))
      (do
        match ← (topLevelTypes.run : SessionM _) with
        | .error e => return .error e
        | .ok ids => return .ok (← ids.mapM (extract b')))
      fun r r' _ _ => OutcomeAlike (fun stubs stubs' =>
        stubs.map TypeStub.unsourced = stubs'.map TypeStub.unsourced) r r' := by
  refine .alike fun hs => ?_
  refine Gathers.lift ((topLevelTypes_asks htop).with_left (topLevelTypes_noPackage hs.left.quiet))
    fun r r' t t' ht _ hr => ?_
  cases hr with
  | error e => exact .pure fun _ => .error e
  | @ok ids ids' hids =>
    have hall := (List.forall₂_and_left ids ids').2 ⟨hids.2 _ rfl, hids.1⟩
    have hstubs : T.Gathers t t' (ids.mapM (extract b)) (ids'.mapM (extract b'))
        fun stubs stubs' _ _ =>
        List.Forall₂ (fun stub stub' => stub.unsourced = stub'.unsourced) stubs stubs' := by
      refine Gathers.mapM (hall.imp fun id id' h u u' hu hl => ?_) ht (.refl t t')
      obtain ⟨key, -, hd, -, -⟩ := h.2
      exact extract_gathers hp (h.2.later hl)
        (h.1.later ht.left.sound hu.left.sound hl (ht.left.sound.lt_size hd))
    refine hstubs.bind fun stubs stubs' _ _ _ _ hall => .pure fun _ => .ok ?_
    rw [← List.forall₂_eq_eq_eq]
    exact List.forall₂_map_left_iff.2 (List.forall₂_map_right_iff.2 hall)

/-- Extractions in twin sessions give the same diagnostics, if the first one is not stopped. -/
theorem extract_twin {b b' : OpenBatch} {x : Extraction α} {x' : Extraction β}
    {rel : α → β → Prop} (hreported : b.reported = b'.reported)
    (h : T.Gathers b.session b'.session x x' fun r r' _ _ => rel r r')
    (hs : T.Alike b.session b'.session) (hok : ∃ y, b.extract x = .ok y) :
    ∃ r r' found, b.extract x = .ok ⟨r, found⟩ ∧ b'.extract x' = .ok ⟨r', found⟩ ∧ rel r r' := by
  obtain ⟨r, r', t, t', hrun, hrun', -, -, hend⟩ := h #[] hs
  have hrun : (x.run #[]).run b.session = (r, t) := hrun
  have hrun' : (x'.run #[]).run b'.session = (r', t') := hrun'
  unfold OpenBatch.extract at hok ⊢
  rw [hrun] at hok ⊢
  rw [hrun']
  cases hend with
  | stopped _ =>
    obtain ⟨y, hy⟩ := hok
    exact nomatch hy
  | @ok out out' hout =>
    obtain ⟨r, found⟩ := out
    obtain ⟨r', found'⟩ := out'
    obtain ⟨rfl, hr⟩ := hout
    exact ⟨r, r', _, rfl, by rw [hreported]; rfl, hr⟩

/-- The stubs of two open batches, if those of the first one are extracted. -/
theorem stubs_twin {b b' : OpenBatch} (hreported : b.reported = b'.reported) (hp : T.HidesPrivate)
    (htop : List.Forall₂ T.decl w.index.topLevel w'.index.topLevel)
    (hs : T.Alike b.session b'.session) (hok : ∃ stubs found, b.stubs = .ok ⟨.ok stubs, found⟩) :
    ∃ stubs stubs' found, b.stubs = .ok ⟨.ok stubs, found⟩ ∧ b'.stubs = .ok ⟨.ok stubs', found⟩ ∧
      stubs.map TypeStub.unsourced = stubs'.map TypeStub.unsourced := by
  obtain ⟨stubs, found, hok⟩ := hok
  obtain ⟨r, r', found', hrun, hrun', hr⟩ :=
    extract_twin hreported (stubs_gathers hp htop) hs ⟨_, hok⟩
  have hrun : b.stubs = .ok ⟨r, found'⟩ := hrun
  cases hok.symm.trans hrun
  cases hr with
  | @ok _ stubs' hstubs => exact ⟨stubs, stubs', found, hok, hrun', hstubs⟩

end Twins

/-! ### Stubs without private fields -/

/-- **Private fields do not count.** Any private fields may be left out of a parsed batch, wherever
    they stand: the stubs of all top-level types are extracted as before, but for their sources, and
    the same diagnostics are reported. -/
theorem private_fields_hidden (files files' : Batch) (token token' : SessionToken)
    (provider : Provider) (config : ModelConfig) (reported : List Diagnostic)
    {units' : List CompilationUnit}
    (h : List.Forall₂ CompilationUnit.Trims (parseBatch files).1 units') :
    let names := (parseBatch files).2.1
    ∃ stubs stubs' found,
      OpenBatch.stubs ⟨files, .start token (parseBatch files).1 names provider config, reported⟩ =
        .ok ⟨.ok stubs, found⟩ ∧
      OpenBatch.stubs ⟨files', .start token' units' names provider config, reported⟩ =
        .ok ⟨.ok stubs', found⟩ ∧
      stubs.map TypeStub.unsourced = stubs'.map TypeStub.unsourced := by
  obtain ⟨keep, hp, rfl⟩ := exists_keep h
  have hs : ∀ u ∈ (parseBatch files).1, u.Sound (parseBatch files).2.1 False := fun u hu =>
    (parseBatch_sound files u hu).weaken (.refl _) False.elim
  have ho : (FileTwins.inPlace rfl : FileTwins (parseBatch files).1
      ((parseBatch files).1.map (CompilationUnit.restrict keep)) keep).InOrder := fun h => h.1
  have htop := ho.topLevel hs
  rw [← FileTwins.index_world token provider config, ← FileTwins.index_world token' provider config]
    at htop
  have hany : (FileTwins.world (parseBatch files).1 (parseBatch files).2.1 token provider
      config).Allows fun _ => True := fun _ _ _ _ => trivial
  -- The stubs of the whole batch are extracted, and then so are those of its twin.
  obtain ⟨stubs₀, found₀, hok, -⟩ := OpenBatch.stubs_extracted
    (b := ⟨files, .start token (parseBatch files).1 (parseBatch files).2.1 provider config,
      reported⟩)
    hany (Session.idle_start hs)
  have hprivate :
      (FileTwins.twins _ hs (ho.finds hs) token token' provider config).HidesPrivate := hp
  exact Twins.stubs_twin rfl hprivate htop
    (FileTwins.alike_start token token' provider config hs (ho.finds hs)) ⟨_, _, hok⟩

/-- A class with a private field, and another one in the body of a constant of an enum inside it. -/
def partlyPrivate : Batch :=
  #[⟨"A.java", "class A { private B b; A a; enum E { X { private int c; } } }"⟩]

/-- What is left of its file without them. -/
def publicPart : List CompilationUnit :=
  (parseBatch partlyPrivate).1.map
    (CompilationUnit.restrict fun f => !f.modifiers.contains .privateAccess)

/-- Both are left out: one of three fields is left. -/
theorem private_fields_hidden_nested :
    ((parseBatch partlyPrivate).1.flatMap CompilationUnit.allFields).length = 3 ∧
    (publicPart.flatMap CompilationUnit.allFields).length = 1 ∧
    List.Forall₂ CompilationUnit.Trims (parseBatch partlyPrivate).1 publicPart ∧
    ∃ stubs stubs' found,
      OpenBatch.stubs ⟨partlyPrivate, .start 0 (parseBatch partlyPrivate).1
        (parseBatch partlyPrivate).2.1 Client.onlyObject {}, []⟩ = .ok ⟨.ok stubs, found⟩ ∧
      OpenBatch.stubs ⟨partlyPrivate, .start 1 publicPart (parseBatch partlyPrivate).2.1
        Client.onlyObject {}, []⟩ = .ok ⟨.ok stubs', found⟩ ∧
      stubs.map TypeStub.unsourced = stubs'.map TypeStub.unsourced := by
  have htrims : List.Forall₂ CompilationUnit.Trims (parseBatch partlyPrivate).1 publicPart := by
    refine List.forall₂_map_right_iff.2
      (List.forall₂_same.2 fun u _ => u.trims_restrict fun f hf => ?_)
    simpa using hf
  exact ⟨by decide +kernel, by decide +kernel, htrims,
    private_fields_hidden partlyPrivate partlyPrivate 0 1 Client.onlyObject {} [] htrims⟩

end JavaAbi
