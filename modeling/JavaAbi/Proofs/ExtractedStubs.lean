import JavaAbi.Proofs.Honesty
import JavaAbi.Proofs.StubContents

namespace JavaAbi

/-!
# Extracted stubs

A stub is extracted from its element alone. The element has no list of members but their keys, and the
members are asked for one after the other, while the session goes on learning. The stub still shows
the declaration as it stands in the batch: nothing is lost on the way, and nothing comes twice.

* `addMembers_adds` — the stub after all members, if those of member types can be extracted;
* `extractWithin_shows` — the stub of a declaration that is not inside the body of a constant;
* `Client.stubs_show` — the stubs of a batch without duplicates.
-/

open Course Stage

variable {w : World} {s : Session} {allowed : Diagnostic → Prop} {base : NameTable}

/-! ### Members -/

/-- What is written is reported and put into text, with its dimensions. -/
theorem reportedText_writes (hw : w.Allows allowed) {place : Span} {type : ModelType}
    {c : ScopeView} {written : TypeRef} (hread : written.ReadAs type) (h : s.Holds w type)
    (hrule : ∀ v, w.Settles (w.typeOf c written) v → s.view type = v) :
    (asking w).Gathers s (reportedText place type) allowed
      fun text _ => w.Writes c written text := by
  refine .sound fun hs => (reportUnresolved_gathers hw h).bind fun _ t ht hg _ => ?_
  obtain ⟨hholds, hview⟩ := Session.viewed_learn hs.resolved ht.resolved ⟨h, rfl⟩ hg
  exact .lift_last (displayType_writes hread hholds fun v hv => hview.trans (hrule v hv))

/-- A name of the batch is put into its text. -/
theorem reads_nameOfBatch (hs : s.Resolved w) {n : Name} (hn : w.names.Issued n) :
    Reads s (nameText n) (w.text n) := by
  rw [← hs.of.text hn]
  exact reads_nameText (hn.le hs.of.names)

section Members

variable {extractType : ElementId → Extraction TypeStub} {place : Span} {d : DeclId}
  {id : ElementId} {key : ElementKey} {c : Contents}

/-- What is relied on of the function that extracts the stubs of the member types of `d`. -/
def World.Extracts (w : World) (allowed : Diagnostic → Prop) (d : DeclId)
    (extractType : ElementId → Extraction TypeStub) : Prop :=
  ∀ t c x id, d < c → w.Nameable c x → t.Denotes (w.index.keyOf c) id →
    (asking w).Gathers t (extractType id) allowed fun stub _ => stub.Shows w x

/-- A variable is added with its type. -/
theorem addVariable_adds (hw : w.Allows allowed) {k m number : Nat}
    (hd : s.Denotes (.field k m number) id) (hc : w.Seen d (.field k m number) c)
    (stub : TypeStub) :
    (asking w).Gathers s (addMember extractType place stub id) allowed
      fun after _ => stub.Adds w d c after := by
  refine .sound fun hs => ?_
  obtain ⟨surface, nested⟩ := stub
  obtain ⟨f, v, hm, hv, rfl, rfl⟩ := hc.field_inv
  obtain ⟨e, he, hkind, hname, hmodifiers, -, hissued⟩ :=
    World.element_of_variable hs.resolved hm hv hd
  refine .lift (reads_elementAt he).ends fun x t ht _ ⟨hx, hst⟩ => ?_
  subst hx hst
  rw [Element.hasModifier, hmodifiers, hkind, hname, Contents.unlessPrivate]
  split
  · exact .pure fun _ => .refl _
  -- A variable that is not private: its type is found out, and then put into text.
  · refine .lift (ownType_ends ⟨_, hd, rfl⟩) fun type u hu _ htype => ?_
    have hwritten := World.fieldType?_eq hm hv
    refine (reportedText_writes (c := w.scopeOf k) hw (htype.written _ hwritten) htype.holds
      fun y hy => htype.rule y ⟨_, hwritten, hy⟩).bind fun text x hx _ htext => ?_
    refine .lift (reads_nameOfBatch hx.resolved hissued).ends fun name _ _ _ hname =>
      .pure fun _ => ?_
    refine ⟨[⟨name, text, f.modifiers⟩], [], ?_, .cons ⟨hname.1, rfl, htext.withDimensions⟩ .nil,
      .nil⟩
    simp [TypeStub.surface, TypeStub.nested]

/-- A constant is added by its name. -/
theorem addConstant_adds {k m : Nat} (hd : s.Denotes (.constant k m) id)
    (hc : w.Seen d (.constant k m) c) (stub : TypeStub) :
    (asking w).Gathers s (addMember extractType place stub id) allowed
      fun after _ => stub.Adds w d c after := by
  refine .sound fun hs => ?_
  obtain ⟨surface, nested⟩ := stub
  obtain ⟨n, body, sp, hm, rfl⟩ := hc.constant_inv
  obtain ⟨e, n', body', sp', he, hm', hkind, hname, hmodifiers, hissued⟩ :=
    World.element_of_constant hs.resolved hd
  cases hm.symm.trans hm'
  refine .lift (reads_elementAt he).ends fun x t ht _ h => ?_
  obtain ⟨hx, hst⟩ := h
  subst hx hst
  rw [Element.hasModifier, hmodifiers, hkind, hname]
  refine .lift (reads_nameOfBatch ht.resolved hissued).ends fun name _ _ _ hname =>
    .pure fun _ => ?_
  refine ⟨[], [], ?_, .nil, .nil⟩
  rw [hname.1]
  simp [TypeStub.surface, TypeStub.nested]

/-- A member type is added with its own stub. -/
theorem addType_adds (hextract : w.Extracts allowed d extractType) (hu : w.Distinct base)
    (hkey : key.IsType) (hd : s.Denotes key id) (hc : w.Seen d key c) (stub : TypeStub) :
    (asking w).Gathers s (addMember extractType place stub id) allowed
      fun after _ => stub.Adds w d c after := by
  refine .sound fun hs => ?_
  obtain ⟨surface, nested⟩ := stub
  obtain ⟨k, x, rfl, hlt, hk, rfl⟩ := hc.type_inv hkey
  obtain ⟨j, hj, -, htree⟩ := hk.exists_info
  have hprimary := hu.primary hj
  rw [← hs.resolved.of.index] at hprimary hd
  obtain ⟨i, tree, e, he⟩ := hs.resolved.sound.isTree hprimary hd
  cases htree.symm.trans (he.tree_world hs.resolved.of)
  refine .lift (reads_elementAt he.get).ends fun y t ht _ ⟨hy, hst⟩ => ?_
  subst hy hst
  rw [Element.hasModifier, he.modifiers, he.kind, Contents.unlessPrivate]
  split
  · exact .pure fun _ => .refl _
  · have hnested : (asking w).Gathers t (do
        return TypeStub.mk surface (nested ++ [← extractType id])) allowed
        fun after _ => (TypeStub.mk surface nested).Adds w d { types := [x] } after := by
      rw [ht.resolved.of.index] at hd
      refine (hextract t k x id hlt hk hd).bind fun stub _ _ _ hstub => .pure fun _ => ?_
      exact ⟨[], [stub], by simp [TypeStub.surface, TypeStub.nested], .nil, .cons hstub .nil⟩
    cases x.2.head.kind <;> exact hnested

/-- **A member is added to a stub** as it is seen. -/
theorem addMember_adds (hw : w.Allows allowed) (hextract : w.Extracts allowed d extractType)
    (hu : w.Distinct base) (hd : s.Denotes key id) (hc : w.Seen d key c) (stub : TypeStub) :
    (asking w).Gathers s (addMember extractType place stub id) allowed
      fun after _ => stub.Adds w d c after := by
  cases key with
  | package n => exact absurd rfl (hc.ne_package n)
  | field k m number => exact addVariable_adds hw hd hc stub
  | constant k m => exact addConstant_adds hd hc stub
  | type _ | unnamed _ => exact addType_adds hextract hu (by exact trivial) hd hc stub

/-- **All members are added**, in order. -/
theorem addMembers_adds (hw : w.Allows allowed) (hextract : w.Extracts allowed d extractType)
    (hu : w.Distinct base) {ids : List ElementId} {keys : List ElementKey}
    (hids : List.Forall₂ (fun id key => s.Denotes key id) ids keys) (hc : w.AllSeen d keys c)
    (stub : TypeStub) :
    (asking w).Gathers s (ids.foldlM (addMember extractType place) stub) allowed
      fun after _ => stub.Adds w d c after := by
  induction hc generalizing s ids stub with
  | nil =>
    cases hids
    exact .pure fun _ => .refl stub
  | cons first _ ih =>
    obtain _ | ⟨hd, hrest⟩ := hids
    rw [List.foldlM_cons]
    refine (addMember_adds hw hextract hu hd first stub).bind fun next t _ hg hnext => ?_
    have hgrown := hrest.imp fun _ _ h => Session.Denotes.grow h hg.toKeeps
    exact (ih hgrown next).mono fun _ _ _ _ hafter => hnext.trans hafter

end Members

/-! ### Stubs of declarations -/

section Stubs

variable {d : DeclId} {id : ElementId} {x : List Nat × TypeDecl}

/-- A declaration that is not inside the body of a constant is put into text by its canonical name. -/
theorem reads_canonicalName (hs : s.Resolved w) (hu : w.Distinct base) (hx : w.Nameable d x)
    (hd : s.Denotes (w.index.keyOf d) id) : Reads s (displayElement id) (w.canonicalName x.1) := by
  obtain ⟨i, hi, -⟩ := hx.exists_info
  obtain ⟨hnumber, unit, path, hplace, hbody⟩ := hx
  have hprimary := hu.primary hi
  rw [← hs.of.index] at hprimary hd
  have htext := reads_displayElement_of_type hs (hs.level hprimary hd).2
  rw [hu.symbolOf_eq (by rw [hnumber, ← hplace]) hbody, ← hplace] at htext
  exact htext

/-- **The stub of a declaration shows it**, if `fuel` suffices for the declarations inside it. -/
theorem extractWithin_shows (hw : w.Allows allowed) (hu : w.Distinct base) {fuel : Nat}
    (hfuel : w.index.size < fuel + d) (hx : w.Nameable d x)
    (hd : s.Denotes (w.index.keyOf d) id) :
    (asking w).Gathers s (extractWithin fuel id) allowed fun stub _ => stub.Shows w x := by
  -- Along the fuel: member types have later numbers.
  induction fuel generalizing s d x id with
  | zero =>
    obtain ⟨i, hi, -⟩ := hx.exists_info
    have hlt := w.index.lt_size_of_known? (Option.isSome_of_mem (DeclIndex.known?_of_get? hi))
    rw [Nat.zero_add] at hfuel
    exact absurd hlt (Nat.lt_asymm hfuel)
  | succ fuel ih =>
    refine .sound fun hs => ?_
    obtain ⟨j, hj, -, htree⟩ := hx.exists_info
    have hprimary := hu.primary hj
    have hdw := hd
    rw [← hs.resolved.of.index] at hprimary hd
    obtain ⟨i, tree, e, he⟩ := hs.resolved.sound.isTree hprimary hd
    cases htree.symm.trans (he.tree_world hs.resolved.of)
    have hshow : s.Shows ((s.index.keyOf d).symbol s.names) id := ⟨_, hd, rfl⟩
    have hnamed := hs.resolved.named he.get
    unfold extractWithin
    refine .lift (reads_elementAt he.get).ends fun a t _ _ h => ?_
    obtain ⟨ha, ht⟩ := h
    subst ha ht
    refine (extractSuperclass_gathers hw hshow).bind fun superclass u hu' hgu _ => ?_
    have hshowu := hshow.grow hs.resolved.sound hgu.toKeeps
    refine (extractInterfaces_gathers hw hshowu).bind fun interfaces v hv hgv _ => ?_
    have hg := hgu.trans hgv
    refine .lift (reads_canonicalName hv.resolved hu hx (hdw.grow hg.toKeeps)).ends
      fun name y _ _ h => ?_
    obtain ⟨hname, hy⟩ := h
    subst hname hy
    refine (paramTexts_ends fun n hn => (hnamed.typeParams n hn).le hg.names).bind
      fun params z _ _ hz => ?_
    subst hz
    -- The element is still there after the supertypes were put into text.
    obtain ⟨e', he', hbare⟩ := hg.elements id _ he.get
    have hshowv := hshowu.grow hu'.resolved.sound hgv.toKeeps
    refine .lift (enclosedOf_answers hshowv he') fun r y hy hgy hr => ?_
    obtain ⟨ids, rfl, -, hids, -⟩ := hr
    have hmembers := hids _ ((congrArg Element.source hbare).trans he.source)
    -- The shape knows the keys of the members; each leads to what is seen of one member.
    have hseen := hu.allSeen_members hx
    rw [show (t.shapeOf d i x.2).members = w.index.allMemberKeys d 0 x.2.members by
      rw [← hs.resolved.of.index]; rfl] at hmembers
    have hextract : w.Extracts allowed d (extractWithin fuel) := fun t c y id hlt hc hden =>
      ih (Nat.lt_of_lt_of_le hfuel
        (by rw [Nat.add_right_comm]; exact Nat.add_le_add_left hlt fuel)) hc hden
    refine (addMembers_adds hw hextract hu hmembers hseen _).mono fun stub _ _ _ hstub => ?_
    obtain ⟨fields, nested, rfl, hfields, hnested⟩ := hstub
    exact ⟨hx.number, ⟨rfl, he.kind, he.modifiers, rfl, hfields⟩, hnested⟩

/-- A stub shows the same with the file of its declaration. -/
theorem TypeStub.Shows.withSource {stub : TypeStub} {source : Option SourceRef}
    (h : stub.Shows w x) : (TypeStub.mk { stub.surface with source } stub.nested).Shows w x := by
  obtain ⟨number, hsurface, hnested⟩ := h
  exact ⟨number, ⟨hsurface.name, hsurface.kind, hsurface.modifiers, hsurface.constants,
    hsurface.fields⟩, hnested⟩

theorem extract_shows (hw : w.Allows allowed) (hu : w.Distinct base) {b : Batch}
    (hx : w.Nameable d x) (hd : s.Denotes (w.index.keyOf d) id) :
    (asking w).Gathers s (extract b id) allowed fun stub _ => stub.Shows w x := by
  have hget : Reads s (get : SessionM Session) s := rfl
  refine .lift hget.ends fun st t ht _ ⟨hst, heq⟩ => ?_
  subst hst heq
  have hfuel : w.index.size < t.index.size + 2 + d := by
    rw [ht.resolved.of.index]
    omega
  refine (extractWithin_shows hw hu hfuel hx hd).bind fun stub u hs hg hstub => ?_
  obtain ⟨e, he, -⟩ := hs.resolved.sound.element _ id (hd.grow hg.toKeeps)
  exact .lift (reads_elementAt he).ends fun _ _ _ _ _ => .pure fun _ => hstub.withSource

theorem extracts_show (hw : w.Allows allowed) (hu : w.Distinct base) {b : Batch}
    {ids : List ElementId} {ds : List DeclId} {xs : List (List Nat × TypeDecl)}
    (hx : List.Forall₂ w.Nameable ds xs)
    (hids : List.Forall₂ (fun id key => s.Denotes key id) ids (ds.map w.index.keyOf)) :
    (asking w).Gathers s (ids.mapM (extract b)) allowed
      fun stubs _ => List.Forall₂ (TypeStub.Shows w) xs stubs := by
  induction hx generalizing s ids with
  | nil =>
    cases hids
    exact .pure fun _ => .nil
  | cons hx _ ih =>
    obtain _ | ⟨hd, hrest⟩ := hids
    rw [List.mapM_cons]
    refine (extract_shows hw hu hx hd).bind fun stub t _ hg hstub => ?_
    refine (ih (hrest.imp fun _ _ h => Session.Denotes.grow h hg.toKeeps)).bind
      fun stubs _ _ _ hstubs => .pure fun _ => .cons hstub hstubs

end Stubs

/-! ### Stubs of a batch -/

/-- The stubs of all top-level types show the top-level declarations. -/
theorem OpenBatch.exists_stubs (hu : w.Distinct base) {b : OpenBatch} (hs : b.session.Idle w) :
    ∃ x stubs, b.stubs = .ok x ∧ x.result = .ok stubs ∧
      List.Forall₂ (TypeStub.Shows w) (topDecls w.units) stubs := by
  have hw : w.Allows fun _ => True := fun _ _ _ _ => trivial
  have hstubs : ∃ (r : Except ModelError (List TypeStub)) (found : List Diagnostic) (_ : Session),
      b.stubs = .ok ⟨r, ({} : Sink).emitAll (b.reported ++ found)⟩ ∧ (∀ d ∈ found, True) ∧
        ∃ stubs, r = .ok stubs ∧ List.Forall₂ (TypeStub.Shows w) (topDecls w.units) stubs := by
    refine OpenBatch.extract_gathers (b := b) (P := fun (r : Except ModelError (List TypeStub)) _ =>
      ∃ stubs, r = .ok stubs ∧ List.Forall₂ (TypeStub.Shows w) (topDecls w.units) stubs) hs ?_
    refine .lift topLevelTypes_answers fun r t _ _ hids => ?_
    obtain ⟨ids, rfl, -, hids⟩ := hids
    rw [hs.resolved.of.index] at hids
    exact (extracts_show hw hu hu.topLevel (hids hu.nodup_topLevel)).bind
      fun stubs _ _ _ hstubs => .pure fun _ => ⟨stubs, rfl, hstubs⟩
  obtain ⟨_, found, -, hextract, -, stubs, rfl, hshow⟩ := hstubs
  exact ⟨_, stubs, hextract, rfl, hshow⟩

/-- **The declarations of a batch that can be reached are in its stubs**, and no others. -/
structure World.ShownBy (w : World) (stubs : List TypeStub) : Prop where
  /-- The stubs show the top-level declarations with all that can be reached in them, in order. -/
  shows : List.Forall₂ (TypeStub.Shows w) (topDecls w.units) stubs
  /-- Their names are those of the declarations that can be reached. -/
  names : TypeStub.namesIn stubs = (shownDecls w.units).map fun x => w.canonicalName x.1
  reached : ∀ x, x ∈ shownDecls w.units ↔ Reachable w.units x
  /-- No name comes twice. -/
  nodup : (TypeStub.namesIn stubs).Nodup
  /-- What can be reached is not private, nor inside what is private or the body of a constant. -/
  visible : ∀ unit path tree, treeAt w.units unit path = some tree →
    (Reachable w.units (unit :: path, tree) ↔
      ¬InBody w.units unit path ∧ ¬Hidden w.units unit path)
  /-- The names of private member types and those inside them do not come at all. -/
  hidden : ∀ unit path tree, treeAt w.units unit path = some tree → ¬InBody w.units unit path →
    Hidden w.units unit path → w.canonicalName (unit :: path) ∉ TypeStub.namesIn stubs

/-- Different declarations that can be reached have different names. -/
theorem World.Distinct.eq_of_reachable (hu : w.Distinct base) {x : List Nat × TypeDecl}
    (hx : Reachable w.units x) {unit : Nat} {path : List Nat} {tree : TypeDecl}
    (htree : treeAt w.units unit path = some tree) (hbody : ¬InBody w.units unit path)
    (heq : w.canonicalName x.1 = w.canonicalName (unit :: path)) : x = (unit :: path, tree) := by
  obtain ⟨place, tree'⟩ := x
  obtain ⟨unit', path', rfl, htree', hbody'⟩ := hx.placed
  exact hu.canonicalName_inj htree' htree hbody' hbody heq

theorem World.Distinct.shownBy (hu : w.Distinct base) {stubs : List TypeStub}
    (h : List.Forall₂ (TypeStub.Shows w) (topDecls w.units) stubs) : w.ShownBy stubs := by
  have hnames : TypeStub.namesIn stubs =
      (shownDecls w.units).map fun x => w.canonicalName x.1 := by
    rw [TypeStub.Shows.namesIn_eq stubs _ h, ← shownDecls_eq]
  refine ⟨h, hnames, fun _ => mem_shownDecls, ?_, fun _ _ _ => reachable_iff, ?_⟩
  · rw [hnames]
    refine (shownDecls_nodup w.units).map_on fun x hx y hy heq => ?_
    obtain ⟨unit, path, hplace, htree, hbody⟩ := (mem_shownDecls.1 hy).placed
    rw [hu.eq_of_reachable (mem_shownDecls.1 hx) htree hbody (hplace ▸ heq), ← hplace]
  · intro unit path tree htree hbody hhidden hmem
    rw [hnames] at hmem
    obtain ⟨x, hx, hname⟩ := List.mem_map.1 hmem
    have hreach := mem_shownDecls.1 hx
    -- A declaration of the same canonical name is the same one, and that one cannot be reached.
    obtain rfl := hu.eq_of_reachable hreach htree hbody hname
    exact ((reachable_iff htree).1 hreach).2 hhidden

namespace Client

variable (token : SessionToken) (files : Batch) (provider : Provider) (config : ModelConfig)
  (questions : List Question)

/-- **Stubs lose and repeat nothing.** In a batch without duplicates, whatever was asked before, the
    stubs of the top-level types are extracted and show the batch. -/
theorem stubs_show
    (hdup : (start token files provider config).session.index.duplicates = []) :
    let c : Client := (start token files provider config).askAll questions
    ∃ x stubs, OpenBatch.stubs ⟨files, c.session, []⟩ = .ok x ∧ x.result = .ok stubs ∧
      (world token files provider config).ShownBy stubs := by
  intro c
  have hu := World.distinct_of_client hdup
  have hfits : c.Fits _ := fits_asked token files provider config questions
  obtain ⟨x, stubs, hrun, hresult, hshow⟩ :=
    OpenBatch.exists_stubs (b := ⟨files, c.session, []⟩) hu hfits.idle
  exact ⟨x, stubs, hrun, hresult, hu.shownBy hshow⟩

/-- A class with a private member type, a variable in more dimensions, and an enum whose constant has
    a body with a member type. -/
def mixedMembers : Batch :=
  #[⟨"A.java", "package p; class A { int x, y[]; private class B { class C {} } class D {} }"⟩,
    ⟨"E.java", "package p; enum E { X { class In {} }, Y; private int z; interface F {} }"⟩]

theorem stubs_show_mixedMembers :
    (start 0 mixedMembers onlyObject {}).session.index.duplicates = [] ∧
      ∃ x stubs, OpenBatch.stubs ⟨mixedMembers, ((start 0 mixedMembers onlyObject {}).askAll
          [.lookupType "p.A.B.C", .body 1]).session, []⟩ = .ok x ∧ x.result = .ok stubs ∧
        (world 0 mixedMembers onlyObject {}).ShownBy stubs := by
  have hdup : (start 0 mixedMembers onlyObject {}).session.index.duplicates = [] := by
    decide +kernel
  exact ⟨hdup, stubs_show 0 mixedMembers onlyObject {} _ hdup⟩

end Client

end JavaAbi
