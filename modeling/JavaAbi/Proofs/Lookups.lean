import JavaAbi.Proofs.ElementAnswers

namespace JavaAbi

/-!
# Look-ups and texts

Elements by name, the package around an element, and what sessions put into text: names, elements,
types and the diagnostics of duplicates. No promise is broken on the way.

* `lookupType_honours` — look-ups of canonical names have the outcome of the rule;
* `Element.Named` — the names of an element have texts;
* `displayType_heeds` — types are put into text as the rules say;
* `World.Writes`, `displayType_writes` — so is what is written, with its dimensions.
-/

open Course Stage

variable {w : World} {s : Session} {id : ElementId} {e : Element}

/-! ### Elements by name -/

/-- **The look-up of a name has the outcome that the rules give.** -/
theorem lookupType_honours {name : String} (h : name ≠ "") :
    w.Honours s (lookupType name) (Rule.ofExcept (w.lookup name)) w.provider.Excuses shown := by
  unfold lookupType
  have hempty : name.isEmpty = false := by
    rw [Bool.eq_false_iff, Ne, String.isEmpty_iff]
    exact h
  rw [hempty]
  refine .after (internName_ends name).resolving.asking fun n t _ _ hn => ?_
  have hfind : w.Honours t (findType n) (Rule.ofExcept (w.lookup (t.names.text n)))
      w.provider.Excuses shown := .of_obeys fun k => findType_obeys (g := w.stage k) ⟨name, hn⟩
  rw [NameTable.text_eq hn] at hfind
  exact hfind

/-- A package of every name has an element. -/
theorem lookupPackage_answers {name : String} (h : name ≠ "") :
    (asking w).Answers s (lookupPackage name) fun r t =>
      ∃ id, r = .ok id ∧ t.Shows (.package name) id := by
  unfold lookupPackage
  have hempty : name.isEmpty = false := by
    rw [Bool.eq_false_iff, Ne, String.isEmpty_iff]
    exact h
  rw [hempty]
  refine Answers.lift (internName_ends name).resolving.asking fun n t _ _ hn => ?_
  have hproper : t.Askable (.package n) := by
    refine ⟨⟨name, hn⟩, ?_⟩
    rintro rfl
    exact h (Option.some.inj (hn.symm.trans t.names.resolve?_empty))
  refine (canonical_asking hproper rfl).mono ?_
  rintro _ u - hg ⟨id, rfl, hd⟩
  exact ⟨id, rfl, _, hd, congrArg Symbol.package (NameTable.text_eq (hg.names n name hn))⟩

/-! ### Packages around elements -/

/-- The package around an element is one of the elements. -/
theorem reads_packageWithin {fuel : Nat} (hs : s.Sound) (hid : id < s.elements.size) :
    ∃ r, Reads s (packageWithin fuel id) r ∧ ∀ k ∈ r, k < s.elements.size := by
  induction fuel generalizing id with
  | zero => exact ⟨none, .pure s _, nofun⟩
  | succ fuel ih =>
    obtain ⟨key, hd⟩ := hs.covered id hid
    obtain ⟨e, he, -, hold⟩ := hs.element key id hd
    unfold packageWithin
    by_cases hpackage : e.kind = .package
    · refine ⟨some id, (reads_elementAt he).bind ?_, fun k hk => ?_⟩
      · rw [if_pos hpackage]
        exact .pure s _
      · cases hk
        exact hid
    · cases henc : e.enclosing with
      | none =>
        refine ⟨none, (reads_elementAt he).bind ?_, nofun⟩
        rw [if_neg hpackage, henc]
        exact .pure s _
      | some outer =>
        obtain ⟨r, hr, hlt⟩ := ih (Nat.lt_trans (hold outer henc) hid)
        refine ⟨r, (reads_elementAt he).bind ?_, hlt⟩
        rw [if_neg hpackage, henc]
        exact hr

theorem packageOf_ends (hid : id < s.elements.size) :
    (asking w).Ends s (packageOf id) fun r t => ∀ k ∈ r, k < t.elements.size := by
  refine .sound fun hs => .read fun _ => ?_
  obtain ⟨r, hr, hlt⟩ := reads_packageWithin hs.resolved.sound hid
  refine hr.ends.mono ?_
  rintro _ _ - - ⟨rfl, rfl⟩
  exact hlt

/-! ### Names of elements -/

/-- The names of an element are names of a table. -/
structure Element.Named (t : NameTable) (e : Element) : Prop where
  simple : t.Issued e.simpleName
  qualified : ∀ n ∈ e.qualifiedName.name?, t.Issued n
  typeParams : ∀ n ∈ e.typeParams, t.Issued n

theorem Session.Resolved.named (hs : s.Resolved w) (he : s.elements.get? id = some e) :
    e.Named s.names := by
  obtain ⟨key, hd⟩ := hs.sound.covered id (Array.getElem?_eq_some_iff.1 he).1
  obtain ⟨e', he', hdesc, -⟩ := hs.sound.element key id hd
  cases he.symm.trans he'
  suffices h : e.bare.Named s.names from ⟨h.simple, h.qualified, h.typeParams⟩
  have hmember : ∀ d m x, s.member? d m = some x → x.Sound s.names False := by
    intro d m x hx
    rw [hs.of.member?] at hx
    exact (World.member_sound hs.world.trees hx).weaken hs.of.names fun h => h
  generalize e.bare = b at hdesc
  cases hdesc with
  | package hissued hsimple =>
    exact ⟨⟨_, hsimple⟩, fun n hn => Option.some.inj hn ▸ hissued, nofun⟩
  | tree _ hi =>
    have hfits := hs.sound.index.infos _ _ hi
    exact ⟨hfits.simpleName, hfits.qualified, hfits.typeParams⟩
  | @field d m number f v owner hm hv _ =>
    exact ⟨(hmember d m _ hm).variable_issued (List.mem_of_getElem? hv), nofun, nofun⟩
  | @constant d m n body sp owner hm _ =>
    exact ⟨(hmember d m _ hm).constant_issued, nofun, nofun⟩
  | described hissued _ _ _ hsimple hparams =>
    exact ⟨⟨_, hsimple⟩, fun n hn => Option.some.inj hn ▸ hissued,
      NameTable.issued_of_forall₂ hparams⟩

/-- An element is put into text. -/
theorem reads_displayElement (hs : s.Resolved w) (hid : id < s.elements.size) :
    ∃ text, Reads s (displayElement id) text := by
  obtain ⟨key, hd⟩ := hs.sound.covered id hid
  obtain ⟨e, he, -⟩ := hs.sound.element key id hd
  have hnamed := hs.named he
  have hissued : s.names.Issued (e.qualifiedName.name?.getD e.simpleName) := by
    cases hq : e.qualifiedName.name? with
    | none => exact hnamed.simple
    | some n => exact hnamed.qualified n hq
  exact ⟨_, (reads_elementAt he).bind (reads_nameText hissued)⟩

/-! ### Duplicates -/

/-- The diagnostics of duplicates are read off the batch. -/
theorem reads_reportDuplicates (hs : s.Sound) : ∃ found, Reads s reportDuplicates found := by
  show ∃ found, Reads s (s.index.duplicates.mapM _ >>= _) found
  refine Reads.exists_bind (Reads.mapM fun entry hentry => ?_) fun found => ⟨_, .pure s _⟩
  obtain ⟨hknown, hknown'⟩ := hs.index.duplicates entry hentry
  obtain ⟨i, hi⟩ := DeclIndex.info_of_known? hknown
  obtain ⟨j, hj⟩ := DeclIndex.info_of_known? hknown'
  refine (reads_declAt hi).exists_after ?_
  cases hn : i.qualifiedName.name? with
  | none => exact ⟨none, .pure s _⟩
  | some n =>
    have htext := reads_nameText ((hs.index.infos _ i hi).qualified n hn)
    exact ⟨_, htext.bind ((reads_declAt hj).bind (.pure s _))⟩

/-! ### Types -/

/-- The element of a type is put into text as the rules say. -/
theorem reads_displayElement_of_type {symbol : Symbol} (hs : s.Resolved w)
    (h : s.ShowsType symbol id) : Reads s (displayElement id) (w.nameOf symbol) := by
  cases hd : w.declOf? symbol with
  | some d =>
    obtain ⟨hp, rfl, hden⟩ := h.shows.tree hs.world hs.sound hs.of hd
    obtain ⟨i, tree, e, he⟩ := hs.sound.isTree hp hden
    have hfits := hs.world.index.infos d i (he.info_world hs.of)
    have hsimple : e.simpleName = i.simpleName := congrArg Element.simpleName he.bare
    refine (reads_elementAt he.get).bind ?_
    rw [he.qualifiedName, hsimple, World.symbolOf, DeclIndex.keyOf_eq (he.info_world hs.of),
      DeclInfo.key]
    cases hn : i.qualifiedName.name? with
    | none =>
      -- A declaration without a canonical name is shown with its simple name.
      have htext := reads_nameText (hfits.simpleName.le hs.of.names)
      rw [hs.of.text hfits.simpleName] at htext
      dsimp only [ElementKey.symbol, World.nameOf]
      rw [he.info_world hs.of]
      exact htext
    | some n =>
      have hissued := hfits.qualified n hn
      have htext := reads_nameText (hissued.le hs.of.names)
      rw [hs.of.text hissued] at htext
      exact htext
  | none =>
    cases symbol with
    | type name =>
      obtain ⟨n, d, e, rfl, -, he⟩ := h.shows.described hs.world hs.sound hs.of hd
      refine (reads_elementAt he.get).bind ?_
      rw [he.qualifiedName]
      exact reads_nameText he.issued
    | unnamed d => cases hd
    | _ => exact h.isType.elim

/-- The path of a reference is put into text. -/
theorem reads_writtenName? {target : TypeTarget} (hs : s.Resolved w) (h : s.HoldsTarget w target) :
    Reads s (writtenName? s.token target) (w.pathOf? (s.viewTarget target)) := by
  match target with
  | .known id => exact .pure s _
  | .written cell r =>
    obtain ⟨hr, -⟩ := h
    have htexts : Reads s (r.path.mapM nameText) (r.path.map w.text) := by
      refine Reads.mapM_map fun n hn => ?_
      rw [← hs.of.text (hr.names n hn).1]
      exact reads_nameText ((hr.names n hn).1.le hs.of.names)
    unfold writtenName?
    show Reads s (if s.token = s.token then _ else _) _
    rw [if_pos rfl]
    exact htexts.bind (.pure s _)

/-- What the text of a type begins with is what the rules say, also for a type of an earlier session. -/
theorem reads_displayHead {t : Session} {target : TypeTarget} {r : Except ModelError (Option ElementId)}
    {y : Except ModelError (Option Symbol)} (hs : s.Idle w) (ht : t.Idle w) (hg : s.Learns w t)
    (h : s.HoldsTarget w target) (hy : outcomes w.provider.Excuses (optional shown) r y t) :
    Reads t (displayHead s.token target r) (w.headOf (s.viewTarget target) y) := by
  have hwritten := reads_writtenName? ht.resolved (h.learn hs.resolved.sound hg)
  rw [congrArg SessionBase.token hg.base,
    Session.viewTarget_grow hs.resolved ht.resolved hg.toKeeps h] at hwritten
  match r, y, hy with
  | .ok (some id), .ok (some symbol), hy => exact reads_displayElement_of_type ht.resolved hy
  | .ok none, .ok none, _ | .error _, .error _, _ => exact hwritten.bind (.pure t _)

mutual

/-- **A type is put into text as the rules say.** -/
theorem displayType_heeds {s : Session} {type : ModelType} (h : s.Holds w type) :
    w.Heeds s (displayType type) (w.textOf (s.view type)) same := by
  match type with
  | .declared origin target args enclosing =>
    refine .sound fun hs => ?_
    have helement := elementOfType_honours h
    rw [Session.Holds] at h
    obtain ⟨rfl, htarget, hargs, -⟩ := h
    rw [displayType_declared, Session.view, World.textOf_declared]
    -- The head comes first; then the arguments, which the session may have learnt about since.
    refine World.Heeds.bind (m := (elementOfType (.declared s.token target args enclosing)).run)
      helement fun r y t ht hg hy => .reads (reads_displayHead hs ht hg htarget hy) ?_
    have htexts := displayTypes_heeds (hargs.learn hs.resolved.sound hg)
    rw [Session.viewAll_grow hs.resolved ht.resolved hg.toKeeps hargs] at htexts
    refine htexts.bind fun texts texts' _ _ _ heq => .pure fun _ => ?_
    obtain rfl : texts = texts' := heq
    rfl
  | .typeVariable name owner =>
    rw [Session.Holds] at h
    refine World.Heeds.ends (reads_nameText h.1).ends fun text t _ _ htext => ?_
    exact htext.1
  | .array component =>
    rw [Session.Holds] at h
    rw [displayType, Session.view, World.textOf]
    exact (displayType_heeds h).bind fun _ _ _ _ _ heq => .pure fun _ => congrArg (· ++ "[]") heq
  | .wildcard upper lower =>
    rw [Session.Holds] at h
    refine .sound fun hs => ?_
    rw [displayType, Session.view, World.textOf]
    refine (displayBound_heeds h.1).bind fun text text' t ht hg heq => ?_
    have hlower : w.Heeds t (displayBound " super " lower)
        (w.boundTextOf " super " (t.viewBound lower)) same :=
      displayBound_heeds (h.2.learn hs.resolved.sound hg)
    rw [Session.viewBound_grow hs.resolved ht.resolved hg.toKeeps h.2] at hlower
    refine hlower.bind fun more more' _ _ _ heq' => .pure fun _ => ?_
    obtain rfl : text = text' := heq
    obtain rfl : more = more' := heq'
    rfl
  | .primitive _ | .absent | .void | .package | .error => exact .pure fun _ => rfl

theorem displayBound_heeds {s : Session} {bound : Option ModelType} {word : String}
    (h : s.HoldsBound w bound) :
    w.Heeds s (displayBound word bound) (w.boundTextOf word (s.viewBound bound)) same := by
  match bound with
  | none => exact .pure fun _ => rfl
  | some type =>
    rw [Session.HoldsBound] at h
    rw [displayBound, Session.viewBound, World.boundTextOf]
    exact (displayType_heeds h).bind fun _ _ _ _ _ heq => .pure fun _ => congrArg (word ++ ·) heq

theorem displayTypes_heeds {s : Session} {types : List ModelType} (h : s.HoldsAll w types) :
    w.Heeds s (displayTypes types) (w.textsOf (s.viewAll types)) same := by
  match types with
  | [] => exact .pure fun _ => rfl
  | type :: rest =>
    rw [Session.HoldsAll] at h
    refine .sound fun hs => ?_
    rw [displayTypes, Session.viewAll, World.textsOf]
    refine (displayType_heeds h.1).bind fun text text' t ht hg heq => ?_
    have hrest := displayTypes_heeds (h.2.learn hs.resolved.sound hg)
    rw [Session.viewAll_grow hs.resolved ht.resolved hg.toKeeps h.2] at hrest
    refine hrest.bind fun texts texts' _ _ _ heqs => .pure fun _ => ?_
    obtain rfl : text = text' := heq
    obtain rfl : texts = texts' := heqs
    rfl

end

theorem displayType_ends {type : ModelType} (h : s.Holds w type) :
    (asking w).Ends s (displayType type) fun _ _ => True :=
  Ends.mono (displayType_heeds h) fun _ _ _ _ _ => trivial

/-- A text stands for a type that is written in a scope: after the text that the rules settle, if they
    settle one, come the dimensions that are written. -/
inductive World.Writes (w : World) (sc : ScopeView) : TypeRef → String → Prop
  | array {component : TypeRef} {text : String} {place : Span} (inner : Writes w sc component text) :
      Writes w sc (.array component place) (text ++ "[]")
  | other {written : TypeRef} {text : String} (plain : written.isArray = false)
      (settled : ∀ x, w.Settles (do w.textOf (← w.typeOf sc written)) x → text = x) :
      Writes w sc written text

/-- **What is written is put into text** with its dimensions, when it has been read as the rules
    say. -/
theorem displayType_writes {sc : ScopeView} {written : TypeRef} {type : ModelType}
    (hread : written.ReadAs type) (h : s.Holds w type)
    (hrule : ∀ v, w.Settles (w.typeOf sc written) v → s.view type = v) :
    (asking w).Ends s (displayType type) fun text _ => w.Writes sc written text := by
  induction hread with
  | @array component type place _ ih =>
    rw [Session.Holds] at h
    unfold displayType
    refine (ih h fun v hv => ?_).bind fun text _ _ _ htext => .pure fun _ => .array htext
    have harray : w.Settles (w.typeOf sc (.array component place)) (.array v) := by
      rw [World.typeOf]
      exact World.Settles.map hv TypeView.array
    have hview := hrule _ harray
    rw [Session.view] at hview
    exact TypeView.array.inj hview
  | other plain =>
    refine Ends.mono (displayType_heeds h) fun text t _ _ ⟨text', heq, hset⟩ =>
      .other plain fun x hx => ?_
    obtain ⟨v, hv, hx⟩ := hx.bind_inv
    rw [← hrule v hv] at hx
    obtain rfl : text = text' := heq
    exact (hset.settled x hx).symm

end JavaAbi
