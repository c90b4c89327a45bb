import JavaAbi.Proofs.Asking

namespace JavaAbi

/-!
# Types of elements follow the rules

The element of a declared type, resolved once and kept in the cell of its reference, and the own types
of elements.

* `elementOfType_honours` — the element of a type;
* `ownType_ends` — the own type of an element.
-/

open Course Stage

variable {w : World} {s : Session}

/-! ### The element of a type -/

/-- A reference that the session holds comes to keep its outcome. -/
theorem keepOutcome_ends {cell : Nat} {c : Cell} {r : Except ModelError ElementId}
    (hc : s.cells[cell]? = some c) (hr : s.Answered w c.reference r) :
    (asking w).Ends s (keepOutcome cell r) fun _ _ => True := by
  refine .sound fun hs => ?_
  have hlists := Session.keepsLists_cells hs.resolved.sound
  have hlearns : s.Learns w { s with
      cells := s.cells.modify cell fun c => { c with outcome := some r } } :=
    { s.keeps_cells _ with
      lists := hlists _
      elements := fun _ e he => ⟨e, he, rfl⟩
      cells := fun k x hx => by
        dsimp only
        rw [Array.getElem?_modify, hx]
        split
        · rename_i heq
          cases (heq ▸ hc).symm.trans hx
          exact ⟨_, rfl, rfl, fun r' h =>
            .inr (Option.some.inj h ▸ hr.grow (s.keeps_cells _) (hlists _))⟩
        · exact ⟨x, rfl, rfl, fun _ h => .inl h⟩ }
  refine .step (fun hs => ?_) (fun _ => hlearns) fun _ => trivial
  exact hs.carry (hs.resolved.with_cells _)
    (Session.makes_nil.2 ((Session.makes_nil (s := s)).1 hs.making)) hlearns fun _ _ he => .inl he

theorem resolveTarget_honours {target : TypeTarget} (h : s.HoldsTarget w target) :
    w.Honours s (resolveTarget directSupertypes target) (w.resolveTarget (s.viewTarget target))
      w.provider.Excuses shown := by
  refine .sound fun hs => ?_
  match target with
  | .known id =>
    obtain ⟨symbol, hsymbol⟩ := h
    refine .pure fun _ => ?_
    rw [Session.symbolAt_eq hs.resolved hsymbol]
    exact hsymbol
  | .written cell r =>
    obtain ⟨hr, c, hc, rfl, hx⟩ := h
    refine .read ?_
    rw [hc, Option.bind_some]
    cases hout : c.outcome with
    -- The cell was resolved before, and keeps the outcome.
    | some x =>
      obtain ⟨y, hy, hset⟩ := (hx x hout).now
      exact Answers.ofExcept fun _ => ⟨y, hy, hset⟩
    | none =>
      have hresolve : w.Honours s (resolveReference directSupertypes c.reference)
          (w.resolveReference c.reference.view) w.provider.Excuses shown :=
        .of_obeys fun n => resolveReference_obeys (directSupertypes_supplies w n) hr
      refine Answers.attempt hresolve fun x t ht hg ⟨y, hy, hset⟩ => ?_
      -- While it was resolved, the cell kept the reference it was made for.
      obtain ⟨c', hc', href, -⟩ := hg.cells cell c hc
      have hanswered : t.Answered w c'.reference x := by
        rw [href]
        exact ⟨t, ht.resolved.sound, .refl t, .refl t, y, hy, hset⟩
      refine Answers.lift (keepOutcome_ends hc' hanswered) fun _ u _ hg' _ =>
        Answers.ofExcept fun _ => ⟨y, ?_, hset.mono hg'.lists⟩
      match x, y, hy with
      | .ok id, .ok symbol, hy => exact Session.ShowsType.grow ht.resolved.sound hy hg'.toKeeps
      | .error e, .error e', hy => exact hy

/-- **The element of a type is the one that the rules settle**, whenever it is asked for. -/
theorem elementOfType_honours {type : ModelType} (h : s.Holds w type) :
    w.Honours s (elementOfType type) (w.resolveType (s.view type)) w.provider.Excuses
      (optional shown) := by
  match type with
  | .declared origin target args enclosing =>
    rw [Session.Holds] at h
    obtain ⟨rfl, htarget, -⟩ := h
    show w.Honours s (get >>= fun st : Session => if s.token = st.token then
      some <$> resolveTarget directSupertypes target else throw .foreignType)
      (some <$> w.resolveTarget (s.viewTarget target)) _ _
    refine .read ?_
    rw [if_pos rfl]
    exact (resolveTarget_honours htarget).bind (f := fun id => pure (some id))
      (F := fun symbol => pure (some symbol)) fun _ _ _ _ _ hshow => .pure fun _ => hshow
  | .primitive _ | .absent | .void | .package | .array _ | .typeVariable _ _ | .wildcard _ _
  | .error => exact .pure fun _ => trivial

/-- The type that is written in a scope. -/
theorem typeOf_heeds {sc : Scope} {written : TypeRef} (hsc : s.Scoped w sc)
    (ht : written.Sound w.names) :
    w.Heeds s (typeOf directSupertypes sc written) (w.typeOf sc.view written) (Held w 0 written) :=
  .of_follows fun n => typeOf_follows (directSupertypes_supplies w n) hsc ht (Nat.zero_le _)

/-! ### Declared types -/

namespace World

theorem instanceAround_congr {outer outer' : DeclId → TypeView} {i : DeclInfo} {h : DeclHead}
    (heq : ∀ p ∈ i.parent, outer p = outer' p) :
    w.instanceAround outer i h = w.instanceAround outer' i h := by
  unfold instanceAround
  cases hp : i.parent with
  | none => rfl
  | some p => cases i.constant <;> simp only [heq p hp]

/-- The type of a declaration does not depend on the bound, which suffices. -/
theorem declaredWithin_eq (hw : w.Sound) {d : DeclId} {n m : Nat} (hn : d < n) (hm : d < m) :
    w.declaredWithin n d = w.declaredWithin m d := by
  induction n generalizing d m with
  | zero => exact absurd hn (Nat.not_lt_zero _)
  | succ n ih =>
    cases m with
    | zero => exact absurd hm (Nat.not_lt_zero _)
    | succ m =>
      rw [declaredWithin, declaredWithin]
      cases hi : w.index.get? d with
      | none => rfl
      | some i =>
        cases w.index.tree? w.units d with
        | none => rfl
        | some tree =>
          dsimp only
          rw [instanceAround_congr fun p hp => ?_]
          have hlt := ((hw.index.infos d i hi).parent p hp).1
          exact ih (Nat.lt_of_lt_of_le hlt (Nat.le_of_lt_succ hn))
            (Nat.lt_of_lt_of_le hlt (Nat.le_of_lt_succ hm))

/-- The type that a declaration declares, by way of those around it. -/
theorem declaredType_eq (hw : w.Sound) {d : DeclId} {i : DeclInfo} {tree : TypeDecl}
    (hi : w.index.get? d = some i) (ht : w.index.tree? w.units d = some tree) :
    w.declaredType d = .declared (.known (w.symbolOf d))
      (i.typeParams.map fun n => .typeVariable (w.text n) (w.symbolOf d))
      (w.instanceAround w.declaredType i tree.head) := by
  rw [declaredType, declaredWithin, hi, ht]
  dsimp only
  rw [instanceAround_congr fun p hp => ?_]
  have hlt := ((hw.index.infos d i hi).parent p hp).1
  exact declaredWithin_eq hw hlt (Nat.lt_succ_self p)

end World

/-! ### Own types -/

theorem Session.view_isParameterized (s : Session) (type : ModelType) :
    (s.view type).isParameterized = type.isParameterized := by
  cases type with
  | declared origin target args enclosing =>
    have hargs : (s.viewAll args).isEmpty = args.isEmpty := by cases args <;> rfl
    have henclosing : (s.view enclosing).isDeclared = enclosing.isDeclared := by
      cases enclosing <;> rfl
    rw [Session.view, TypeView.isParameterized, ModelType.isParameterized, hargs, henclosing]
  | _ => rfl

/-- The declaration of the symbol of a declaration with an element. -/
theorem Session.Of.declOf?_symbolOf (ho : s.Of w) (hw : w.Sound) {d : DeclId}
    (hp : s.index.Primary d) : w.declOf? (w.symbolOf d) = some d := by
  rw [ho.index] at hp
  rw [World.symbolOf]
  cases hp with
  | named hi hn hf =>
    rw [DeclIndex.keyOf_eq hi, DeclInfo.key, hn]
    obtain ⟨text, htext⟩ := (hw.index.infos d _ hi).qualified _ hn
    show (w.names.find? (w.names.text _)).bind w.index.find? = some d
    rw [NameTable.text_eq htext, NameTable.find?_of_resolve? htext]
    exact hf
  | nameless hi hn _ =>
    rw [DeclIndex.keyOf_eq hi, DeclInfo.key, hn]
    rfl

theorem Session.OwnTypeAs.declared (hs : s.Resolved w) {d : DeclId} {type : ModelType}
    (hp : s.index.Primary d) (h : s.OwnTypeAs w (w.symbolOf d) type) :
    viewed w type (w.declaredType d) s := by
  refine ⟨h.holds, h.rule _ ?_⟩
  have hd := hs.of.declOf?_symbolOf hs.world hp
  have htype := Session.isType_symbolOf w d
  generalize w.symbolOf d = symbol at hd htype
  cases symbol with
  | type name => exact ⟨d, hd, rfl⟩
  | unnamed d' => exact ⟨d, hd, rfl⟩
  | _ => exact htype.elim

/-- Nothing is written for the element of a type. -/
theorem Symbol.IsType.written {symbol : Symbol} (h : symbol.IsType) {type : ModelType} :
    ∀ written ∈ w.written? symbol, written.ReadAs type := by
  intro written hwritten
  cases symbol with
  | field d m number => exact h.elim
  | _ => cases hwritten

theorem Symbol.IsType.reading {symbol : Symbol} (h : symbol.IsType) {v : TypeView} :
    ∀ reading ∈ w.reading? symbol, reading.Finds s.HoldsList v := by
  intro reading hreading
  cases symbol with
  | field d m number => exact h.elim
  | _ => cases hreading

section OwnType

/-- What is relied on of the function that gives the own types of the elements around one. -/
def Owns (w : World) (ownType : ElementId → SessionM ModelType) (bound : Nat) : Prop :=
  ∀ s symbol id, s.Shows symbol id → id < bound →
    (asking w).Ends s (ownType id) fun type t => t.OwnTypeAs w symbol type

variable {ownType : ElementId → SessionM ModelType} {id : ElementId} {e : Element}

/-- What an element is in is older, and has a symbol. -/
theorem Session.Sound.enclosing_shows (hs : s.Sound) (he : s.elements.get? id = some e) :
    ∀ outer ∈ e.enclosing, outer < id ∧ ∃ symbol, s.Shows symbol outer := by
  intro outer houter
  have hlt := (Array.getElem?_eq_some_iff.1 he).1
  obtain ⟨key, hden⟩ := hs.covered id hlt
  obtain ⟨e', he', -, hold⟩ := hs.element key id hden
  cases he.symm.trans he'
  obtain ⟨key', hden'⟩ := hs.covered outer (Nat.lt_trans (hold outer houter) hlt)
  exact ⟨hold outer houter, _, key', hden', rfl⟩

/-- The type around the types of an inner class, if any, is held, and it is an own type. -/
theorem enclosingInstance_ends (ho : Owns w ownType id) (he : s.elements.get? id = some e) :
    (asking w).Ends s (enclosingInstance e ownType) fun type t =>
      t.Holds w type ∧ s.EnclosedBy t e type := by
  refine .sound fun hs => ?_
  have habsent : (∀ outer, ¬s.InnerTo e outer) →
      (asking w).Ends s (pure ModelType.absent) fun type t =>
        t.Holds w type ∧ s.EnclosedBy t e type :=
    fun h => .pure fun _ => ⟨trivial, .apart h⟩
  unfold enclosingInstance
  cases henc : e.enclosing with
  | none =>
    refine habsent fun outer h => ?_
    cases henc.symm.trans h.enclosing
  | some outer =>
    obtain ⟨hlt, symbol, hshow⟩ := hs.resolved.sound.enclosing_shows he outer henc
    obtain ⟨eo, heo⟩ := hshow.get? hs.resolved.sound
    dsimp only
    by_cases hinner : (decide (e.kind ≠ .classType) || e.hasModifier .static) = true
    · rw [if_pos hinner]
      refine habsent fun outer h => ?_
      rw [h.kind, h.inner] at hinner
      cases hinner
    · rw [if_neg hinner]
      rw [Bool.not_eq_true, Bool.or_eq_false_iff, decide_eq_false_iff_not, not_not] at hinner
      -- Around an inner class stands a class, an enum or a record; in other types all classes are
      -- static.
      have hnone (h : eo.kind ≠ .classType ∧ eo.kind ≠ .enumType ∧ eo.kind ≠ .recordType) :
          ∀ outer, ¬s.InnerTo e outer := by
        intro outer' h'
        cases henc.symm.trans h'.enclosing
        obtain ⟨o, hget, hkind⟩ := h'.around
        cases heo.symm.trans hget
        exact hkind.elim h.1 fun hkind => hkind.elim h.2.1 h.2.2
      have hfound (h : eo.kind = .classType ∨ eo.kind = .enumType ∨ eo.kind = .recordType) :
          (asking w).Ends s (do
              let t ← ownType outer
              return if t.isParameterized then t else .absent)
            fun type t => t.Holds w type ∧ s.EnclosedBy t e type := by
        refine (ho s symbol outer hshow hlt).bind fun type t ht hg htype => .pure fun _ => ⟨?_, ?_⟩
        · split
          · exact htype.holds
          · trivial
        · obtain ⟨eo', heo', hb⟩ := hg.elements outer eo heo
          have hk := Element.kind_of_bare hb
          refine .inner ⟨hinner.1, hinner.2, henc, eo, heo, h⟩ (htype.isOwnType ht.resolved.sound
            (hshow.grow hs.resolved.sound hg.toKeeps) heo' ?_ ?_)
          all_goals
            rw [hk]
            rcases h with h | h | h <;> rw [h] <;> decide
      refine .reads (reads_elementAt heo) ?_
      cases hkind : eo.kind with
      | classType => exact hfound (.inl hkind)
      | enumType => exact hfound (.inr (.inl hkind))
      | recordType => exact hfound (.inr (.inr hkind))
      | _ => exact habsent (hnone (by rw [hkind]; decide))

theorem Session.IsTree.kindOf? {d : DeclId} {i : DeclInfo} {tree : TypeDecl}
    (he : s.IsTree id d i tree e) (ho : s.Of w) : w.kindOf? d = some tree.head.kind := by
  rw [World.kindOf?, he.tree_world ho]
  rfl

/-- For a class of the batch it is the one that the rules give. -/
theorem enclosingInstance_viewed {d : DeclId} {i : DeclInfo} {tree : TypeDecl}
    (ho : Owns w ownType id) (he : s.IsTree id d i tree e) :
    (asking w).Ends s (enclosingInstance e ownType) fun type t =>
      viewed w type (w.instanceAround w.declaredType i tree.head) t := by
  refine .sound fun hs => ?_
  have hsound := hs.resolved.sound
  have habsent : ∀ t, (asking w).Ends t (pure ModelType.absent) fun type t =>
      viewed w type .absent t := fun t => .pure fun _ => ⟨trivial, rfl⟩
  have hkind : decide (e.kind ≠ .classType) = decide (tree.head.kind ≠ .classType) := by
    rw [he.kind]
    cases tree.head.kind <;> rfl
  have haround := he.around hsound
  have hold := he.older
  unfold enclosingInstance World.instanceAround
  rw [hkind, Element.hasModifier, he.modifiers]
  generalize e.enclosing = enc at haround hold
  -- Only an inner class can have an enclosing instance: one that is not static, inside a type.
  by_cases hinner : (decide (tree.head.kind ≠ .classType) ||
      tree.head.modifiers.contains Modifier.static) = true
  · simp only [if_pos hinner]
    cases enc <;> exact habsent s
  · simp only [if_neg hinner]
    cases haround with
    | nothing hparent =>
      rw [hparent]
      exact habsent s
    | package hparent hget hkind hsource hout =>
      rw [hparent]
      refine .reads (reads_elementAt hget) ?_
      rw [hkind]
      exact habsent s
    | constant hparent hm hget hkind hsource howner hden hlt =>
      rw [hparent, hm]
      refine .reads (reads_elementAt hget) ?_
      rw [hkind]
      exact habsent s
    | @type p outer hparent hm hden =>
      have hpp := he.primary.parent hsound.index he.info hparent
      obtain ⟨j, ptree, eo, heo⟩ := hsound.isTree hpp hden
      have hown := ho s _ outer (hs.resolved.level hpp hden).2.shows (hold outer rfl)
      rw [hparent, hm]
      refine .reads (reads_elementAt heo.get) ?_
      dsimp only
      rw [heo.kind, heo.kindOf? hs.resolved.of]
      -- The type around it counts only if it is parameterized.
      have hinstance : (asking w).Ends s (do
            let t ← ownType outer
            return if t.isParameterized then t else .absent)
          fun type t => viewed w type
            (if (w.declaredType p).isParameterized then w.declaredType p else .absent) t := by
        refine hown.bind fun type t ht hg htype => .pure fun _ => ?_
        have hview := htype.declared ht.resolved (hg.toKeeps.index ▸ hpp)
        rw [← hview.2, t.view_isParameterized]
        split
        · exact ⟨hview.1, rfl⟩
        · exact ⟨trivial, rfl⟩
      cases ptree.head.kind with
      | classType | enumType | recordType => exact hinstance
      | interfaceType | annotationType => exact habsent s

/-! ### The own type of an element -/

/-- The parameters of a type as its arguments. -/
theorem Session.holds_params {symbol : Symbol} {names : List Name} (hs : s.Resolved w)
    (hn : ∀ n ∈ names, s.names.Issued n) (hshow : s.ShowsType symbol id) :
    s.HoldsAll w (names.map fun n => .typeVariable n id) ∧
      s.viewAll (names.map fun n => .typeVariable n id) =
        names.map fun n => .typeVariable (s.names.text n) symbol := by
  induction names with
  | nil => exact ⟨trivial, rfl⟩
  | cons n rest ih =>
    obtain ⟨hall, hview⟩ := ih fun m hm => hn m (List.mem_cons_of_mem _ hm)
    refine ⟨⟨⟨hn n List.mem_cons_self, symbol, hshow⟩, hall⟩, ?_⟩
    rw [List.map_cons, viewAll, hview, view, symbolAt_eq hs hshow]
    rfl

theorem World.fieldType?_eq {d : DeclId} {m number : Nat} {f : FieldDecl} {v : Variable}
    (hm : w.member? d m = some (.field f)) (hv : f.declarators[number]? = some v) :
    w.fieldType? d m number = some (Element.withDimensions v.span v.dims f.type) := by
  rw [World.member?] at hm
  rw [World.fieldType?, hm]
  dsimp only
  rw [hv, Option.map_some]

/-- The type that is written for a field. -/
theorem fieldType_ends {d : DeclId} {m number : Nat} (hd : s.Denotes (.field d m number) id)
    (he : s.elements.get? id = some e) :
    (asking w).Ends s (computeOwnType ownType id e) fun type t =>
      t.OwnTypeAs w (.field d m number) type := by
  refine .sound fun hs => ?_
  have hr := hs.resolved
  obtain ⟨e', he', hdesc, -⟩ := hr.sound.element _ id hd
  cases he.symm.trans he'
  obtain ⟨f, v, owner, hm, hv, -, hb⟩ := hdesc.field_inv
  have hsource : e.source = .field (Element.withDimensions v.span v.dims f.type) :=
    congrArg Element.source hb
  rw [hr.of.member?] at hm
  have hwritten := World.fieldType?_eq hm hv
  have hfield := World.member_sound hr.world.trees hm
  rw [Member.Sound] at hfield
  obtain ⟨sc, hreads, hview, hscoped⟩ := reads_scopeOf_field hr hd
  unfold computeOwnType
  rw [hsource]
  refine .reads hreads ?_
  -- The written type is read in the scope of the class around the field.
  have hheeds := typeOf_heeds hscoped (hfield.type.withDimensions v.span v.dims)
  refine Ends.mono hheeds fun type t ht hg ⟨seen, hseen, hset⟩ => ⟨hseen.holds, ?_, ?_, ?_, ?_⟩
  · rintro x ⟨type', htype', hx⟩
    cases hwritten.symm.trans htype'
    rw [hseen.view]
    exact (hset.settled x (hview ▸ hx)).symm
  · rintro type' htype'
    cases hwritten.symm.trans htype'
    exact hseen.readAs
  · rintro reading hreading
    rw [World.reading?, hwritten, Option.map_some, Option.mem_some_iff] at hreading
    rw [hseen.view, ← hreading, ← hview]
    exact hset.held
  · refine ⟨id, ⟨_, hd.grow hg.toKeeps, rfl⟩, fun e' he' _ hfield => absurd ?_ hfield⟩
    obtain ⟨e'', he'', hb'⟩ := hg.elements id e he
    cases he'.symm.trans he''
    exact (Element.kind_of_bare hb').trans (congrArg Element.kind hb)

/-- The type that a declaration declares. -/
theorem declaredType_ends {d : DeclId} (ho : Owns w ownType id) (hp : s.index.Primary d)
    (hd : s.Denotes (s.index.keyOf d) id) (he : s.elements.get? id = some e) :
    (asking w).Ends s (computeOwnType ownType id e) fun type t =>
      viewed w type (w.declaredType d) t ∧ t.IsOwnType id type := by
  refine .sound fun hs => ?_
  have hr := hs.resolved
  obtain ⟨i, tree, e', htree⟩ := hr.sound.isTree hp hd
  cases he.symm.trans htree.get
  have hisType : e.kind.isType = true := by
    rw [htree.kind]
    cases tree.head.kind <;> rfl
  have hparams : e.typeParams = i.typeParams := congrArg Element.typeParams htree.bare
  have hissued := (hr.world.index.infos d i (htree.info_world hr.of)).typeParams
  unfold computeOwnType
  rw [htree.source]
  -- The type is that of the declaration with its parameters as arguments, inside of the one around
  -- it.
  refine .read fun _ => ((enclosingInstance_viewed ho htree).and
    (enclosingInstance_ends ho he)).bind fun inst t ht hg ⟨hinst, _, henclosed⟩ => ?_
  refine .pure fun _ => ?_
  have hlevel : t.ShowsType (w.symbolOf d) id :=
    (hr.level hp hd).2.grow hr.sound hg.toKeeps
  obtain ⟨hargs, hviews⟩ := Session.holds_params ht.resolved
    (fun n hn => (hissued n (hparams ▸ hn)).le ht.resolved.of.names) hlevel
  have htoken : t.token = s.token := congrArg SessionBase.token hg.base
  refine ⟨⟨⟨htoken.symm, ⟨_, hlevel⟩, hargs, hinst.1⟩, ?_⟩,
    henclosed.isOwnType hr.sound htoken hg.elements he hisType⟩
  rw [Session.view, hviews, hinst.2,
    World.declaredType_eq hr.world (htree.info_world hr.of) (htree.tree_world hr.of), hparams,
    Session.viewTarget, Session.symbolAt_eq ht.resolved hlevel]
  congr 1
  exact List.map_congr_left fun n hn => by rw [ht.resolved.of.text (hissued n hn)]

/-- The type that a precompiled type declares. -/
theorem describedType_ends {name : String} (ho : Owns w ownType id)
    (hshow : s.ShowsType (.type name) id) (hfree : w.find? name = none)
    (he : s.elements.get? id = some e) :
    (asking w).Ends s (computeOwnType ownType id e) fun type t =>
      t.Holds w type ∧ t.IsOwnType id type := by
  refine .sound fun hs => ?_
  have hr := hs.resolved
  obtain ⟨n, d, e', -, -, hdesc⟩ := hshow.shows.described hr.world hr.sound hr.of hfree
  cases he.symm.trans hdesc.get
  obtain ⟨simple, params, -, hissued, hb⟩ := hdesc.bare
  have hparams : e.typeParams = params := congrArg Element.typeParams hb
  have hisType : e.kind.isType = true := by
    rw [show e.kind = .ofDecl d.kind from congrArg Element.kind hb]
    cases d.kind <;> rfl
  unfold computeOwnType
  rw [hdesc.source]
  refine .read fun _ => (enclosingInstance_ends ho he).bind
    fun inst t ht hg ⟨hinst, henclosed⟩ => .pure fun _ => ?_
  have hlevel := hshow.grow hr.sound hg.toKeeps
  have hnames : ∀ n ∈ e.typeParams, t.names.Issued n := fun n hn =>
    (NameTable.issued_of_forall₂ hissued n (hparams ▸ hn)).le hg.names
  obtain ⟨hargs, -⟩ := Session.holds_params ht.resolved hnames hlevel
  have htoken : t.token = s.token := congrArg SessionBase.token hg.base
  exact ⟨⟨htoken.symm, ⟨_, hlevel⟩, hargs, hinst⟩,
    henclosed.isOwnType hr.sound htoken hg.elements he hisType⟩

/-- The own type of a type. -/
theorem typesOwnType_ends {symbol : Symbol} (ho : Owns w ownType id)
    (hshow : s.ShowsType symbol id) (he : s.elements.get? id = some e) :
    (asking w).Ends s (computeOwnType ownType id e) fun type t => t.OwnTypeAs w symbol type := by
  refine .sound fun hs => ?_
  have hr := hs.resolved
  cases hd : w.declOf? symbol with
  | some d =>
    obtain ⟨hp, -, hden⟩ := hshow.shows.tree hr.world hr.sound hr.of hd
    refine (declaredType_ends ho hp hden he).mono fun type t _ hg ⟨htype, hown⟩ =>
      ⟨htype.1, fun v hv => ?_, hshow.isType.written, hshow.isType.reading,
        id, hshow.shows.grow hr.sound hg.toKeeps, fun _ _ _ _ => hown⟩
    -- Both kinds of symbols that are types have the own type of their declaration.
    have hv' : ∃ d', w.declOf? symbol = some d' ∧ v = w.declaredType d' := by
      have htype := hshow.isType
      cases symbol with
      | type _ | unnamed _ => exact hv
      | _ => exact htype.elim
    obtain ⟨d', hd', rfl⟩ := hv'
    cases hd.symm.trans hd'
    exact htype.2
  -- A type that no declaration declares is a described one.
  | none =>
    cases symbol with
    | type name =>
      refine (describedType_ends ho hshow hd he).mono fun type t _ hg ⟨htype, hown⟩ =>
        ⟨htype, ?_, hshow.isType.written, hshow.isType.reading,
          id, hshow.shows.grow hr.sound hg.toKeeps, fun _ _ _ _ => hown⟩
      rintro v ⟨d, hd', -⟩
      cases hd.symm.trans hd'
    | unnamed d => cases hd
    | _ => exact hshow.isType.elim

/-- **The own type of an element, by way of those around it.** -/
theorem computeOwnType_ends {symbol : Symbol} (ho : Owns w ownType id) (hshow : s.Shows symbol id)
    (he : s.elements.get? id = some e) :
    (asking w).Ends s (computeOwnType ownType id e) fun type t => t.OwnTypeAs w symbol type := by
  refine .sound fun hs => ?_
  have hr := hs.resolved
  obtain ⟨key, hden, rfl⟩ := hshow
  cases key with
  | package n =>
    obtain ⟨e', he', hdesc, -⟩ := hr.sound.element _ id hden
    cases he.symm.trans he'
    obtain ⟨simple, -, hb⟩ := hdesc.package_inv
    unfold computeOwnType
    rw [show e.source = .package from congrArg Element.source hb]
    refine .pure fun _ => ⟨trivial, fun v hv => hv.symm, nofun, nofun, id, ⟨_, hden, rfl⟩, ?_⟩
    intro e' he' hpackage
    cases he.symm.trans he'
    exact absurd (congrArg Element.kind hb) hpackage
  | field d m number => exact fieldType_ends hden he
  | constant d m =>
    obtain ⟨e', owner, he', hkind, hsource, henc, hown, hlt⟩ := hr.sound.isConstant hden
    cases he.symm.trans he'
    -- A constant has the own type of its enum, which was made before it.
    have hp := (hr.sound.askable _ _ hden).1
    unfold computeOwnType
    rw [hsource, henc]
    refine (ho s _ owner (hr.level hp hown).2.shows hlt).mono fun type t ht hg htype => ?_
    have hview := htype.declared ht.resolved (hg.toKeeps.index ▸ hp)
    refine ⟨hview.1, fun v hv => hview.2.trans hv.symm, nofun, nofun, id,
      ⟨_, hden.grow hg.toKeeps, rfl⟩, fun e' he' _ _ => ?_⟩
    obtain ⟨e'', he'', hb⟩ := hg.elements id e he
    cases he'.symm.trans he''
    obtain ⟨_, tree, eo, heo⟩ := hr.sound.isTree hp hown
    obtain ⟨eo', heo', hbo⟩ := hg.elements owner eo heo.get
    have hko := (Element.kind_of_bare hbo).trans heo.kind
    have hlevel := (hr.level hp hown).2.shows.grow hr.sound hg.toKeeps
    refine .constant he' ((Element.kind_of_bare hb).trans hkind)
      ((Element.enclosing_of_bare hb).trans henc)
      (htype.isOwnType ht.resolved.sound hlevel heo' ?_ ?_)
    all_goals
      rw [hko]
      cases tree.head.kind <;> decide
  | type n => exact typesOwnType_ends ho ⟨⟨_, hden, rfl⟩, trivial⟩ he
  | unnamed d => exact typesOwnType_ends ho ⟨⟨_, hden, rfl⟩, trivial⟩ he

end OwnType

theorem ownTypeWithin_owns {fuel : Nat} : Owns w (ownTypeWithin fuel) fuel := by
  induction fuel with
  | zero => exact fun s symbol id _ hlt => absurd hlt (Nat.not_lt_zero _)
  | succ fuel ih =>
    intro s symbol id hshow hlt
    refine .sound fun hs => ?_
    obtain ⟨e, he⟩ := hshow.get? hs.resolved.sound
    unfold ownTypeWithin
    refine .reads (reads_elementAt he) ?_
    cases htype : e.ownType with
    | some type => exact .pure fun _ => (hs.recalls symbol id e hshow he).ownType type htype
    | none =>
      have howns : Owns w (ownTypeWithin fuel) id := fun s symbol id' hshow hlt' =>
        ih s symbol id' hshow (Nat.lt_of_lt_of_le hlt' (Nat.le_of_lt_succ hlt))
      refine (computeOwnType_ends howns hshow he).bind fun type t ht hg hown => ?_
      obtain ⟨e', he', -⟩ := hg.elements id e he
      refine Ends.bind (updateElement_ends he' rfl fun other hother => ?_) fun _ u hu hg' _ => ?_
      · obtain rfl := (hshow.grow hs.resolved.sound hg.toKeeps).unique ht.resolved.sound hother
        exact { ht.recalls symbol id e' hother he' with ownType := fun _ h => Option.some.inj h ▸ hown }
      · exact .pure fun _ => hown.learn ht.resolved hu.resolved hg'

/-- **The own type of an element.** -/
theorem ownType_ends {symbol : Symbol} {id : ElementId} (hshow : s.Shows symbol id) :
    (asking w).Ends s (ownType id) fun type t => t.OwnTypeAs w symbol type := by
  refine .sound fun hs => .read fun _ => ?_
  obtain ⟨e, he⟩ := hshow.get? hs.resolved.sound
  have hlt : id < s.elements.size := (Array.getElem?_eq_some_iff.1 he).1
  exact ownTypeWithin_owns s symbol id hshow (Nat.lt_succ_of_lt hlt)

end JavaAbi
