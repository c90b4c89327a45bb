import JavaAbi.Proofs.LookupOrder

namespace JavaAbi

/-!
# Simple names in a session

A session between questions reads a simple name as a type parameter or as a type that is resolved
later, and resolves it to what the name denotes in the documented order. The lists of supertypes that
count are those that the session holds afterwards.

* `Session.Resolved.listed_symbols` — the lists of a session name no more types than it has elements;
* `Session.HasScope` — the scopes inside elements and headers;
* `NameRead` — what is made of a simple name, by what it denotes;
* `readName_denotes` — where a search goes through as many types as a session has elements, the session
  makes that of a simple name.
-/

open Course Stage

variable {w : World} {s t : Session}

/-! ### The types of a session -/

/-- The symbols of the elements of a session, in the order in which they were made. -/
def Session.symbols (s : Session) : List Symbol := (List.range s.elements.size).map s.symbolAt

theorem Session.ShowsType.mem_symbols (hs : s.Resolved w) {symbol : Symbol} {id : ElementId}
    (h : s.ShowsType symbol id) : symbol ∈ s.symbols := by
  obtain ⟨key, hden, -⟩ := h.shows
  obtain ⟨e, he, -⟩ := hs.sound.element key id hden
  have hlt : id < s.elements.size := (Array.getElem?_eq_some_iff.1 he).1
  exact List.mem_map.2 ⟨id, List.mem_range.2 hlt, Session.symbolAt_eq hs h⟩

/-- **The lists of a session name no more types than a search goes through**, if the session has no
    more elements than that. -/
theorem Session.Resolved.listed_symbols (hs : s.Resolved w)
    (hsize : s.elements.size ≤ w.index.size + w.provider.extent) :
    w.Listed s.HoldsList s.symbols where
  told := by
    rintro symbol l ⟨id, ids, -, -, hall⟩ x hx
    induction hall with
    | nil => cases hx
    | cons hshow _ ih =>
      rcases List.mem_cons.1 hx with rfl | hx
      · exact hshow.mem_symbols hs
      · exact ih hx
  size := by
    rw [Session.symbols, List.length_map, List.length_range]
    exact hsize
  unique _ _ _ h h' := h.unique hs.sound h'

/-! ### Scopes -/

/-- A scope inside an element, or of the header of one. -/
def Session.HasScope (s : Session) (sc : Scope) : Prop :=
  ∃ id, (scopeOf id).run.run.run s = (.ok (.ok sc), s) ∨
    (headerScopeOf id).run.run.run s = (.ok (.ok sc), s)

/-- The levels around an element are declarations with elements of their own. -/
theorem reads_levels (hs : s.Resolved w) (fuel : Nat) (id : Option ElementId)
    (hid : ∀ k ∈ id, k < s.elements.size) :
    ∃ chain unit, Reads s (scopeChain fuel id) (chain, unit) ∧ ∀ level ∈ chain, s.Level w level := by
  induction fuel generalizing id with
  | zero => exact ⟨[], none, .pure s _, List.forall_mem_nil _⟩
  | succ fuel ih =>
    cases id with
    | none => exact ⟨[], none, .pure s _, List.forall_mem_nil _⟩
    | some id =>
      have hlt := hid id rfl
      obtain ⟨e, he⟩ : ∃ e, s.elements.get? id = some e := ⟨_, Array.getElem?_eq_getElem hlt⟩
      obtain ⟨symbol, hshow⟩ := hs.sound.exists_shows he
      obtain ⟨key, hkey⟩ := hs.sound.covered id hlt
      obtain ⟨e', he', -, hold⟩ := hs.sound.element key id hkey
      cases he.symm.trans he'
      -- What is around an element was made before it, so the way outwards ends.
      obtain ⟨chain, unit, hreads, hlevels⟩ :=
        ih e.enclosing fun k hk => Nat.lt_trans (hold k hk) hlt
      unfold scopeChain
      cases hshow.madeFrom hs he with
      | @tree d i tree decl denotes htree =>
        refine ⟨(d, id) :: chain, some i.unit, (reads_elementAt he).bind ?_, ?_⟩
        · rw [htree.source]
          exact hreads.bind (.pure s _)
        · exact List.forall_mem_cons.2 ⟨hs.level htree.primary denotes, hlevels⟩
      | described undeclared descriptor hdesc =>
        refine ⟨chain, unit, (reads_elementAt he).bind ?_, hlevels⟩
        rw [hdesc.source]
        exact hreads
      | other notType kind source =>
        rcases source with hsource | ⟨type, hsource⟩ | ⟨body, hsource⟩
        · refine ⟨[], none, (reads_elementAt he).bind ?_, List.forall_mem_nil _⟩
          rw [hsource]
          exact .pure s _
        · refine ⟨chain, unit, (reads_elementAt he).bind ?_, hlevels⟩
          rw [hsource]
          exact hreads
        · refine ⟨chain, unit, (reads_elementAt he).bind ?_, hlevels⟩
          rw [hsource]
          exact hreads

/-- The scope inside an element, if it has one, is made of such levels. -/
theorem run_scopeOf (hs : s.Resolved w) (id : ElementId) :
    ∃ r, (scopeOf id).run.run.run s = (r, s) ∧ ∀ sc, r = .ok (.ok sc) → s.Scoped w sc := by
  by_cases hlt : id < s.elements.size
  · obtain ⟨chain, unit, hreads, hlevels⟩ := reads_levels hs s.elements.size
      (some id) fun k hk => Option.some.inj hk ▸ hlt
    cases unit with
    | none =>
      have hnone : Reads s (scopeOf id).run (.error .noScope) :=
        Reads.queryGet (hreads.query (.pure s _))
      exact ⟨_, hnone, nofun⟩
    | some unit =>
      have hsome : Reads s (scopeOf id).run (.ok { unit, chain }) :=
        Reads.queryGet (hreads.query (.pure s _))
      exact ⟨_, hsome, fun sc hsc => by cases hsc; exact hlevels⟩
  · -- A number that leads to no element: the way outwards has no steps, or ends at once.
    cases hsize : s.elements.size with
    | zero =>
      have hnone : Reads s (scopeOf id).run (.error .noScope) := by
        refine Reads.queryGet (Reads.query (a := ([], none)) ?_ (.pure s _))
        rw [hsize]
        exact .pure s _
      exact ⟨_, hnone, nofun⟩
    | succ n =>
      refine ⟨.error (.foreignElement id), ?_, nofun⟩
      unfold scopeOf
      rw [Query.run_get_bind, hsize]
      refine Query.run_lift_breach ?_
      unfold scopeChain
      exact SessionM.run_breach
        (run_elementAt_foreign (Array.getElem?_eq_none (Nat.le_of_not_lt hlt)))

theorem Session.HasScope.scoped (hs : s.Resolved w) {sc : Scope} (h : s.HasScope sc) :
    s.Scoped w sc := by
  obtain ⟨id, h⟩ := h
  obtain ⟨r, hrun, hscoped⟩ := run_scopeOf hs id
  rcases h with h | h
  · exact hscoped sc (congrArg Prod.fst (hrun.symm.trans h))
  · unfold headerScopeOf at h
    match r with
    | .ok (.ok inner) =>
      rw [Query.run_bind hrun] at h
      cases h
      exact hscoped inner rfl
    | .ok (.error e) =>
      rw [Query.run_bind hrun] at h
      cases h
    | .error b =>
      rw [Query.run_breach hrun] at h
      cases h

/-! ### Reading a simple name -/

/-- The type that a simple name writes in a scope, and the outcome of resolving it. -/
def readName (sc : Scope) (name : Name) (args : List TypeRef) (place : Span) :
    SessionM (ModelType × Except ModelError (Option ElementId)) := do
  let type ← typeOf directSupertypes sc (.classType [.mk name args] place)
  return (type, ← (elementOfType type).run)

/-- What is made of a simple name, by what it denotes: a type parameter is a type variable of its
    declaration; any other name is a declared type, of which the element is found, or it is an
    unknown symbol. -/
inductive NameRead (w : World) (t : Session) (name : Name) (place : Span) :
    Option Denotation → ModelType × Except ModelError (Option ElementId) → Prop
  | parameter {owner : Symbol} {id : ElementId} (level : t.ShowsType owner id) :
      NameRead w t name place (some (.parameter owner)) (.typeVariable name id, .ok none)
  | type {symbol : Symbol} {id : ElementId} {target : TypeTarget} {args : List ModelType}
      {enclosing : ModelType} (element : t.ShowsType symbol id) :
      NameRead w t name place (some (.type symbol))
        (.declared t.token target args enclosing, .ok (some id))
  | nothing {target : TypeTarget} {args : List ModelType} {enclosing : ModelType} :
      NameRead w t name place none
        (.declared t.token target args enclosing, .error (.unknownSymbol (w.text name) (some place)))

section Read

variable {lists : Symbol → List Symbol → Prop} {sc : ScopeView} {name : Name} {place : Span}

/-- How the rules read a segment: the later ones come first. -/
theorem World.finds_segmentsOf_cons {seg : ClassSegment} {rest : List ClassSegment}
    {found : List (Name × List TypeView)}
    (h : (w.segmentsOf sc (seg :: rest)).Finds lists found) :
    ∃ later views, (w.segmentsOf sc rest).Finds lists later ∧
      (w.typesOf sc seg.args).Finds lists views ∧ found = (seg.name, views) :: later := by
  obtain ⟨name, args⟩ := seg
  rw [World.segmentsOf] at h
  obtain ⟨later, hlater, h⟩ := h.bind_inv
  obtain ⟨views, hviews, h⟩ := h.bind_inv
  exact ⟨later, views, hlater, hviews, h.pure_inv⟩

/-- How they read the types of a list. -/
theorem World.finds_typesOf_cons {type : TypeRef} {rest : List TypeRef} {vs : List TypeView}
    (h : (w.typesOf sc (type :: rest)).Finds lists vs) :
    ∃ first later, (w.typeOf sc type).Finds lists first ∧
      (w.typesOf sc rest).Finds lists later ∧ vs = first :: later := by
  rw [World.typesOf] at h
  obtain ⟨first, hfirst, h⟩ := h.bind_inv
  obtain ⟨later, hlater, h⟩ := h.bind_inv
  exact ⟨first, later, hfirst, hlater, h.pure_inv⟩

/-- How they read a simple name. -/
theorem World.finds_typeOf {args : List TypeRef} {v : TypeView}
    (h : (w.typeOf sc (.classType [.mk name args] place)).Finds lists v) :
    ∃ p, (w.typeVariable? name sc).Finds lists p ∧
      match p with
      | some (n, owner) => v = .typeVariable (w.text n) owner
      | none => ∃ args, v = .declared (.written ⟨sc, [name], place⟩) args .absent := by
  rw [World.typeOf] at h
  obtain ⟨p, hp, h⟩ := h.bind_inv
  refine ⟨p, hp, ?_⟩
  cases p with
  | some p => exact h.pure_inv
  | none =>
    obtain ⟨segments, hsegments, h⟩ := h.bind_inv
    obtain ⟨later, views, hlater, -, rfl⟩ := finds_segmentsOf_cons hsegments
    rw [World.segmentsOf] at hlater
    cases hlater.pure_inv
    exact ⟨views, h.pure_inv⟩

/-- How they resolve a reference: as its path, with the place where it is written in the error. -/
theorem World.finds_located {path : List Name} {y : Except ModelError Symbol}
    (h : (w.resolveReference ⟨sc, path, place⟩).run.Finds lists y) :
    ∃ z, (w.resolvePath sc path).run.Finds lists z ∧
      y = z.mapError fun e => e.located place := by
  obtain ⟨z, hz, hy⟩ := Inquiry.Finds.bind_inv (i := (w.resolvePath sc path).run) h
  exact ⟨z, hz, by cases z <;> exact hy.pure_inv⟩

/-- How they resolve a simple name. -/
theorem World.finds_resolveReference {y : Except ModelError Symbol}
    (h : (w.resolveReference ⟨sc, [name], place⟩).run.Finds lists y) :
    ∃ x, (w.resolveSimple sc name).run.Finds lists x ∧
      match x with
      | .ok (some symbol) => y = .ok symbol
      | .ok none => y = .error (.unknownSymbol (w.text name) (some place))
      | .error e => y = .error (e.located place) := by
  obtain ⟨r, hr, rfl⟩ := World.finds_located h
  rcases Rule.finds_bind_inv hr with ⟨e, he, rfl⟩ | ⟨o, ho, hr⟩
  · exact ⟨_, he, rfl⟩
  · refine ⟨_, ho, ?_⟩
    cases o <;> cases hr.pure_inv <;> rfl

end Read

/-- A type that looks like a written reference refers to it. -/
theorem Session.view_eq_written {type : ModelType} {r : ReferenceView} {args : List TypeView}
    {enclosing : TypeView} (h : s.view type = .declared (.written r) args enclosing) :
    ∃ origin cell reference args enclosing,
      type = .declared origin (.written cell reference) args enclosing ∧ reference.view = r := by
  cases type with
  | declared origin target args' enclosing' =>
    rw [Session.view] at h
    cases target with
    | known id => cases h
    | written cell reference =>
      cases h
      exact ⟨origin, cell, reference, args', enclosing', rfl, rfl⟩
  | wildcard upper lower => rw [Session.view] at h; cases h
  | _ => rw [Session.view] at h; cases h

/-- A type that looks like a type variable is one. -/
theorem Session.view_eq_typeVariable {type : ModelType} {name : String} {owner : Symbol}
    (h : s.view type = .typeVariable name owner) :
    ∃ n id, type = .typeVariable n id ∧ s.names.text n = name ∧ s.symbolAt id = owner := by
  cases type with
  | typeVariable n id =>
    rw [Session.view] at h
    cases h
    exact ⟨n, id, rfl, rfl, rfl⟩
  | wildcard upper lower => rw [Session.view] at h; cases h
  | _ => rw [Session.view] at h; cases h

theorem Session.view_eq_absent {type : ModelType} (h : s.view type = .absent) : type = .absent := by
  cases type with
  | absent => rfl
  | _ => rw [Session.view] at h; cases h

theorem Session.view_eq_array {type : ModelType} {v : TypeView} (h : s.view type = .array v) :
    ∃ component, type = .array component ∧ s.view component = v := by
  cases type with
  | array component =>
    rw [Session.view] at h
    exact ⟨component, rfl, TypeView.array.inj h⟩
  | _ => rw [Session.view] at h; cases h

theorem Session.view_eq_wildcard {type : ModelType} {upper lower : Option TypeView}
    (h : s.view type = .wildcard upper lower) :
    ∃ upper' lower', type = .wildcard upper' lower' ∧ s.viewBound upper' = upper ∧
      s.viewBound lower' = lower := by
  cases type with
  | wildcard upper' lower' =>
    rw [Session.view] at h
    obtain ⟨hupper, hlower⟩ := TypeView.wildcard.inj h
    exact ⟨upper', lower', rfl, hupper, hlower⟩
  | _ => rw [Session.view] at h; cases h

section Session

variable {sc : Scope} {name : Name} {args : List TypeRef} {place : Span}

/-- The symbols of the levels of a scope are symbols of elements. -/
theorem Session.Scoped.mem_symbols (hs : s.Resolved w) (hsc : s.Scoped w sc) :
    ∀ d ∈ sc.view.chain, w.symbolOf d ∈ s.symbols := by
  intro d hd
  obtain ⟨level, hlevel, rfl⟩ := List.mem_map.1 hd
  exact (hsc level hlevel).2.mem_symbols hs

/-- **A session reads a simple name as what it denotes**, if it has no more elements afterwards than
    a search goes through. -/
theorem readName_denotes (hs : s.Idle w) (hp : w.provider.Honest) (hsc : s.Scoped w sc)
    (hn : w.names.Proper name) (hargs : ∀ a ∈ args, a.Sound w.names) :
    ∃ x t, (readName sc name args place).run.run s = (.ok x, t) ∧ t.Resolved w ∧ s.Keeps t ∧
      (t.elements.size ≤ w.index.size + w.provider.extent →
        ∃ r, w.Denotes t.HoldsList name sc.view r ∧ NameRead w t name place r x) := by
  have hsound : (TypeRef.classType [.mk name args] place).Sound w.names :=
    .classType _ _ (List.cons_ne_nil _ _) (List.forall_mem_singleton.2 hn) (List.forall_mem_singleton.2 hargs)
  have htype : ∀ n, (w.stage n).Follows s
      (typeOf directSupertypes sc (.classType [.mk name args] place))
      (w.typeOf sc.view (.classType [.mk name args] place))
      (Held w s.cells.size (.classType [.mk name args] place)) := fun n =>
    typeOf_follows (directSupertypes_supplies w n) hsc hsound (Nat.le_refl _)
  obtain ⟨_, t, hrun, ht, hg, type, rfl, v, hheld, -, hfinds⟩ :=
    Stage.Follows.settled htype hs.making hs.resolved
  obtain ⟨p, hparameter, hv⟩ := World.finds_typeOf hfinds
  cases p with
  | some p =>
    obtain ⟨n, owner⟩ := p
    obtain ⟨m, id, rfl, htext, howner⟩ := t.view_eq_typeVariable (hheld.view.trans hv)
    refine ⟨_, t, (SessionM.run_bind hrun).trans rfl, ht, hg.toKeeps, fun hsize => ?_⟩
    have hlisted := ht.listed_symbols hsize
    have hchain := (hsc.grow hs.resolved.sound hg.toKeeps).mem_symbols ht
    obtain ⟨rfl, hdenotes⟩ :=
      (World.denotes_of_finds hp hlisted hchain hparameter).1 n owner rfl
    have hholds := hheld.holds
    rw [Session.Holds] at hholds
    obtain ⟨hissued, symbol, hshow⟩ := hholds
    rw [← ht.of.text hn.1] at htext
    obtain rfl := NameTable.eq_of_text_eq hissued (hn.1.le ht.of.names) htext
    rw [Session.symbolAt_eq ht hshow] at howner
    subst howner
    exact ⟨_, hdenotes, .parameter hshow⟩
  | none =>
    obtain ⟨views, hv⟩ := hv
    obtain ⟨origin, cell, reference, targs, enclosing, rfl, hreference⟩ :=
      t.view_eq_written (hheld.view.trans hv)
    have hholds := hheld.holds
    rw [Session.Holds] at hholds
    obtain ⟨rfl, ⟨hrefers, c, hc, rfl, -⟩, -⟩ := hholds
    obtain ⟨-, r, hempty⟩ := hheld.cell cell rfl
    obtain rfl : c = { reference := r } := Option.some.inj (hc.symm.trans hempty)
    have hresolve : ∀ n, (w.stage n).Follows t (resolveReference directSupertypes r).run
        (w.resolveReference r.view).run (outcomes w.provider.Excuses shown) := fun n =>
      resolveReference_obeys (g := w.stage n) (directSupertypes_supplies w n) hrefers
    obtain ⟨_, u, hrun', hu, hg', x, rfl, y, hxy, -, hfound⟩ :=
      Stage.Follows.settled hresolve (hs.making.grow hs.resolved.sound hg) ht
    -- the reference keeps what it was resolved to; the lists of the session stay
    let u' : Session :=
      { u with cells := u.cells.modify cell fun c => { c with outcome := some x } }
    have hu' : u'.Resolved w := hu.with_cells _
    have hkeeps : u.Keeps u' := u.keeps_cells _
    have hkept : u.KeepsLists u' := fun _ _ h => h.with_cells hu.sound
    have hgrown : s.Keeps u' := (hg.toKeeps.trans hg'.toKeeps).trans hkeeps
    have htoken : t.token = u'.token := (congrArg SessionBase.token hg'.toKeeps.base).symm
    refine ⟨_, u', (SessionM.run_bind hrun).trans
      (SessionM.run_bind (run_resolveType hempty hrun')), hu', hgrown, fun hsize => ?_⟩
    have hlisted := hu'.listed_symbols hsize
    have hchain := (hsc.grow hs.resolved.sound hgrown).mem_symbols hu'
    replace hreference : r.view = ⟨sc.view, [name], place⟩ := hreference
    rw [hreference] at hfound
    obtain ⟨z, hz, hy⟩ := World.finds_resolveReference (hfound.mono hkept)
    have hparameter' := (hparameter.mono (hg'.keepsLists ht.sound)).mono hkept
    obtain ⟨o, rfl, hdenotes⟩ :=
      (World.denotes_of_finds hp hlisted hchain hparameter').2 rfl z hz
    refine ⟨_, hdenotes, ?_⟩
    rw [htoken]
    cases o with
    | some symbol =>
      subst hy
      match x, hxy with
      | .ok id, hshow => exact .type (hshow.grow hu.sound hkeeps)
    | none =>
      subst hy
      match x, hxy with
      | .error _, ⟨rfl, _⟩ => exact .nothing

end Session

/-! ### Clients -/

namespace Client

variable (token : SessionToken) (files : Batch) (provider : Provider) (config : ModelConfig)

/-- A client of a new session over the files of a batch, with a table that may have more names. -/
def startWith (table : NameTable) : Client :=
  ⟨Session.start token (parseBatch files).1 table provider config, []⟩

variable {table : NameTable} (htable : (parseBatch files).2.1.Le table)

include htable

theorem fits_startWith :
    (startWith token files provider config table).Fits
      (startWith token files provider config table).session.world :=
  ⟨Session.idle_start fun u hu => (parseBatch_sound files u hu).weaken htable False.elim, nofun⟩

omit htable in
theorem onlyObject_counted : onlyObject.Counted := by
  refine ⟨["java.lang.Object"], Nat.le_refl _, fun name d hd => ?_⟩
  dsimp only [onlyObject] at hd
  split at hd
  · rename_i hname
    exact hname ▸ List.mem_singleton_self _
  · cases hd

end Client

end JavaAbi
