import JavaAbi.Proofs.Following
import Mathlib.Data.List.Perm.Subperm

namespace JavaAbi

/-!
# Resolving names follows the rules

Each function of name resolution obeys its rule, when the lists of supertypes that it is given follow
the lists that the rule is told.

* `findType_obeys`, `elementOfDecl_obeys` — elements by name and by declaration;
* `searchMember_obeys`, `memberOf_obeys` — member types;
* `resolvePath_obeys`, `resolveReference_obeys` — names.
-/

open Course Stage

variable {g : Stage} {s : Session}

/-! ### Elements -/

/-- **The type of a canonical name is found as the look-up rule says.** -/
theorem findType_obeys {n : Name} (hn : s.names.Issued n) :
    g.Obeys s (findType n) (Rule.ofExcept (g.world.lookup (s.names.text n))) shown := by
  refine .sound fun hs => ?_
  have ha : s.Askable (.type n) := hn
  refine .answers (canonical_answers hs.quiet ha).resolving fun x t ht hg hx => ?_
  have hout := ht.sound.outcome _ _ hx
  rw [Session.outcomeOf_grow hs.sound.index ha hg.toKeeps] at hout
  rw [hs.of.lookup hs.world n, ← hout]
  cases x with
  | ok id => exact ⟨⟨_, hx, congrArg Symbol.type (NameTable.text_le hn hg.names)⟩, trivial⟩
  | error e =>
    refine ⟨rfl, ?_⟩
    rw [← hs.of.provider]
    exact lookupOutcome_excused _ hout.symm

/-- An unknown symbol is no error. -/
def Rule.unlessUnknown : Except ModelError Symbol → Rule (Option Symbol)
  | .ok symbol => return some symbol
  | .error e => if e.isUnknownSymbol then return none else throw e

theorem tryType_obeys {n : Name} (hn : s.names.Issued n) :
    g.Obeys s (tryType n) (Rule.ofExcept (g.world.tryLookup (s.names.text n)))
      (optional shown) := by
  have hrule : Rule.ofExcept (g.world.tryLookup (s.names.text n)) =
      (liftM (Rule.ofExcept (g.world.lookup (s.names.text n))).run >>= Rule.unlessUnknown) := by
    unfold World.tryLookup
    cases g.world.lookup (s.names.text n) with
    | ok symbol => rfl
    | error e =>
      show Rule.ofExcept (if e.isUnknownSymbol then .ok none else .error e) =
        if e.isUnknownSymbol then pure none else throw e
      split <;> rfl
  rw [hrule]
  refine (findType_obeys hn).attempt fun r r' t _ _ hr => ?_
  match r, r', hr with
  | .ok id, .ok symbol, hr => exact .pure fun _ => hr
  | .error e, .error _, ⟨rfl, he⟩ =>
    dsimp only [Rule.unlessUnknown]
    split
    · exact .pure fun _ => trivial
    · exact .throw he

/-- A declaration at the top, or in one with an element of its own, is found under the key that the
    index gives it. -/
theorem elementOfDecl_obeys {parent : Option DeclId} {c : DeclId}
    (hp : ∀ p ∈ parent, s.index.Primary p)
    (hc : ChildOf s.index.known? s.index.find? parent c) :
    g.Obeys s (elementOfDecl c) (pure (g.world.symbolOf c)) shown := by
  refine .sound fun hs => ?_
  obtain ⟨i, hi⟩ := DeclIndex.info_of_childOf hc
  obtain ⟨ha, ho⟩ := Session.askable_child hs.sound hp hc
  refine .reads (reads_keyOf hi) ?_
  have h := (canonical_denotes hs.quiet ha ho).resolving (w := g.world)
  refine .answers (r := .ok (g.world.symbolOf c)) h ?_
  rintro _ t ht hg ⟨id, rfl, hd⟩
  refine ⟨⟨_, hd, ?_⟩, Session.isType_symbolOf _ _⟩
  rw [Session.symbol_grow ha hg.names, hs.of.symbol_keyOf hs.world]

/-- A member type of a declaration with an element has one. -/
theorem child_obeys {p c : DeclId} (hp : s.index.Primary p)
    (hc : ChildOf s.index.known? s.index.find? (some p) c) :
    g.Obeys s (elementOfDecl c) (pure (g.world.symbolOf c)) shown :=
  elementOfDecl_obeys (fun _ hq => Option.some.inj hq ▸ hp) hc

/-! ### Qualified names -/

/-- The name of a simple name in a name that a session issued. -/
theorem qualifyName_ends {outer : Option Name} {simple : Name}
    (ho : ∀ o ∈ outer, s.names.Issued o) (hs : s.names.Proper simple) :
    building.Ends s (qualifyName outer simple) fun n t => t.names.resolve? n =
      some (NameTable.joined (outer.map s.names.text) (s.names.text simple)) := by
  obtain ⟨n, u, hq, hle, hn⟩ := NameTable.qualify?_eq_some ho hs.1 hs.2
  intro hsound
  have hk : s.Keeps { s with names := u } := ⟨rfl, hle, fun _ _ h => h, fun _ => rfl⟩
  refine ⟨.ok n, { s with names := u }, ?_, hsound.carry_cache hk (fun _ => rfl) rfl rfl,
    { Session.Builds.refl s with names := hle }, n, rfl, hn⟩
  unfold qualifyName
  rw [SessionM.run_get_bind, hq]
  rfl

/-! ### Member types -/

theorem reads_findNamed {simple : Name} {ds : List DeclId}
    (hd : ∀ d ∈ ds, ∃ i, s.index.get? d = some i) :
    Reads s (findNamed simple ds)
      (ds.find? fun d => ((s.index.get? d).map DeclInfo.simpleName) = some simple) := by
  induction ds with
  | nil => exact .pure s _
  | cons d rest ih =>
    obtain ⟨i, hi⟩ := hd d List.mem_cons_self
    unfold findNamed
    refine (reads_declAt hi).bind ?_
    rw [List.find?_cons, hi, Option.map_some]
    by_cases hn : i.simpleName = simple
    · simp only [hn, if_true, decide_true]
      exact .pure s _
    · have hne : some i.simpleName ≠ some simple := fun h => hn (Option.some.inj h)
      simp only [hn, if_false, hne, decide_false]
      exact ih fun d hd' => hd d (List.mem_cons_of_mem _ hd')

theorem reads_memberTypeNamed (hs : s.Sound) {d : DeclId} {i : DeclInfo} {simple : Name}
    (hi : s.index.get? d = some i) :
    Reads s (memberTypeNamed d simple) (s.index.memberType? d simple) := by
  refine (reads_declAt hi).bind ?_
  have hm : s.index.memberTypes d = i.memberTypes := by rw [DeclIndex.memberTypes, hi]; rfl
  rw [DeclIndex.memberType?, hm]
  refine reads_findNamed fun c hc => ?_
  obtain ⟨j, hj, -⟩ := (hs.index.infos d i hi).memberTypes c hc
  exact DeclIndex.info_of_known? (Option.isSome_iff_exists.2 ⟨j, hj⟩)

/-- A member type that is found by its simple name is a child of its declaration. -/
theorem childOf_memberType? (hs : s.Sound) {d c : DeclId} {simple : Name}
    (h : s.index.memberType? d simple = some c) :
    ChildOf s.index.known? s.index.find? (some d) c := by
  have hmem := List.mem_of_find?_eq_some h
  rw [DeclIndex.memberTypes] at hmem
  cases hi : s.index.get? d with
  | none => rw [hi] at hmem; cases hmem
  | some i =>
    rw [hi] at hmem
    exact (hs.index.infos d i hi).memberTypes c hmem

theorem declaredMemberType_obeys_text {owner : ElementId} {symbol : Symbol} {simple : Name}
    (ho : s.ShowsType symbol owner) (hn : s.names.Proper simple) :
    g.Obeys s (declaredMemberType owner simple)
      (Rule.ofExcept (g.world.declaredMemberAs symbol simple (s.names.text simple)))
      (optional shown) := by
  refine .sound fun hs => ?_
  unfold declaredMemberType World.declaredMemberAs
  cases hd : g.world.declOf? symbol with
  | some d =>
    obtain ⟨hp, -, hden⟩ := ho.shows.tree hs.world hs.sound hs.of hd
    obtain ⟨i, tree, e, he⟩ := hs.sound.isTree hp hden
    refine .reads (reads_elementAt he.get) ?_
    rw [he.source]
    refine .reads (reads_memberTypeNamed hs.sound he.info) ?_
    rw [← hs.of.index]
    dsimp only [Session.shapeOf]
    -- In a tree, the index of the batch has the member types.
    cases hm : s.index.memberType? d simple with
    | none =>
      show g.Obeys s (pure none) (pure none) (optional shown)
      exact .pure fun _ => trivial
    | some c =>
      have hc := child_obeys (g := g) hp (childOf_memberType? hs.sound hm)
      refine hc.bind (F := fun symbol => pure (some symbol)) fun id child t _ _ h => ?_
      show g.Obeys t (pure (some id)) (pure (some child)) (optional shown)
      exact .pure fun _ => h
  | none =>
    cases symbol with
    | type name =>
      obtain ⟨n, d, e, hname, -, he⟩ := ho.shows.described hs.world hs.sound hs.of hd
      refine .reads (reads_elementAt he.get) ?_
      rw [he.source, he.qualifiedName]
      -- Of a described type, a member type is looked up by its whole name.
      have houter : ∀ o ∈ some n, s.names.Issued o := fun _ ho => Option.some.inj ho ▸ he.issued
      refine .after (qualifyName_ends houter hn).resolving fun q t ht hg hq => ?_
      have htext := NameTable.text_eq hq
      rw [Option.map_some, hname] at htext
      have h := tryType_obeys (g := g) (s := t) (n := q) ⟨_, hq⟩
      rw [htext] at h
      exact h
    | unnamed d => cases hd
    | _ => exact ho.isType.elim

theorem declaredMemberType_obeys {owner : ElementId} {symbol : Symbol} {simple : Name}
    (ho : s.ShowsType symbol owner) (hn : g.world.names.Proper simple) :
    g.Obeys s (declaredMemberType owner simple)
      (Rule.ofExcept (g.world.declaredMember symbol simple)) (optional shown) := by
  refine .sound fun hs => ?_
  have h := declaredMemberType_obeys_text (g := g) ho (hn.le hs.of.names)
  rw [hs.of.text hn.1] at h
  exact h

/-- Whether a member is private is seen from its symbol. -/
theorem reads_modifiers (hw : s.Resolved g.world) {id : ElementId} {symbol : Symbol}
    (h : s.ShowsType symbol id) :
    ∃ e, s.elements.get? id = some e ∧ e.modifiers = g.world.modifiersOf symbol := by
  rw [World.modifiersOf]
  cases hd : g.world.declOf? symbol with
  | some d =>
    obtain ⟨hp, -, hden⟩ := h.shows.tree hw.world hw.sound hw.of hd
    obtain ⟨i, tree, e, he⟩ := hw.sound.isTree hp hden
    refine ⟨e, he.get, he.modifiers.trans ?_⟩
    dsimp only
    rw [he.tree_world hw.of]
    rfl
  | none =>
    cases symbol with
    | type name =>
      obtain ⟨n, d, e, hname, -, he⟩ := h.shows.described hw.world hw.sound hw.of hd
      refine ⟨e, he.get, he.modifiers.trans ?_⟩
      have hanswer := he.answer
      have hfree : g.world.find? name = none := hd
      rw [hname, hw.of.provider] at hanswer
      dsimp only [World.descriptorOf?]
      rw [hfree, hanswer]
      rfl
    | unnamed d => cases hd
    | _ => exact h.isType.elim

/-! ### Inherited members -/

/-- A function follows the lists that are told. -/
def Stage.Supplies (g : Stage) (supertypesOf : ElementId → SessionM (List ElementId)) : Prop :=
  ∀ s id symbol, s.ShowsType symbol id →
    g.Follows s (supertypesOf id) (Inquiry.listOf symbol) shownAll

namespace Session

theorem ShowsType.beq_eq {id id' : ElementId} {symbol symbol' : Symbol} (hs : s.Sound)
    (h : s.ShowsType symbol id) (h' : s.ShowsType symbol' id') : (id == id') = (symbol == symbol') := by
  rw [Bool.eq_iff_iff, beq_iff_eq, beq_iff_eq]
  constructor
  · rintro rfl
    exact h.shows.unique hs h'.shows
  · rintro rfl
    exact h.shows.functional hs h'.shows

theorem ShowsAll.contains_eq {id : ElementId} {symbol : Symbol} {ids : List ElementId}
    {symbols : List Symbol} (hs : s.Sound) (h : s.ShowsType symbol id)
    (hall : s.ShowsAll ids symbols) : ids.contains id = symbols.contains symbol := by
  induction hall with
  | nil => rfl
  | cons hx _ ih => rw [List.contains_cons, List.contains_cons, h.beq_eq hs hx, ih]

theorem ShowsAll.dropWhile {ids visited : List ElementId} {symbols seen : List Symbol}
    (hs : s.Sound) (hv : s.ShowsAll visited seen) (hall : s.ShowsAll ids symbols) :
    s.ShowsAll (ids.dropWhile visited.contains) (symbols.dropWhile seen.contains) := by
  induction hall with
  | nil => exact .nil
  | cons hx hrest ih =>
    rw [List.dropWhile_cons, List.dropWhile_cons, hv.contains_eq hs hx]
    split
    · exact ih
    · exact .cons hx hrest

theorem ShowsAll.append {ids ids' : List ElementId} {symbols symbols' : List Symbol}
    (h : s.ShowsAll ids symbols) (h' : s.ShowsAll ids' symbols') :
    s.ShowsAll (ids ++ ids') (symbols ++ symbols') := by
  induction h with
  | nil => exact h'
  | cons hx _ ih => exact .cons hx ih

end Session

section Search

variable {w : World} {known : List String}

/-- The symbols of the types that there can be. -/
def World.allTypes (w : World) (known : List String) : List Symbol :=
  (List.range w.index.size).map w.symbolOf ++ known.map .type

/-- The symbol of a declaration with an element of its own is one of them. -/
theorem World.mem_allTypes_of_primary (hs : s.Of w) {d : DeclId} (hd : s.index.Primary d)
    (known : List String) : w.symbolOf d ∈ w.allTypes known := by
  obtain ⟨i, hi⟩ := hd.info
  have hlt : d < w.index.size := by
    rw [← hs.index]
    exact (Array.getElem?_eq_some_iff.1 hi).1
  exact List.mem_append_left _ (List.mem_map.2 ⟨d, List.mem_range.2 hlt, rfl⟩)

theorem Session.ShowsType.mem_allTypes (hs : s.Resolved w) {known : List String}
    (hknown : ∀ name d, w.provider.resolve? name = some d → name ∈ known) {symbol : Symbol}
    {id : ElementId} (h : s.ShowsType symbol id) : symbol ∈ w.allTypes known := by
  cases hd : w.declOf? symbol with
  | some d =>
    obtain ⟨hprimary, rfl, -⟩ := h.shows.tree hs.world hs.sound hs.of hd
    exact World.mem_allTypes_of_primary hs.of hprimary known
  | none =>
    cases symbol with
    | type name =>
      obtain ⟨n, d, e, hname, -, he⟩ := h.shows.described hs.world hs.sound hs.of hd
      have hanswer := he.answer
      rw [hs.of.provider, hname] at hanswer
      exact List.mem_append_right _ (List.mem_map.2 ⟨name, hknown name d hanswer, rfl⟩)
    | unnamed d => cases hd
    | _ => exact h.isType.elim

/-- Where no name is known that is not counted, a search that has gone through as many types as there
    can be has gone through one of them twice. -/
theorem Session.ShowsAll.not_counted (hs : s.Resolved w) {visited : List ElementId}
    {seen : List Symbol} (hv : s.ShowsAll visited seen) (hnodup : seen.Nodup)
    (hlen : w.index.size + w.provider.extent < seen.length) : ¬s.provider.Counted := by
  rintro ⟨known, hcount, hknown⟩
  rw [hs.of.provider] at hcount hknown
  have hsub : ∀ symbol ∈ seen, symbol ∈ w.allTypes known := by
    clear hnodup hlen
    induction hv with
    | nil => exact List.forall_mem_nil _
    | cons hshow _ ih => exact List.forall_mem_cons.2 ⟨hshow.mem_allTypes hs hknown, ih⟩
  have hle := (hnodup.subperm hsub).length_le
  rw [World.allTypes, List.length_append, List.length_map, List.length_map, List.length_range] at hle
  omega

end Search

section Members

variable {supertypesOf : ElementId → SessionM (List ElementId)}

/-- A search is cut off only where there may be more types than it goes through. -/
theorem noteCutOff_obeys (h : s.Resolved g.world → ¬s.provider.Counted) :
    g.Obeys s (do modify fun s => { s with cutOff := true }; return none) (return none)
      (optional shown) := by
  intro _ _ hs
  have hk : s.Keeps { s with cutOff := true } :=
    ⟨rfl, .refl _, fun _ _ h => h, fun hc => absurd hc (h hs)⟩
  refine ⟨.ok (.ok none), { s with cutOff := true }, rfl, ?_, ?_, .ok none, rfl, .ok none, trivial,
    .pure _⟩
  · exact hs.carry (hs.sound.carry_cache hk (fun _ => rfl) rfl rfl) hk hs.quiet fun _ _ h => h
  · exact { hk with
      elements := fun _ _ h => h
      fresh := fun _ _ h => .inl h
      cells := fun _ _ h => h
      lists := fun _ _ h => h
      building := fun _ => Iff.rfl }

theorem searchMember_obeys (hsup : g.Supplies supertypesOf) {simple : Name}
    (hn : g.world.names.Proper simple) {fuel : Nat} {visited queue : List ElementId}
    {seen symbols : List Symbol} (hv : s.ShowsAll visited seen) (hq : s.ShowsAll queue symbols)
    (hnodup : seen.Nodup)
    (hfuel : g.world.index.size + g.world.provider.extent < fuel + seen.length) :
    g.Obeys s (searchMember supertypesOf simple fuel visited queue)
      (g.world.search simple fuel seen symbols) (optional shown) := by
  induction fuel generalizing s visited queue seen symbols with
  | zero => exact noteCutOff_obeys fun hs => hv.not_counted hs hnodup (by omega)
  | succ fuel ih =>
    refine .sound fun hs => ?_
    unfold searchMember World.search
    have hdrop := hv.dropWhile hs.sound hq
    have hfirst := List.head?_dropWhile_not seen.contains symbols
    generalize queue.dropWhile visited.contains = front at hdrop
    generalize symbols.dropWhile seen.contains = symbols' at hdrop hfirst
    cases hdrop with
    | nil => exact .pure fun _ => trivial
    | @cons current symbol rest symbols' hc hrest =>
      -- The type is a new one, so the list of those seen grows towards its bound.
      have hnew : symbol ∉ seen := by simpa using hfirst
      refine (declaredMemberType_obeys hc hn).bind fun found found' t ht hg hfound => ?_
      have hnext : g.Obeys t
          (do searchMember supertypesOf simple fuel (current :: visited)
                (rest ++ (← supertypesOf current)))
          (do g.world.search simple fuel (symbol :: seen)
                (symbols' ++ (← Inquiry.listOf symbol))) (optional shown) := by
        refine .lift (hsup t current symbol (hc.grow hs.sound hg.toKeeps)) ?_
        intro ids list u hu hg' hids
        have hk := hg.toKeeps.trans hg'.toKeeps
        exact ih (.cons (hc.grow hs.sound hk) (hv.grow hs.sound hk))
          ((Session.ShowsAll.grow hs.sound hrest hk).append hids)
          (List.nodup_cons.2 ⟨hnew, hnodup⟩) (by rw [List.length_cons]; omega)
      match found, found', hfound with
      | none, none, _ => exact hnext
      | some id, some member, hm =>
        obtain ⟨e, he, hmod⟩ := reads_modifiers ht hm
        refine .reads (reads_elementAt he) ?_
        rw [Element.hasModifier, hmod]
        dsimp only
        split
        · exact hnext
        · exact .pure fun _ => hm

theorem inheritedMemberType_obeys (hsup : g.Supplies supertypesOf) {simple : Name}
    (hn : g.world.names.Proper simple) {owner : ElementId} {symbol : Symbol}
    (ho : s.ShowsType symbol owner) :
    g.Obeys s (inheritedMemberType supertypesOf owner simple) (g.world.inherited symbol simple)
      (optional shown) := by
  refine .sound fun hs => ?_
  refine .lift (hsup s owner symbol ho) fun ids list t ht hg hids => .read ?_
  have hbound : t.typeBound = g.world.index.size + g.world.provider.extent + 1 := by
    rw [Session.typeBound, ht.of.index, ht.of.provider]
  rw [hbound]
  exact searchMember_obeys hsup hn (.cons (ho.grow hs.sound hg.toKeeps) .nil) hids
    (List.nodup_cons.2 ⟨List.not_mem_nil, .nil⟩) (by rw [List.length_singleton]; omega)

theorem memberOf_obeys (hsup : g.Supplies supertypesOf) {simple : Name}
    (hn : g.world.names.Proper simple) {owner : ElementId} {symbol : Symbol}
    (ho : s.ShowsType symbol owner) :
    g.Obeys s (memberOf supertypesOf owner simple) (g.world.memberOf symbol simple) shown := by
  refine .sound fun hs => ?_
  refine (declaredMemberType_obeys ho hn).bind fun found found' t ht hg hfound => ?_
  match found, found', hfound with
  | some id, some member, hm => exact .pure fun _ => hm
  | none, none, _ =>
    have ho' := ho.grow hs.sound hg.toKeeps
    refine (inheritedMemberType_obeys hsup hn ho').bind fun found found' u hu hg' hfound => ?_
    match found, found', hfound with
    | some id, some member, hm => exact .pure fun _ => hm
    | none, none, _ =>
      -- Neither declared nor inherited: the error has the name that the member would have.
      obtain ⟨e, he, hissued, hname⟩ :=
        (ho'.grow ht.sound hg'.toKeeps).qualified hu.world hu.sound hu.of
      refine .reads (reads_elementAt he) ?_
      rw [← hname, ← hu.of.text hn.1]
      have hn' := hn.le hu.of.names
      cases hq : e.qualifiedName with
      | named outer =>
        rw [hq] at hissued
        have hqual := qualifyName_ends (s := u) hissued hn'
        refine .after hqual.resolving fun name v hv _ htext => ?_
        refine .reads (reads_nameText ⟨_, htext⟩) ?_
        rw [NameTable.text_eq htext]
        exact .throw (g.world.provider.excuses_unknown _)
      | _ =>
        refine .reads (reads_nameText hn'.1) ?_
        exact .throw (g.world.provider.excuses_unknown _)

/-- The levels of a scope are declarations with elements of their own. -/
def Session.Level (s : Session) (w : World) (level : DeclId × ElementId) : Prop :=
  s.index.Primary level.1 ∧ s.ShowsType (w.symbolOf level.1) level.2

theorem Session.Level.grow {w : World} {t : Session} {level : DeclId × ElementId} (hs : s.Sound)
    (h : s.Level w level) (hk : s.Keeps t) : t.Level w level :=
  ⟨by rw [hk.index]; exact h.1, h.2.grow hs hk⟩

theorem memberTypeAt_obeys (hsup : g.Supplies supertypesOf) {simple : Name}
    (hn : g.world.names.Proper simple) {level : DeclId × ElementId}
    (hl : s.Level g.world level) :
    g.Obeys s (memberTypeAt supertypesOf level simple) (g.world.memberAt level.1 simple)
      (optional shown) := by
  refine .sound fun hs => ?_
  obtain ⟨i, hi⟩ := hl.1.info
  unfold memberTypeAt World.memberAt
  refine .reads (reads_memberTypeNamed hs.sound hi) ?_
  rw [← hs.of.index]
  cases hm : s.index.memberType? level.1 simple with
  | none => exact inheritedMemberType_obeys hsup hn hl.2
  | some c =>
    have hc := child_obeys (g := g) hl.1 (childOf_memberType? hs.sound hm)
    exact hc.bind (F := fun symbol => pure (some symbol)) fun id child t _ _ h => .pure fun _ => h

/-! ### Names -/

theorem firstFound_obeys {qs : List (Query (Option ElementId))}
    {rules : List (Rule (Option Symbol))}
    (h : List.Forall₂ (fun q rule => ∀ t, t.Resolved g.world → s.Resolves t →
      g.Obeys t q rule (optional shown)) qs rules) {t : Session} (ht : t.Resolved g.world)
    (hg : s.Resolves t) : g.Obeys t (firstFound qs) (Rule.firstFound rules) (optional shown) := by
  induction h generalizing t with
  | nil => exact .pure fun _ => trivial
  | cons hq _ ih =>
    refine (hq t ht hg).bind fun found found' u hu hg' hfound => ?_
    match found, found', hfound with
    | some id, some symbol, hm => exact .pure fun _ => hm
    | none, none, _ => exact ih hu (hg.trans hg')

theorem tryName_obeys {n : Name} (hn : g.world.names.Issued n) {t : Session}
    (ht : t.Resolved g.world) :
    g.Obeys t (tryType n) (Rule.ofExcept (g.world.tryLookup (g.world.text n))) (optional shown) := by
  have h := tryType_obeys (g := g) (hn.le ht.of.names)
  rw [ht.of.text hn] at h
  exact h

theorem tryWithin_obeys {outer : Option Name} {simple : Name}
    (ho : ∀ o ∈ outer, g.world.names.Issued o) (hn : g.world.names.Proper simple) {t : Session}
    (ht : t.Resolved g.world) :
    g.Obeys t (do tryType (← qualifyName outer simple))
      (Rule.ofExcept (g.world.tryLookup
        (NameTable.joined (outer.map g.world.text) (g.world.text simple)))) (optional shown) := by
  have hq := qualifyName_ends (s := t) (fun o hoo => (ho o hoo).le ht.of.names)
    (hn.le ht.of.names)
  refine .after hq.resolving fun n u hu hg htext => ?_
  have houter : outer.map t.names.text = outer.map g.world.text := by
    cases outer with
    | none => rfl
    | some o => exact congrArg some (ht.of.text (ho o rfl))
  have h := tryType_obeys (g := g) (s := u) (n := n) ⟨_, htext⟩
  rw [NameTable.text_eq htext, houter, ht.of.text hn.1] at h
  exact h

/-- The imports of a file are names of the batch. -/
theorem World.Sound.imports_issued {w : World} (hw : w.Sound) (unit : Nat) :
    (w.index.importsOf unit).Issued w.names := by
  rw [DeclIndex.importsOf]
  cases h : w.index.imports[unit]? with
  | none =>
    exact
      { single := fun i hi => nomatch hi
        onDemand := fun n hn => nomatch hn }
  | some u => exact hw.index.imports u (List.mem_of_getElem? h)

theorem World.Sound.package_issued {w : World} (hw : w.Sound) (unit : Nat) :
    ∀ n ∈ w.index.package? unit, w.names.Issued n := by
  intro n hn
  have hp := List.mem_of_getElem? (Option.join_eq_some_iff.1 hn)
  exact hw.index.packages (some n) hp n rfl

/-- A scope, without the numbers of elements. -/
def Scope.view (sc : Scope) : ScopeView where
  unit := sc.unit
  chain := sc.chain.map Prod.fst
  header := sc.header

/-- The levels of a scope are declarations with elements of their own. -/
def Session.Scoped (s : Session) (w : World) (sc : Scope) : Prop :=
  ∀ level ∈ sc.chain, s.Level w level

theorem Scope.levels_view (sc : Scope) : sc.view.levels = sc.levels.map Prod.fst := by
  unfold ScopeView.levels Scope.levels Scope.view
  dsimp only
  split
  · rw [List.map_drop]
  · rfl

theorem Scope.mem_chain_of_mem_levels {sc : Scope} {level : DeclId × ElementId}
    (h : level ∈ sc.levels) : level ∈ sc.chain := by
  rw [Scope.levels] at h
  split at h
  · exact List.mem_of_mem_drop h
  · exact h

theorem resolveSimple_obeys (hsup : g.Supplies supertypesOf) {sc : Scope} {simple : Name}
    (hsc : s.Scoped g.world sc) (hn : g.world.names.Proper simple) :
    g.Obeys s (resolveSimple supertypesOf sc simple) (g.world.resolveSimple sc.view simple)
      (optional shown) := by
  refine .sound fun hs => .read ?_
  have himports := hs.world.imports_issued sc.unit
  have hpackage := hs.world.package_issued sc.unit
  rw [hs.of.index, hs.of.wellKnown]
  unfold World.resolveSimple
  rw [sc.levels_view]
  refine firstFound_obeys (s := s) ?_ hs (.refl s)
  -- The levels of the scope, the imports of single types, the package, the imports on demand and
  -- those that are implicit.
  refine List.rel_append (List.rel_append (List.rel_append (List.rel_append ?_ ?_) ?_) ?_) ?_
  · rw [List.map_map]
    refine List.forall₂_map_left_iff.2 (List.forall₂_map_right_iff.2 (List.forall₂_same.2 ?_))
    intro level hl t ht hg
    refine memberTypeAt_obeys hsup hn ?_
    exact (hsc level (Scope.mem_chain_of_mem_levels hl)).grow hs.sound hg.toKeeps
  · refine List.forall₂_map_left_iff.2 (List.forall₂_map_right_iff.2 (List.forall₂_same.2 ?_))
    intro i hi t ht hg
    exact tryName_obeys (himports.single i (List.mem_filter.1 hi).1).1 ht
  · exact .cons (fun t ht hg => tryWithin_obeys hpackage hn ht) .nil
  · refine List.forall₂_map_left_iff.2 (List.forall₂_map_right_iff.2 (List.forall₂_same.2 ?_))
    intro o ho t ht hg
    have houter : ∀ n ∈ some o, g.world.names.Issued n := fun _ h =>
      Option.some.inj h ▸ himports.onDemand o ho
    exact tryWithin_obeys houter hn ht
  · refine List.forall₂_map_left_iff.2 (List.forall₂_map_right_iff.2 (List.forall₂_same.2 ?_))
    intro o ho t ht hg
    have houter : ∀ n ∈ some o, g.world.names.Issued n := fun _ h =>
      Option.some.inj h ▸ hs.world.wellKnown.implicitImports o ho
    exact tryWithin_obeys houter hn ht

/-- The name of a path, in a name that a session issued. -/
theorem canonicalPath_ends {path : List Name} {outer : Option Name} {w : World} (hw : s.Of w)
    (ho : ∀ o ∈ outer, s.names.Issued o) (hp : ∀ n ∈ path, w.names.Proper n) :
    building.Ends s (canonicalPath outer path) fun r t => (∀ n ∈ r, t.names.Issued n) ∧
      r.map t.names.text = w.canonicalPath (outer.map s.names.text) path := by
  induction path generalizing s outer with
  | nil => exact .pure fun _ => ⟨ho, rfl⟩
  | cons first rest ih =>
    have hfirst := hp first List.mem_cons_self
    refine (qualifyName_ends ho (hfirst.le hw.names)).bind fun q t _ hg hq => ?_
    have htext := NameTable.text_eq hq
    rw [hw.text hfirst.1] at htext
    have houter : ∀ o ∈ some q, t.names.Issued o := fun _ ho => Option.some.inj ho ▸ ⟨_, hq⟩
    have h := ih (hw.grow hg.toKeeps) houter fun n hn => hp n (List.mem_cons_of_mem _ hn)
    rw [Option.map_some, htext] at h
    exact h

theorem World.canonicalPath_isSome {w : World} {path : List Name} {outer : Option String}
    (h : outer.isSome ∨ path ≠ []) : (w.canonicalPath outer path).isSome := by
  induction path generalizing outer with
  | nil => exact h.resolve_right fun h => h rfl
  | cons first rest ih => exact ih (.inl rfl)

theorem memberPath_obeys (hsup : g.Supplies supertypesOf) {path : List Name}
    (hp : ∀ n ∈ path, g.world.names.Proper n) {id : ElementId} {symbol : Symbol}
    (h : s.ShowsType symbol id) :
    g.Obeys s (path.foldlM (memberOf supertypesOf) id) (path.foldlM g.world.memberOf symbol)
      shown := by
  induction path generalizing s id symbol with
  | nil => exact .pure fun _ => h
  | cons first rest ih =>
    rw [List.foldlM_cons, List.foldlM_cons]
    refine (memberOf_obeys hsup (hp first List.mem_cons_self) h).bind fun id symbol t _ _ h => ?_
    exact ih (fun n hn => hp n (List.mem_cons_of_mem _ hn)) h

/-- **A path is resolved as the rules say.** -/
theorem resolvePath_obeys (hsup : g.Supplies supertypesOf) {sc : Scope} {path : List Name}
    (hsc : s.Scoped g.world sc) (hne : path ≠ []) (hp : ∀ n ∈ path, g.world.names.Proper n) :
    g.Obeys s (resolvePath supertypesOf sc path) (g.world.resolvePath sc.view path) shown := by
  match path with
  | [] => exact absurd rfl hne
  | first :: rest =>
    have hfirst := hp first List.mem_cons_self
    refine (resolveSimple_obeys hsup hsc hfirst).bind fun found found' t ht hg hfound => ?_
    match found, found', hfound with
    | some id, some symbol, h =>
      exact memberPath_obeys hsup (fun n hn => hp n (List.mem_cons_of_mem _ hn)) h
    | none, none, _ =>
      dsimp only
      split
      · refine .reads (reads_nameText (hfirst.1.le ht.of.names)) ?_
        rw [ht.of.text hfirst.1]
        exact .throw (g.world.provider.excuses_unknown _)
      · -- The first segment is no type, so the path may be a name in full.
        have hnone : ∀ o ∈ (none : Option Name), t.names.Issued o := fun o h =>
          absurd h (Option.not_mem_none o)
        have hpath := canonicalPath_ends ht.of hnone hp
        refine .after hpath.resolving fun r u hu hg' hr => ?_
        obtain ⟨hissued, htext⟩ := hr
        rw [Option.map_none] at htext
        have hsome : (g.world.canonicalPath none (first :: rest)).isSome :=
          g.world.canonicalPath_isSome (.inr hne)
        rw [← htext] at hsome ⊢
        cases r with
        | none => cases hsome
        | some name => exact findType_obeys (hissued name rfl)

/-- A reference that a session can resolve. -/
structure Session.Refers (s : Session) (w : World) (r : TypeReference) : Prop where
  scope : s.Scoped w r.scope
  path : r.path ≠ []
  names : ∀ n ∈ r.path, w.names.Proper n

/-- A reference, without the numbers of elements. -/
def TypeReference.view (r : TypeReference) : ReferenceView := ⟨r.scope.view, r.path, r.span⟩

theorem resolveReference_obeys (hsup : g.Supplies supertypesOf) {r : TypeReference}
    (hr : s.Refers g.world r) :
    g.Obeys s (resolveReference supertypesOf r) (g.world.resolveReference r.view) shown :=
  (resolvePath_obeys hsup hr.scope hr.path hr.names).handle fun _ _ _ _ he =>
    .throw (he.located r.span)

end Members

end JavaAbi
