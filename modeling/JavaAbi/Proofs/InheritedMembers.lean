import JavaAbi.Proofs.BreadthFirst
import JavaAbi.Proofs.LookupOrder
import JavaAbi.Proofs.ReportedSupertypes
import JavaAbi.Proofs.SelfTypes

namespace JavaAbi

/-!
# Inherited member types

The search for an inherited member type goes through the supertypes of a type breadth first, over the
lists that the session holds when the search ends: lists that are missing are made on the way, and
lists that are held stay. It returns a member type of the first supertype in that order, other than the
type itself, that declares one that is not private, and it returns nothing only where there is none. A
supertype with a private member type of the name is passed like one without any.

* `Session.storedSupertypes` — the list that a session holds for a type;
* `Session.Offers`, `Session.OffersMember` — a type declares a member type that is not private;
* `Session.Passes` — a type does not, and its list is there for the search to go on with;
* `run_directSupertypes`, `run_declaredMemberType` — what one step of the search does;
* `searchMember_scans` — the search is the breadth-first search of these lists;
* `Client.inherited_member_first` — what a client's session answers.
-/

open Course Stage

variable {w : World} {s t : Session} {id : ElementId} {symbol : Symbol} {simple : Name}

/-! ### What is searched -/

namespace Session

/-- The list of direct supertypes that a session holds for a type. -/
def storedSupertypes (s : Session) (id : ElementId) : List ElementId :=
  match s.supertypes.slot? id with
  | some (.ready ids) => ids
  | _ => []

/-- A type declares a member type of a simple name that is not private. -/
def Offers (s : Session) (simple : Name) (id : ElementId) : Prop :=
  ∃ symbol member, s.ShowsType symbol id ∧ s.world.Declares simple symbol member ∧
    .privateAccess ∉ s.world.modifiersOf member

/-- A type declares this member type of a simple name, and it is not private. -/
def OffersMember (s : Session) (simple : Name) (id member : ElementId) : Prop :=
  ∃ symbol symbol', s.ShowsType symbol id ∧ s.world.Declares simple symbol symbol' ∧
    .privateAccess ∉ s.world.modifiersOf symbol' ∧ s.ShowsType symbol' member

/-- A search can pass a type: the session holds its list, and it declares no member type of the simple
    name but a private one. -/
def Passes (s : Session) (simple : Name) (id : ElementId) : Prop :=
  (∃ ids, s.supertypes.slot? id = some (.ready ids)) ∧ ¬s.Offers simple id

theorem OffersMember.offers {member : ElementId} (h : s.OffersMember simple id member) :
    s.Offers simple id := by
  obtain ⟨symbol, symbol', hid, hdeclares, hpublic, -⟩ := h
  exact ⟨symbol, symbol', hid, hdeclares, hpublic⟩

theorem storedSupertypes_eq {ids : List ElementId} (h : s.supertypes.slot? id = some (.ready ids)) :
    s.storedSupertypes id = ids := by
  rw [storedSupertypes, h]

/-- The list that a session holds for the symbol of a type is the one that it holds for the type. -/
theorem HoldsList.slot?_eq {symbols : List Symbol} {ids : List ElementId} (hs : s.Sound)
    (h : s.HoldsList symbol symbols) (hid : s.ShowsType symbol id) (hall : s.ShowsAll ids symbols) :
    s.supertypes.slot? id = some (.ready ids) := by
  obtain ⟨id', ids', hid', hslot, hall'⟩ := h
  obtain rfl := hid.shows.functional hs hid'.shows
  obtain rfl := ShowsAll.functional hs hall hall'
  exact hslot

/-- What a type declares is known from its symbol and the text of the name, at any time. -/
theorem Resolves.declaredMember_eq (hs : s.Resolved w) (ht : t.Resolved w) (hg : s.Resolves t)
    (hn : s.names.Proper simple) (symbol : Symbol) :
    s.world.declaredMember symbol simple = t.world.declaredMember symbol simple := by
  rw [hs.of.world_declaredMember hs.world, ht.of.world_declaredMember ht.world,
    NameTable.text_le hn.1 hg.names]

/-- Whether a type offers a member type is seen from what it declares. -/
theorem offers_iff (hs : s.Resolved w) {member : Option Symbol} (h : s.ShowsType symbol id)
    (hd : s.world.declaredMember symbol simple = .ok member) :
    s.Offers simple id ↔ ∃ m, member = some m ∧ .privateAccess ∉ w.modifiersOf m := by
  rw [← hs.of.world_modifiersOf hs.world]
  constructor
  · rintro ⟨symbol', m, hid, hdeclares, hpublic⟩
    obtain rfl := hid.shows.unique hs.sound h.shows
    exact ⟨m, Except.ok.inj (hd.symm.trans hdeclares), hpublic⟩
  · rintro ⟨m, rfl, hpublic⟩
    exact ⟨symbol, m, h, hd, hpublic⟩

end Session

/-! ### The steps of the search -/

/-- **The list of a type is made, or is there.** -/
theorem run_directSupertypes (hs : s.Resolved w) (hm : s.Makes [] []) (h : s.ShowsType symbol id) :
    ∃ ids symbols t, (directSupertypes id).run.run s = (.ok ids, t) ∧ t.Resolved w ∧ s.Resolves t ∧
      t.supertypes.slot? id = some (.ready ids) ∧ t.ShowsAll ids symbols := by
  have hcalm : (w.stage 0).Calm := fun _ hmem => nomatch hmem
  obtain ⟨_, t, hrun, ht, hg, ids, rfl, symbols, hids, htells⟩ :=
    directSupertypes_supplies w 0 s id symbol h hm (.inr hcalm) hs
  have hheld : t.HoldsList symbol symbols := (htells.held rfl).listOf_inv
  exact ⟨ids, symbols, t, hrun, ht, hg,
    hheld.slot?_eq ht.sound (h.grow hs.sound hg.toKeeps) hids, hids⟩

/-- **What a type declares is found**, if the provider is honest. -/
theorem run_declaredMemberType (hp : w.provider.Honest) (hs : s.Resolved w) (hm : s.Makes [] [])
    (hn : s.names.Proper simple) (h : s.ShowsType symbol id) :
    ∃ found member t, (declaredMemberType id simple).run.run.run s = (.ok (.ok found), t) ∧
      t.Resolved w ∧ s.Resolves t ∧ t.world.declaredMember symbol simple = .ok member ∧
      optional shown found member t := by
  have hcalm : (w.stage 0).Calm := fun _ hmem => nomatch hmem
  obtain ⟨_, t, hrun, ht, hg, r, rfl, r', hr, htells⟩ :=
    declaredMemberType_obeys_text (g := w.stage 0) h hn hm (.inr hcalm) hs
  obtain rfl := (htells.held rfl).pure_inv
  have hdeclared : t.world.declaredMember symbol simple =
      w.declaredMemberAs symbol simple (s.names.text simple) := by
    rw [← hg.declaredMember_eq hs ht hn, hs.of.world_declaredMember hs.world]
  have hp' : t.world.provider.Honest := by
    show t.provider.Honest
    rw [ht.of.provider]
    exact hp
  obtain ⟨member, hmember⟩ := World.declaredMember_ok hp' symbol simple
  rw [hdeclared] at hmember
  replace hr : outcomes w.provider.Excuses (optional shown) r
    (w.declaredMemberAs symbol simple (s.names.text simple)) t := hr
  rw [hmember] at hr
  match r, hr with
  | .ok found, hr => exact ⟨found, member, t, hrun, ht, hg, hdeclared.trans hmember, hr⟩

/-! ### The search -/

/-- What a search returns is a member type of the type that it stops at. -/
def offered (simple : Name) (found type : Option ElementId) (t : Session) : Prop :=
  optional (fun member id t => t.OffersMember simple id member) found type t

/-- Work that ends with what the breadth-first search of the lists finds that are held in the end,
    unless a search was cut off. -/
def Session.Scans (w : World) (simple : Name) (s : Session) (q : Query (Option ElementId))
    (visited queue : List ElementId) : Prop :=
  ∃ found t, q.run.run.run s = (.ok (.ok found), t) ∧ t.Resolved w ∧ s.Resolves t ∧
    (t.cutOff = false → ∃ type,
      BreadthFirst.Scan t.storedSupertypes (fun id => ¬t.Passes simple id) visited queue type ∧
        offered simple found type t)

namespace Session.Scans

variable {q : Query (Option ElementId)} {visited queue rest : List ElementId} {current : ElementId}

theorem of_dropWhile (h : s.Scans w simple q visited (queue.dropWhile visited.contains)) :
    s.Scans w simple q visited queue := by
  obtain ⟨found, t, hrun, ht, hg, hscan⟩ := h
  refine ⟨found, t, hrun, ht, hg, fun hcut => ?_⟩
  obtain ⟨type, hscan, hoffered⟩ := hscan hcut
  exact ⟨type, hscan.of_dropWhile, hoffered⟩

/-- Work after other work. -/
theorem after {α : Type} {m : Query α} {f : α → Query (Option ElementId)} {a : α}
    (hrun : m.run.run.run s = (.ok (.ok a), t)) (hg : s.Resolves t)
    (h : t.Scans w simple (f a) visited queue) : s.Scans w simple (m >>= f) visited queue := by
  obtain ⟨found, u, hrun', hu, hg', hscan⟩ := h
  exact ⟨found, u, (Query.run_bind hrun).trans hrun', hu, hg.trans hg', hscan⟩

/-- Work after a look at the session. -/
theorem reads {α : Type} {m : SessionM α} {f : α → Query (Option ElementId)} {a : α}
    (hm : Reads s m a) (h : s.Scans w simple (f a) visited queue) :
    s.Scans w simple (liftM m >>= f) visited queue := by
  obtain ⟨found, t, hrun, ht⟩ := h
  exact ⟨found, t, (Query.run_lift_bind hm).trans hrun, ht⟩

/-- A search that passes a type goes on with the list of the type. -/
theorem onwards {f : List ElementId → Query (Option ElementId)} {member : Option Symbol}
    (hs : s.Resolved w) (hm : s.Makes [] []) (hn : s.names.Proper simple)
    (hc : s.ShowsType symbol current) (hd : s.world.declaredMember symbol simple = .ok member)
    (hpassed : ∀ m, member = some m → .privateAccess ∈ w.modifiersOf m) (hnew : current ∉ visited)
    (hf : ∀ ids symbols u, u.Resolved w → s.Resolves u → u.ShowsAll ids symbols →
      u.Scans w simple (f ids) (current :: visited) (rest ++ ids)) :
    s.Scans w simple (liftM (directSupertypes current) >>= f) visited (current :: rest) := by
  obtain ⟨ids, symbols, u, hrun, hu, hg, hslot, hids⟩ := run_directSupertypes hs hm hc
  obtain ⟨found, t, hrun', ht, hg', hscan⟩ := hf ids symbols u hu hg hids
  have hst := hg.trans hg'
  refine ⟨found, t, (Query.run_lift_bind hrun).trans hrun', ht, hst, fun hcut => ?_⟩
  obtain ⟨type, hscan, hoffered⟩ := hscan hcut
  have hheld : t.supertypes.slot? current = some (.ready ids) := hg'.lists current ids hslot
  have hd' := (hst.declaredMember_eq hs ht hn symbol).symm.trans hd
  have hnot : ¬t.Offers simple current := by
    rw [offers_iff ht (hc.grow hs.sound hst.toKeeps) hd']
    rintro ⟨m, hmember, hpublic⟩
    exact hpublic (hpassed m hmember)
  have hpasses : ¬¬t.Passes simple current := not_not_intro ⟨⟨ids, hheld⟩, hnot⟩
  exact ⟨type, .onwards hnew hpasses ((storedSupertypes_eq hheld).symm ▸ hscan), hoffered⟩

end Session.Scans

/-- **The search is the breadth-first search** of the lists that are held in the end. -/
theorem searchMember_scans (hp : w.provider.Honest) {fuel : Nat} {visited queue : List ElementId}
    {seen symbols : List Symbol} (hs : s.Resolved w) (hm : s.Makes [] [])
    (hn : s.names.Proper simple) (hv : s.ShowsAll visited seen) (hq : s.ShowsAll queue symbols)
    (hnodup : seen.Nodup) (hfuel : w.index.size + w.provider.extent < fuel + seen.length) :
    s.Scans w simple (searchMember directSupertypes simple fuel visited queue) visited queue := by
  induction fuel generalizing s visited queue seen symbols with
  | zero =>
    have hlong : w.index.size + w.provider.extent < seen.length := by omega
    have hcalm : (w.stage 0).Calm := fun _ hmem => nomatch hmem
    obtain ⟨_, t, hrun, ht, hg, -⟩ := noteCutOff_obeys (g := w.stage 0)
      (fun hs => hv.not_counted hs hnodup hlong) hm (.inr hcalm) hs
    cases hrun
    exact ⟨none, _, rfl, ht, hg, nofun⟩
  | succ fuel ih =>
    rw [searchMember]
    refine .of_dropWhile ?_
    have hdrop := hv.dropWhile hs.sound hq
    have hfirst := List.head?_dropWhile_not seen.contains symbols
    generalize queue.dropWhile visited.contains = front at hdrop
    generalize symbols.dropWhile seen.contains = symbols' at hdrop hfirst
    cases hdrop with
    | nil => exact ⟨none, s, rfl, hs, .refl s, fun _ => ⟨none, .exhausted, trivial⟩⟩
    | @cons current symbol rest symbols' hc hrest =>
      have hnew : symbol ∉ seen := by simpa using hfirst
      have hnew' : current ∉ visited := by
        have hcontains := hv.contains_eq hs.sound hc
        simpa [hnew] using hcontains
      obtain ⟨found, member, t, hrun, ht, hg, hd, hfound⟩ :=
        run_declaredMemberType hp hs hm hn hc
      refine .after hrun hg ?_
      have hc' := hc.grow hs.sound hg.toKeeps
      have hm' := hm.grow hs.sound hg
      have hn' := hn.le hg.names
      -- a type is passed if its member type is private, or it has none
      have hnext : (∀ m, member = some m → .privateAccess ∈ w.modifiersOf m) →
          t.Scans w simple (liftM (directSupertypes current) >>= fun ids =>
              searchMember directSupertypes simple fuel (current :: visited) (rest ++ ids))
            visited (current :: rest) := by
        refine fun hpassed => .onwards ht hm' hn' hc' hd hpassed hnew' fun ids symbols u hu hg' hids => ?_
        have hgu := hg.trans hg'
        exact ih hu (hm.grow hs.sound hgu) (hn.le hgu.names)
          (.cons (hc.grow hs.sound hgu.toKeeps) (hv.grow hs.sound hgu.toKeeps))
          ((Session.ShowsAll.grow hs.sound hrest hgu.toKeeps).append hids)
          (List.nodup_cons.2 ⟨hnew, hnodup⟩) (by rw [List.length_cons]; omega)
      cases found with
      | none =>
        cases member with
        | none => exact hnext nofun
        | some => cases hfound
      | some id =>
        cases member with
        | none => cases hfound
        | some m =>
          obtain ⟨e, he, hmod⟩ := reads_modifiers (g := w.stage 0) ht hfound
          refine .reads (reads_elementAt he) ?_
          rw [Element.hasModifier, hmod]
          split
          · rename_i hprivate
            refine hnext fun m' hmember => ?_
            cases hmember
            exact List.contains_iff_mem.1 hprivate
          · rename_i hpublic
            have hpublic' : .privateAccess ∉ w.modifiersOf m := fun hmem =>
              hpublic (List.contains_iff_mem.2 hmem)
            refine ⟨some id, t, rfl, ht, .refl t, fun _ => ⟨some current, .found hnew' ?_, ?_⟩⟩
            · exact fun hpass => hpass.2 ((Session.offers_iff ht hc' hd).2 ⟨m, rfl, hpublic'⟩)
            · refine ⟨symbol, m, hc', hd, ?_, hfound⟩
              rwa [ht.of.world_modifiersOf ht.world]

/-- **The search for inherited members.** -/
theorem inheritedMemberType_scans (hp : w.provider.Honest) (hs : s.Resolved w) (hm : s.Makes [] [])
    (hn : s.names.Proper simple) (ho : s.ShowsType symbol id) :
    ∃ found t, (inheritedMemberType directSupertypes id simple).run.run.run s =
        (.ok (.ok found), t) ∧ t.Resolved w ∧ s.Resolves t ∧
      (∃ ids, t.supertypes.slot? id = some (.ready ids)) ∧
      (t.cutOff = false → ∃ type,
        BreadthFirst.Scan t.storedSupertypes (fun id => ¬t.Passes simple id) [id]
          (t.storedSupertypes id) type ∧ offered simple found type t) := by
  obtain ⟨ids, symbols, u, hrun, hu, hg, hslot, hids⟩ := run_directSupertypes hs hm ho
  have hbound : u.typeBound = w.index.size + w.provider.extent + 1 := by
    rw [Session.typeBound, hu.of.index, hu.of.provider]
  have hsearch : u.Scans w simple
      (searchMember directSupertypes simple u.typeBound [id] ids) [id] ids := by
    rw [hbound]
    exact searchMember_scans hp hu (hm.grow hs.sound hg) (hn.le hg.names)
      (.cons (ho.grow hs.sound hg.toKeeps) .nil) hids
      (List.nodup_cons.2 ⟨List.not_mem_nil, .nil⟩) (by rw [List.length_singleton]; omega)
  obtain ⟨found, t, hrun', ht, hg', hscan⟩ := hsearch
  have hheld : t.supertypes.slot? id = some (.ready ids) := hg'.lists id ids hslot
  refine ⟨found, t, (Query.run_lift_bind hrun).trans hrun', ht, hg.trans hg', ⟨ids, hheld⟩,
    fun hcut => ?_⟩
  rw [Session.storedSupertypes_eq hheld]
  exact hscan hcut

/-! ### What a session answers -/

namespace Client

open BreadthFirst (level IsFirst)

variable (token : SessionToken) (files : Batch) (provider : Provider) (config : ModelConfig)
variable {table : NameTable} (htable : (parseBatch files).2.1.Le table)

include htable

/-- **Inherited member types are searched breadth first.** After any questions, the search for an
    inherited member type of any type gives an answer, and is not cut off if the provider knows
    finitely many names. By the lists that the session then holds, the answer is a member type exactly
    if a supertype at any distance, other than the type itself, declares one that is not private. It is
    the member type of the first such supertype: all that come before it are passed. If there is none,
    the session holds the lists of all supertypes. -/
theorem inherited_member_first (honest : provider.Honest) (questions : List Question)
    (owner : ElementId) (simple : Name) :
    let s : Session := ((startWith token files provider config table).askAll questions).session
    (∃ e, s.elements.get? owner = some e ∧ e.kind.isType = true) → s.names.Proper simple →
      ∃ found t, (inheritedMemberType directSupertypes owner simple).run.run.run s =
          (.ok (.ok found), t) ∧
        (provider.Counted → t.cutOff = false) ∧
        (t.cutOff = false →
          (found.isSome ↔ ∃ n, ∃ x ∈ level t.storedSupertypes owner (n + 1),
            x ≠ owner ∧ t.Offers simple x) ∧
          (∀ member, found = some member →
            ∃ x, IsFirst t.storedSupertypes (fun id => ¬t.Passes simple id) owner x ∧
              t.OffersMember simple x member) ∧
          (found = none → ∀ n, ∀ x ∈ level t.storedSupertypes owner n,
            ∃ ids, t.supertypes.slot? x = some (.ready ids))) := by
  rintro s ⟨e, he, htype⟩ hname
  obtain ⟨hfits, hlearns⟩ :=
    fits_askAll (fits_startWith token files provider config htable) questions
  have hs : s.Resolved _ := hfits.idle.resolved
  obtain ⟨symbol, hshow⟩ := hs.sound.exists_shows he
  have howner : s.ShowsType symbol owner := ⟨hshow, hshow.isType hs he htype⟩
  obtain ⟨found, t, hrun, -, hg, hheld, hscan⟩ :=
    inheritedMemberType_scans honest hs hfits.idle.making hname howner
  refine ⟨found, t, hrun, fun counted => (hlearns.toKeeps.trans hg.toKeeps).cutOff counted,
    fun hcut => ?_⟩
  obtain ⟨type, hscan, hoffered⟩ := hscan hcut
  -- The search has nothing to find, or stops at the first supertype that offers the name.
  match found, type, hoffered with
  | none, none, _ =>
    have hall : ∀ n, ∀ x ∈ level t.storedSupertypes owner n, x = owner ∨ t.Passes simple x :=
      fun n x hx => (hscan.nothing n x hx).imp_right not_not.1
    refine ⟨⟨nofun, fun ⟨n, x, hx, hne, hgood⟩ => ?_⟩, nofun, fun _ n x hx => ?_⟩
    · exact (((hall (n + 1) x hx).resolve_left hne).2 hgood).elim
    · rcases hall n x hx with rfl | hpasses
      · exact hheld
      · exact hpasses.1
  | some member, some x, hmember =>
    have hoffers : t.Offers simple x := hmember.offers
    obtain ⟨hne, -, n, before, after, hlevel, -, -⟩ := hscan.isFirst
    refine ⟨iff_of_true rfl ⟨n, x, ?_, hne, hoffers⟩, fun member' h => ?_, nofun⟩
    · rw [hlevel]
      exact List.mem_append_right _ List.mem_cons_self
    · cases h
      exact ⟨x, hscan.isFirst, hmember⟩

omit htable in
/-- A search through classes that extend each other, with a private member type on the way: `A` inherits
    the `M` of `K`, at distance two, past the private one of `B`. -/
theorem inherited_member_first_past_private :
    let files : Batch := #[⟨"A.java", "package p; class A extends B implements I {} " ++
      "class B extends A { private class M {} } interface I extends K {} interface K { class M {} }"⟩]
    let table := (parseBatch files).2.1
    let s := ((startWith 0 files onlyObject {} table).askAll [.lookupType "p.A"]).session
    let simple := (table.intern "M").1
    onlyObject.Honest ∧ (∃ e, s.elements.get? 1 = some e ∧ e.kind.isType = true) ∧
      s.names.Proper simple ∧
      ∃ member t x e outer o, (inheritedMemberType directSupertypes 1 simple).run.run.run s =
          (.ok (.ok (some member)), t) ∧ t.elements.get? member = some e ∧
        e.enclosing = some outer ∧ t.elements.get? outer = some o ∧
        t.names.text o.simpleName = "K" ∧
        IsFirst t.storedSupertypes (fun id => ¬t.Passes simple id) 1 x ∧
        t.OffersMember simple x member := by
  intro files table
  -- the state after the question stays closed to everything but the three evaluations
  obtain ⟨s, hs⟩ : ∃ s, s = ((startWith 0 files onlyObject {} table).askAll
    [.lookupType "p.A"]).session := ⟨_, rfl⟩
  have hle : (parseBatch files).2.1.Le table := .refl _
  have hsearch := inherited_member_first 0 files onlyObject {} hle onlyObject_honest
    [.lookupType "p.A"] 1 (table.intern "M").1
  rw [← hs] at hsearch ⊢
  have htype : (s.elements.get? 1).any (fun e => e.kind.isType) := by
    rw [hs]
    decide +kernel
  have hname : s.names.Proper (table.intern "M").1 := by
    rw [hs]
    refine ⟨⟨"M", ?_⟩, ?_⟩ <;> decide +kernel
  have hanswer : ∀ r, (inheritedMemberType directSupertypes 1 (table.intern "M").1).run.run.run s = r →
      (r.1.toOption.bind fun found => found.toOption.join).any (fun member =>
        (r.2.elements.get? member).any fun e => e.enclosing.any fun outer =>
          (r.2.elements.get? outer).any fun o => r.2.names.text o.simpleName = "K") = true := by
    rw [hs]
    rintro _ rfl
    decide +kernel
  have howner := (Option.any_eq_true _ _).1 htype
  obtain ⟨found, t, hrun, hcut, hfound⟩ := hsearch howner hname
  have hfits := hanswer _ hrun
  cases found with
  | none => cases hfits
  | some member =>
    have hmember : (t.elements.get? member).any (fun e => e.enclosing.any fun outer =>
        (t.elements.get? outer).any fun o => t.names.text o.simpleName = "K") = true := hfits
    obtain ⟨e, he, henclosed⟩ := (Option.any_eq_true _ _).1 hmember
    obtain ⟨outer, houter, hget⟩ := (Option.any_eq_true _ _).1 henclosed
    obtain ⟨o, ho, htext⟩ := (Option.any_eq_true _ _).1 hget
    obtain ⟨x, hfirst, hoffers⟩ := (hfound (hcut onlyObject_counted)).2.1 member rfl
    exact ⟨onlyObject_honest, howner, hname, member, t, x, e, outer, o, hrun, he, houter, ho,
      of_decide_eq_true htext, hfirst, hoffers⟩

end Client

end JavaAbi
