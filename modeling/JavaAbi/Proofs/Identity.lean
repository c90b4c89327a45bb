import JavaAbi.Proofs.Clients

namespace JavaAbi

/-!
# One element for each symbol

Whatever a client has asked, the elements of its session and the keys that were made successfully
correspond one to one, and the type of a canonical name is the same however it was reached. Whether a
name has a type does not depend on what was asked before.

* `Client.canonical_identity` — keys and elements correspond;
* `Client.lookup_outcome` — the outcome of a look-up is that of the rule.
-/

open Course Stage

variable {w : World} {s : Session}

/-! ### Elements of keys -/

namespace Session

/-- The element of the key of a type is a type of that name. -/
theorem Sound.type_element (hs : s.Sound) {n : Name} {id : ElementId}
    (hd : s.Denotes (.type n) id) :
    ∃ e, s.elements.get? id = some e ∧ e.kind.isType = true ∧ e.qualifiedName = .named n := by
  obtain ⟨e, he, hdesc, -⟩ := hs.element _ id hd
  refine ⟨e, he, ?_⟩
  suffices h : e.bare.kind.isType = true ∧ e.bare.qualifiedName = .named n from h
  generalize e.bare = b at hdesc
  generalize hk : ElementKey.type n = key at hdesc
  cases hdesc with
  | @tree d i tree enc =>
    refine ⟨by show (ElementKind.ofDecl tree.head.kind).isType = true; cases tree.head.kind <;> rfl, ?_⟩
    show i.qualifiedName = .named n
    rw [DeclInfo.key] at hk
    cases hq : i.qualifiedName with
    | named m =>
      rw [hq] at hk
      cases hk
      rfl
    | _ => rw [hq] at hk; cases hk
  | @described m simple d =>
    cases hk
    exact ⟨by show (ElementKind.ofDecl d.kind).isType = true; cases d.kind <;> rfl, rfl⟩
  | _ => cases hk

/-- The element of the key of a package is the package of that name. -/
theorem Sound.package_element (hs : s.Sound) {n : Name} {id : ElementId}
    (hd : s.Denotes (.package n) id) :
    ∃ e, s.elements.get? id = some e ∧ e.kind = .package ∧ e.qualifiedName = .named n := by
  obtain ⟨e, he, hdesc, -⟩ := hs.element _ id hd
  obtain ⟨simple, -, hbare⟩ := hdesc.package_inv
  refine ⟨e, he, ?_⟩
  have hb : e.bare.kind = .package ∧ e.bare.qualifiedName = .named n := by
    rw [hbare]
    exact ⟨rfl, rfl⟩
  exact hb

/-- A type with a canonical name is the element of the key of that name. -/
theorem Sound.denotes_of_type (hs : s.Sound) {id : ElementId} {e : Element} {n : Name}
    (he : s.elements.get? id = some e) (hk : e.kind.isType = true)
    (hq : e.qualifiedName = .named n) : s.Denotes (.type n) id := by
  obtain ⟨key, hd⟩ := hs.covered id (Array.getElem?_eq_some_iff.1 he).1
  obtain ⟨e', he', hdesc, -⟩ := hs.element key id hd
  cases he.symm.trans he'
  replace hk : e.bare.kind.isType = true := hk
  replace hq : e.bare.qualifiedName = .named n := hq
  generalize e.bare = b at hdesc hk hq
  cases hdesc with
  | @tree d i =>
    have hi : i.qualifiedName = .named n := hq
    rw [DeclInfo.key, hi] at hd
    exact hd
  | described =>
    cases hq
    exact hd
  | package => cases hk
  | field => cases hk
  | constant => cases hk

end Session

/-! ### Look-ups of clients -/

namespace Client

variable {c : Client}

/-- The reply to the look-up of a name is the outcome of the name. -/
theorem ask_lookupType (h : c.Fits w) {name : String} (hname : name ≠ "") :
    match w.lookup name with
    | .ok _ => ∃ id, (c.ask (.lookupType name)).1 = .elements [id] ∧
        (c.ask (.lookupType name)).2.session.ShowsType (.type name) id
    | .error e => (c.ask (.lookupType name)).1 = .unanswered e := by
  obtain ⟨_, t, hrun, ht, hg, r, rfl, y, hy, hset⟩ := lookupType_honours hname h.idle
  -- The rule of a look-up asks for nothing, so it is settled.
  have hr : y = w.lookup name := (hset.settled _ ⟨0, rfl⟩).symm
  subst hr
  have hask : c.ask (.lookupType name) = (replyOf (.ok (r.map fun id => .elements [id])),
      ⟨t, c.types ++ (replyOf (.ok (r.map fun id => .elements [id]))).received⟩) := by
    have hquery : ((Question.lookupType name).query c.types).run.run.run c.session =
        (.ok (r.map fun id => .elements [id]), t) := by
      have hrun' : (JavaAbi.lookupType name).run.run.run c.session = (.ok r, t) := hrun
      show (JavaAbi.lookupType name >>= fun id => pure (Reply.elements [id])).run.run.run _ = _
      rw [Query.run_bind hrun']
      cases r <;> rfl
    unfold ask
    rw [hquery]
  rw [hask]
  cases hl : w.lookup name with
  | ok symbol =>
    rw [hl] at hy
    match r, hy with
    | .ok id, hy =>
      have hsymbol : symbol = .type name := by
        rw [World.lookup] at hl
        cases hout : lookupOutcome (fun n => (w.find? n).isSome) w.provider name with
        | ok u => rw [hout] at hl; cases hl; rfl
        | error e => rw [hout] at hl; cases hl
      exact ⟨id, rfl, hsymbol ▸ hy⟩
  | error e =>
    rw [hl] at hy
    match r, hy with
    | .error _, ⟨rfl, _⟩ => rfl

section Asked

variable (token : SessionToken) (files : Batch) (provider : Provider) (config : ModelConfig)
  (questions : List Question)

/-- **Keys and elements correspond**, whatever was asked. Each element is that of one key, which says
    what it is; it is younger than what encloses it; and the type of a canonical name is the one that
    a look-up gives. The provider is asked at most once for a name, so it does not matter whether its
    answers change. -/
theorem canonical_identity :
    let c : Client := (start token files provider config).askAll questions
    let s : Session := c.session
    (∀ key id, s.Denotes key id → id < s.elements.size) ∧
    (∀ id < s.elements.size, ∃! key, s.Denotes key id) ∧
    (∀ n id, s.Denotes (.type n) id →
      ∃ e, s.elements.get? id = some e ∧ e.kind.isType = true ∧ e.qualifiedName = .named n) ∧
    (∀ n id, s.Denotes (.package n) id →
      ∃ e, s.elements.get? id = some e ∧ e.kind = .package ∧ e.qualifiedName = .named n) ∧
    (∀ id e, s.elements.get? id = some e → ∀ outer ∈ e.enclosing, outer < id) ∧
    (∀ id e n, s.elements.get? id = some e → e.kind.isType = true → e.qualifiedName = .named n →
      n ≠ .empty → (c.ask (.lookupType (s.names.text n))).1 = .elements [id]) ∧
    s.asked.Nodup := by
  intro c s
  have hfits : c.Fits _ := fits_asked token files provider config questions
  have hs : s.Sound := hfits.idle.resolved.sound
  refine ⟨fun key id hd => hs.lt_size hd, fun id hid => ?_, fun n id => hs.type_element,
    fun n id => hs.package_element, fun id e he outer houter => ?_, fun id e n he hk hq hn => ?_,
    hs.asked_nodup⟩
  · obtain ⟨key, hd⟩ := hs.covered id hid
    exact ⟨key, hd, fun key' hd' => hs.unique key' key id hd' hd⟩
  · obtain ⟨key, hd⟩ := hs.covered id (Array.getElem?_eq_some_iff.1 he).1
    obtain ⟨e', he', -, hold⟩ := hs.element key id hd
    cases he.symm.trans he'
    exact hold outer houter
  · have hd := hs.denotes_of_type he hk hq
    have hissued : s.names.Issued n := hs.askable _ _ hd
    have hlookup := hfits.idle.resolved.of.lookup hfits.idle.resolved.world n
    rw [← hs.outcome _ _ hd] at hlookup
    -- The element has the outcome of its name, which is also what the look-up gives.
    have hask := ask_lookupType hfits (NameTable.text_ne_empty hissued hn)
    rw [hlookup] at hask
    obtain ⟨id', hreply, hshow⟩ := hask
    have hg := (fits_ask hfits (.lookupType (s.names.text n))).2
    have hold : s.Shows (.type (s.names.text n)) id := ⟨_, hd, rfl⟩
    have ht := (fits_ask hfits (.lookupType (s.names.text n))).1.idle.resolved.sound
    rw [hreply, (hold.grow hs hg.toKeeps).functional ht hshow.shows]

/-- **Look-ups do not depend on what was asked.** After any questions, the look-up of a name has the
    outcome of the rule, for the names that the index of the batch declares; and no question is
    answered by saying that a construction depends on itself. -/
theorem lookup_outcome {name : String} (hname : name ≠ "") :
    let first := start token files provider config
    let c := first.askAll questions
    (match lookupOutcome first.session.declares provider name with
      | .ok () => ∃ id e n, (c.ask (.lookupType name)).1 = .elements [id] ∧
          (c.ask (.lookupType name)).2.session.elements.get? id = some e ∧
          e.kind.isType = true ∧ e.qualifiedName = .named n ∧
          (c.ask (.lookupType name)).2.session.names.text n = name
      | .error e => (c.ask (.lookupType name)).1 = .unanswered e) ∧
    ∀ q key, (c.ask q).1 ≠ .unanswered (.cyclicConstruction key) := by
  intro first c
  have hfits : c.Fits _ := fits_asked token files provider config questions
  refine ⟨?_, fun q key => ?_⟩
  · have hask := ask_lookupType hfits hname
    have hrule : (world token files provider config).lookup name =
      (lookupOutcome first.session.declares provider name).map fun _ => .type name := rfl
    rw [hrule] at hask
    cases hout : lookupOutcome first.session.declares provider name with
    | ok u =>
      rw [hout] at hask
      obtain ⟨id, hreply, hshow⟩ := hask
      have ht := (fits_ask hfits (.lookupType name)).1.idle.resolved
      obtain ⟨⟨key, hd, hkey⟩, -⟩ := hshow
      cases key with
      | type n =>
        obtain ⟨e, he, hk, hq⟩ := ht.sound.type_element hd
        exact ⟨id, e, n, hreply, he, hk, hq, Symbol.type.inj hkey⟩
      | _ => cases hkey
    | error e =>
      rw [hout] at hask
      exact hask
  · -- A question about an element of another session is not answered at all.
    rcases q.known_or_foreign c.session.elements.size with hid | ⟨id, hq, hid⟩
    · intro hreply
      rcases ask_reply hfits hid with hanswer | ⟨e, he, hblame⟩
      · rw [hreply] at hanswer
        exact hanswer
      · cases hreply.symm.trans he
        rcases hblame with (h | ⟨_, _, _, _, h⟩) | ⟨_, _, _, _, h, _⟩ <;> cases h
    · rw [ask_foreign hq hid]
      nofun

end Asked

/-- A provider that knows a member type, and answers for the type around it with one of another
    name. -/
def misnamedOuter : Provider where
  resolve? name :=
    if name = "p.Outer.Inner" then
      some { qualifiedName := "p.Outer.Inner", package := "p", kind := .classType }
    else if name = "p.Outer" then
      some { qualifiedName := "q.Other", package := "q", kind := .classType }
    else none
  extent := 2

/-- The error of the type around a member type is that of the member type, also after its failure has
    been met as that of a superclass. -/
theorem lookup_of_misnamed_outer :
    "p.Outer.Inner" ≠ "" ∧
      (((start 0 #[⟨"A.java", "package p; class A extends Outer.Inner { }"⟩] misnamedOuter {}).askAll
        [.lookupType "p.A", .superclass 0]).ask (.lookupType "p.Outer.Inner")).1 =
          .unanswered (.misnamed "p.Outer" "q.Other") := by
  have hname : "p.Outer.Inner" ≠ "" := by decide
  obtain ⟨h, -⟩ := lookup_outcome 0 #[⟨"A.java", "package p; class A extends Outer.Inner { }"⟩]
    misnamedOuter {} [.lookupType "p.A", .superclass 0] hname
  have hrule : lookupOutcome
      (start 0 #[⟨"A.java", "package p; class A extends Outer.Inner { }"⟩]
        misnamedOuter {}).session.declares misnamedOuter "p.Outer.Inner" =
      .error (.misnamed "p.Outer" "q.Other") := by decide +kernel
  rw [hrule] at h
  exact ⟨hname, h⟩

end Client

end JavaAbi
