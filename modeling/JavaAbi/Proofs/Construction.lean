import JavaAbi.Proofs.Elements

namespace JavaAbi

/-!
# Making elements

Every key that can be asked for is constructed without asking for itself: the constructor of a key
asks only for keys of a lower rank. So the cache ends up with an outcome for the key, and the outcome
is the one of the look-up rule.

* `building` — the course of making elements;
* `Session.rank` — the rank of a key;
* `Serves` — what is relied on of the function that makes the elements needed on the way;
* `build_answers` — the element of a key, under that assumption;
* `canonicalWithin_serves`, `canonical_answers` — the assumption holds.
-/

open Course

variable {s t : Session} {key : ElementKey}

/-- The course of making elements. -/
def building : Course Session where
  Sound := Session.Sound
  Grows := Session.Builds
  refl := .refl
  trans := .trans

/-! ### Reading -/

theorem reads_nameText {n : Name} (h : s.names.Issued n) :
    Reads s (nameText n) (s.names.text n) := by
  refine .get ?_
  rw [h.resolve?]
  exact .pure s _

theorem reads_elementAt {id : ElementId} {e : Element} (h : s.elements.get? id = some e) :
    Reads s (elementAt id) e := by
  refine .get ?_
  rw [h]
  exact .pure s _

theorem reads_declAt {d : DeclId} {i : DeclInfo} (h : s.index.get? d = some i) :
    Reads s (declAt d) i := by
  refine .get ?_
  rw [h]
  exact .pure s _

theorem reads_keyOf {d : DeclId} {i : DeclInfo} (h : s.index.get? d = some i) :
    Reads s (keyOf d) (s.index.keyOf d) := by
  rw [DeclIndex.keyOf_eq h]
  exact (reads_declAt h).bind (.pure s _)

theorem reads_describeKey (h : s.Askable key) : ∃ text, Reads s (describeKey key) text := by
  cases key with
  | package n => exact ⟨_, (reads_nameText h.1).bind (.pure s _)⟩
  | type n => exact ⟨_, (reads_nameText h).bind (.pure s _)⟩
  | unnamed d => exact ⟨_, .pure s _⟩
  | field d m v => exact ⟨_, .pure s _⟩
  | constant d m => exact ⟨_, .pure s _⟩

theorem reads_memberKeys (h : s.Sound) (d : DeclId) (k : Nat) (m : Member) :
    Reads s (memberKeys d k m) (s.index.memberKeys d k m) := by
  cases m with
  | type t =>
    refine .get ?_
    rw [DeclIndex.memberKeys]
    cases hc : s.index.child? d k with
    | none => exact .pure s _
    | some c =>
      obtain ⟨i, hi, -⟩ := h.index.children d k c hc
      obtain ⟨j, hj⟩ := DeclIndex.info_of_known? (Option.isSome_iff_exists.2 ⟨i, hi⟩)
      exact (reads_keyOf hj).bind (.pure s _)
  | field f => exact .pure s _
  | constant n body sp => exact .pure s _

theorem reads_allMemberKeys (h : s.Sound) (d : DeclId) (k : Nat) (ms : List Member) :
    Reads s (allMemberKeys d k ms) (s.index.allMemberKeys d k ms) := by
  induction ms generalizing k with
  | nil => exact .pure s _
  | cons m rest ih =>
    exact (reads_memberKeys h d k m).bind ((ih (k + 1)).bind (.pure s _))

/-! ### Names and events -/

/-- **What the invariant rests on.** It survives every change that keeps elements, apart from their
    answers, and outcomes, and after which what is said of keys and of the provider still holds. -/
theorem Session.Sound.carry (h : s.Sound) (hk : s.Keeps t)
    (he : ∀ id, (t.elements.get? id).map Element.bare = (s.elements.get? id).map Element.bare)
    (hready : ∀ k r, t.cache.slot? k = some (.ready r) → s.cache.slot? k = some (.ready r))
    (haskable : ∀ k x, t.cache.slot? k = some x → s.Askable k)
    (hkept : ∀ k, t.cache.slot? k ≠ some .vacant) (hnd : t.asked.Nodup)
    (hknown : ∀ name ∈ t.asked, ∃ n, t.names.resolve? n = some name ∧ t.index.find? n = none ∧
      (t.cache.slot? (.type n)).isSome) : t.Sound where
  index := by
    rw [hk.index, hk.units]
    exact h.index.le hk.names
  wellKnown := by
    rw [hk.wellKnown]
    exact
      { rootObject := h.wellKnown.rootObject.le hk.names
        enumBase := h.wellKnown.enumBase.le hk.names
        recordBase := h.wellKnown.recordBase.le hk.names
        annotationBase := h.wellKnown.annotationBase.le hk.names
        implicitImports := fun n hn => (h.wellKnown.implicitImports n hn).le hk.names }
  askable k x hx := (haskable k x hx).grow hk
  outcome k r hr := by
    rw [Session.outcomeOf_grow h.index (haskable k _ hr) hk]
    exact h.outcome k r (hready k r hr)
  element k id hd := by
    obtain ⟨e, hs, hdesc, henc⟩ := h.element k id (hready k _ hd)
    have het := he id
    rw [hs] at het
    obtain ⟨e', ht, hb⟩ := Option.map_eq_some_iff.1 het
    refine ⟨e', ht, ?_, ?_⟩
    · rw [hb]
      exact hdesc.grow h.index hk
    · -- What is around an element is no answer that it keeps.
      have hbare : e'.bare.enclosing = e.bare.enclosing := by rw [hb]
      have henc' : e'.enclosing = e.enclosing := hbare
      rw [henc']
      exact henc
  unique k k' id hd hd' := h.unique k k' id (hready k _ hd) (hready k' _ hd')
  covered id hid := by
    have het := he id
    have hget : t.elements.get? id = some _ := Array.getElem?_eq_getElem hid
    rw [hget] at het
    obtain ⟨e, hs, -⟩ := Option.map_eq_some_iff.1 het.symm
    -- The element was there before, so a key leads to it.
    obtain ⟨k, hd⟩ := h.covered id (Array.getElem?_eq_some_iff.1 hs).1
    exact ⟨k, hd.grow hk⟩
  kept := hkept
  asked_nodup := hnd
  asked_known := hknown

/-- The same for a change that leaves the cache and the events alone. -/
theorem Session.Sound.carry_cache (h : s.Sound) (hk : s.Keeps t)
    (he : ∀ id, (t.elements.get? id).map Element.bare = (s.elements.get? id).map Element.bare)
    (hc : t.cache = s.cache) (hv : t.events = s.events) : t.Sound := by
  have ha : t.asked = s.asked := by rw [Session.asked, Session.asked, hv]
  refine h.carry hk he (fun k r hr => hc ▸ hr) (fun k x hx => h.askable k x (hc ▸ hx)) ?_ ?_ ?_
  · rw [hc]
    exact h.kept
  · rw [ha]
    exact h.asked_nodup
  · intro name hname
    obtain ⟨n, hn, hf, hs⟩ := h.asked_known name (ha ▸ hname)
    exact ⟨n, hk.names n name hn, hk.index ▸ hf, hc ▸ hs⟩

theorem internName_ends (text : String) :
    building.Ends s (internName text) fun n t => t.names.resolve? n = some text := by
  have hle := s.names.le_intern text
  refine .step (fun h => h.carry_cache ⟨rfl, hle, fun _ _ h => h, fun _ => rfl⟩
    (fun _ => rfl) rfl rfl) (fun _ => ?_) fun _ => s.names.resolve?_intern text
  exact { Session.Builds.refl s with names := hle }

theorem internNames_ends (texts : List String) :
    building.Ends s (internNames texts) fun ns t =>
      List.Forall₂ (fun n text => t.names.resolve? n = some text) ns texts := by
  induction texts generalizing s with
  | nil => exact .pure fun _ => .nil
  | cons text rest ih =>
    refine (internName_ends text).bind fun n t _ _ hn => ih.bind fun ns u _ hg hns => .pure fun _ => ?_
    exact .cons (hg.names n text hn) hns

/-- Names that the provider was asked for, after an event. -/
theorem Session.asked_push (s : Session) (e : SessionEvent) :
    Session.asked { s with events := s.events.push e } = s.asked ++ (match e with
      | .forwarded name => [name]
      | _ => []) := by
  rw [asked, asked, Array.toList_push, List.filterMap_append]
  cases e <;> rfl

/-- The invariant with other events, of which only the names that were asked for matter. -/
theorem Session.Sound.of_events (h : s.Sound) {events : Array SessionEvent}
    (hnd : (Session.asked { s with events }).Nodup)
    (hk : ∀ name ∈ Session.asked { s with events }, ∃ n, s.names.resolve? n = some name ∧
      s.index.find? n = none ∧ (s.cache.slot? (.type n)).isSome) :
    Session.Sound { s with events } :=
  h.carry ⟨rfl, .refl _, fun _ _ h => h, fun _ => rfl⟩ (fun _ => rfl) (fun _ _ h => h) h.askable h.kept hnd hk

theorem Session.builds_events (s : Session) (events : Array SessionEvent) :
    s.Builds { s with events } :=
  { Session.Builds.refl s with names := .refl _ }

theorem note_ends {e : SessionEvent} (he : ∀ name, e ≠ .forwarded name) :
    building.Ends s (note e) fun _ t => t.asked = s.asked := by
  have ha : Session.asked { s with events := s.events.push e } = s.asked := by
    rw [Session.asked_push]
    cases e with
    | forwarded name => exact absurd rfl (he name)
    | _ => exact List.append_nil _
  refine .step (fun h => h.of_events ?_ ?_) (fun _ => s.builds_events _) fun _ => ha
  · rw [ha]
    exact h.asked_nodup
  · rw [ha]
    exact h.asked_known

/-- The provider is asked for a name that it was not asked for. -/
theorem note_forwarded_ends {n : Name} (hn : s.names.Issued n) (hf : s.index.find? n = none)
    (hs : (s.cache.slot? (.type n)).isSome) (hnew : s.names.text n ∉ s.asked) :
    building.Ends s (note (.forwarded (s.names.text n))) fun _ _ => True := by
  have ha := s.asked_push (.forwarded (s.names.text n))
  refine .step (fun h => h.of_events ?_ ?_) (fun _ => s.builds_events _) fun _ => trivial
  · rw [ha]
    refine List.nodup_append.2 ⟨h.asked_nodup, by simp, fun a ha b hb => ?_⟩
    rintro rfl
    rw [List.mem_singleton.1 hb] at ha
    exact hnew ha
  · rw [ha]
    intro name hname
    rcases List.mem_append.1 hname with hname | hname
    · exact h.asked_known name hname
    · rw [List.mem_singleton.1 hname]
      exact ⟨n, hn.resolve?, hf, hs⟩

/-! ### Ranks -/

namespace Session

/-- The rank of a key: declarations by their numbers, each below its members, then the names that the
    batch does not declare by their lengths. -/
def rank (s : Session) : ElementKey → Nat
  | .package _ => 0
  | .type n =>
    match s.index.find? n with
    | some d => 2 * d + 1
    | none => 2 * s.index.size + 1 + (s.names.text n).length
  | .unnamed d => 2 * d + 1
  | .field d _ _ => 2 * d + 2
  | .constant d _ => 2 * d + 2

/-- All keys under construction have a rank of at least `r`. -/
def Above (s : Session) (r : Nat) : Prop :=
  ∀ key, s.cache.slot? key = some .building → r ≤ s.rank key

theorem rank_grow (ha : s.Askable key) (h : s.Keeps t) : t.rank key = s.rank key := by
  cases key with
  | type n => rw [rank, rank, h.index, NameTable.text_le ha h.names]
  | _ => rfl

theorem Above.grow {r : Nat} (ha : s.Above r) (hs : s.Sound) (h : s.Builds t) : t.Above r := by
  intro key hk
  have hk' := (h.building key).1 hk
  rw [rank_grow (hs.askable key _ hk') h.toKeeps]
  exact ha key hk'

/-- A declaration with an element of its own has the rank of its number. -/
theorem rank_keyOf {d : DeclId} (h : s.index.Primary d) : s.rank (s.index.keyOf d) = 2 * d + 1 := by
  cases h with
  | named hi hn hf => rw [DeclIndex.keyOf_eq hi, DeclInfo.key, hn, rank, hf]
  | nameless hi hn _ => rw [DeclIndex.keyOf_eq hi, DeclInfo.key, hn, rank]

theorem askable_keyOf (hs : s.Sound) {d : DeclId} (h : s.index.Primary d) :
    s.Askable (s.index.keyOf d) := by
  cases h with
  | named hi hn hf =>
    rw [DeclIndex.keyOf_eq hi, DeclInfo.key, hn]
    exact hs.index.issued_of_find? hf
  | nameless hi hn hp =>
    have hk : s.index.keyOf d = .unnamed d := by rw [DeclIndex.keyOf_eq hi, DeclInfo.key, hn]
    rw [hk]
    exact ⟨.nameless hi hn hp, hk⟩

theorem outcomeOf_keyOf (hs : s.Sound) {d : DeclId} (h : s.index.Primary d) :
    s.outcomeOf (s.index.keyOf d) = .ok () := by
  cases h with
  | named hi hn hf =>
    rw [DeclIndex.keyOf_eq hi, DeclInfo.key, hn]
    refine lookupOutcome_declared ?_
    rw [declares_of_resolve? (hs.index.issued_of_find? hf).resolve?, hf]
    rfl
  | nameless hi hn _ =>
    rw [DeclIndex.keyOf_eq hi, DeclInfo.key, hn]
    rfl

/-- The key of a declaration at the top, or in one with an element of its own, has an element. -/
theorem askable_child (hs : s.Sound) {parent : Option DeclId} {c : DeclId}
    (hp : ∀ p ∈ parent, s.index.Primary p)
    (hc : ChildOf s.index.known? s.index.find? parent c) :
    s.Askable (s.index.keyOf c) ∧ s.outcomeOf (s.index.keyOf c) = .ok () := by
  rcases DeclIndex.childOf_cases hp hc with ⟨n, hn, hf⟩ | ⟨hprimary, -⟩
  · obtain ⟨first, hf⟩ := Option.isSome_iff_exists.1 hf
    obtain ⟨hprimary, hkey, -⟩ := hs.index.primary_of_find? hf
    rw [hn, ← hkey]
    exact ⟨askable_keyOf hs hprimary, outcomeOf_keyOf hs hprimary⟩
  · exact ⟨askable_keyOf hs hprimary, outcomeOf_keyOf hs hprimary⟩

/-- The keys of members of a declaration with an element have elements. -/
theorem askable_memberKeys (hs : s.Sound) {d : DeclId} {k : Nat} {m : Member}
    (hd : s.index.Primary d) (hm : s.member? d k = some m) :
    ∀ key ∈ s.index.memberKeys d k m, s.Askable key ∧ s.outcomeOf key = .ok () := by
  intro key hkey
  cases m with
  | type t =>
    obtain ⟨c, hc, rfl⟩ := Option.map_eq_some_iff.1 (Option.mem_toList.1 hkey)
    exact askable_child hs (fun _ hq => Option.some.inj hq ▸ hd) (hs.index.children d k c hc)
  | field f =>
    obtain ⟨v, hv, rfl⟩ := List.mem_map.1 hkey
    exact ⟨⟨hd, f, hm, List.mem_range.1 hv⟩, rfl⟩
  | constant n body sp =>
    obtain rfl := List.mem_singleton.1 hkey
    exact ⟨⟨hd, n, body, sp, hm⟩, rfl⟩

theorem askable_allMemberKeys (hs : s.Sound) {d : DeclId} {before ms : List Member}
    {tree : TypeDecl} (hd : s.index.Primary d) (ht : s.index.tree? s.units d = some tree)
    (hms : tree.members = before ++ ms) :
    ∀ key ∈ s.index.allMemberKeys d before.length ms,
      s.Askable key ∧ s.outcomeOf key = .ok () := by
  induction ms generalizing before with
  | nil => exact fun _ hkey => absurd hkey List.not_mem_nil
  | cons m rest ih =>
    have hm : s.member? d before.length = some m := by
      refine member?_eq_some.2 ⟨tree, ht, ?_⟩
      rw [hms, List.getElem?_append_right (Nat.le_refl _), Nat.sub_self]
      rfl
    have hrest := ih (hms.trans (List.append_cons before m rest))
    rw [List.length_append] at hrest
    intro key hkey
    exact (List.mem_append.1 hkey).elim (askable_memberKeys hs hd hm key) (hrest key)

/-- A construction that has to succeed has an element. -/
theorem Sound.denotes {r : Except ModelError ElementId} (hs : s.Sound)
    (hr : s.cache.slot? key = some (.ready r)) (ho : s.outcomeOf key = .ok ()) :
    ∃ id, r = .ok id ∧ s.Denotes key id := by
  have h := hs.outcome key r hr
  rw [ho] at h
  cases r with
  | ok id => exact ⟨id, rfl, hr⟩
  | error e => cases h

theorem Sound.lt_size {id : ElementId} (hs : s.Sound) (hd : s.Denotes key id) :
    id < s.elements.size := by
  obtain ⟨e, he, -⟩ := hs.element key id hd
  exact (Array.getElem?_eq_some_iff.1 he).1

theorem Sound.lt_size_of_encloses {outer : Option ElementKey} {enc : Option ElementId}
    (hs : s.Sound) (h : s.Encloses outer enc) : ∀ id ∈ enc, id < s.elements.size := by
  match outer with
  | none =>
    cases h
    exact fun id hid => nomatch hid
  | some key =>
    obtain ⟨id, rfl, hd⟩ := h
    rintro _ ⟨⟩
    exact hs.lt_size hd

end Session

/-! ### Elements on the way -/

/-- What is relied on of the function that makes the elements that a construction needs: keys of a
    rank below `r` end up with an outcome. -/
def Serves (canonical : ElementKey → Query ElementId) (r : Nat) : Prop :=
  ∀ t key, t.Above r → t.Askable key → t.rank key < r →
    building.Answers t (canonical key) fun x u => u.cache.slot? key = some (.ready x)

section Build

variable {canonical : ElementKey → Query ElementId} {r : Nat}

/-- An element on the way that has to exist. -/
theorem Serves.denotes (hc : Serves canonical r) (hr : s.Above r) (ha : s.Askable key)
    (hlt : s.rank key < r) (ho : s.outcomeOf key = .ok ()) :
    building.Answers s (canonical key) fun x t => ∃ id, x = .ok id ∧ t.Denotes key id := by
  refine .sound fun hs => (hc s key hr ha hlt).mono fun x t ht hg hx => ?_
  refine Session.Sound.denotes ht hx ?_
  rw [Session.outcomeOf_grow hs.index ha hg.toKeeps]
  exact ho

theorem packageElement_answers (hc : Serves canonical r) (hr : s.Above r) (hpos : 0 < r)
    {p : Option Name} (hp : ∀ n ∈ p, s.names.Issued n) :
    building.Answers s (packageElement canonical p) fun x t =>
      ∃ enc, x = .ok enc ∧ t.Encloses (DeclIndex.packageKey? p) enc := by
  unfold packageElement
  split
  · rename_i n
    rw [DeclIndex.packageKey?]
    split
    · exact .pure fun _ => ⟨none, rfl, rfl⟩
    · rename_i hn
      have ha : s.Askable (.package n) := ⟨hp n rfl, hn⟩
      refine (hc.denotes hr ha hpos rfl).bind_ok fun x t _ _ hd => .pure fun _ => ?_
      exact ⟨some x, rfl, x, rfl, hd⟩
  · exact .pure fun _ => ⟨none, rfl, rfl⟩

/-- The package of a file is a name of the session. -/
theorem Session.Sound.package_issued (hs : s.Sound) (unit : Nat) :
    ∀ n ∈ s.index.package? unit, s.names.Issued n := by
  intro n hn
  have hp := List.mem_of_getElem? (Option.join_eq_some_iff.1 hn)
  exact hs.index.packages (some n) hp n rfl

/-- A constant with a body has an element. -/
theorem Session.Sound.constant_askable (hs : s.Sound) {d p : DeclId} {i : DeclInfo} {m : Nat}
    (hd : s.index.Primary d) (hi : s.index.get? d = some i) (hp : i.parent = some p)
    (hm : i.constant = some m) : s.Askable (.constant p m) := by
  obtain ⟨q, j, tree, n, body, sp, hq, hj, htree, hmem⟩ := (hs.index.infos d i hi).constant m hm
  rw [hp] at hq
  cases hq
  obtain ⟨k, hk, -, -, -, hu, hpath⟩ := DeclIndex.known?_eq hj
  refine ⟨hd.parent hs.index hi hp, n, body, sp, Session.member?_eq_some.2 ⟨tree, ?_, hmem⟩⟩
  rw [DeclIndex.tree?, hk, Option.bind_eq_bind, Option.bind_some, hu, hpath]
  exact htree

theorem declEnclosing_answers {d : DeclId} {i : DeclInfo} (hc : Serves canonical (2 * d + 1))
    (hr : s.Above (2 * d + 1)) (hd : s.index.Primary d) (hi : s.index.get? d = some i) :
    building.Answers s (declEnclosing canonical i) fun x t =>
      ∃ enc, x = .ok enc ∧ t.Encloses (t.index.outerKey? i) enc := by
  refine .sound fun hs => ?_
  have hparent : ∀ p ∈ i.parent, p < d := fun p hp => ((hs.index.infos d i hi).parent p hp).1
  suffices h : building.Answers s (declEnclosing canonical i) fun x t =>
      ∃ enc, x = .ok enc ∧ t.Encloses (s.index.outerKey? i) enc from
    h.mono fun x t _ hg ⟨enc, hx, henc⟩ => ⟨enc, hx, by rw [hg.toKeeps.index]; exact henc⟩
  unfold declEnclosing DeclIndex.outerKey?
  cases hp : i.parent with
  | some p =>
    -- A declaration comes after the one around it, so what is asked for has a smaller rank.
    have hlt := Nat.succ_le_of_lt (hparent p hp)
    cases hm : i.constant with
    | some m =>
      have ha := hs.constant_askable hd hi hp hm
      have hrank : s.rank (.constant p m) < 2 * d + 1 := by
        rw [Session.rank]
        omega
      refine (hc.denotes hr ha hrank rfl).bind_ok fun x t _ _ hx => .pure fun _ => ?_
      exact ⟨some x, rfl, x, rfl, hx⟩
    | none =>
      have hpp := hd.parent hs.index hi hp
      obtain ⟨j, hj⟩ := hpp.info
      have hrank : s.rank (s.index.keyOf p) < 2 * d + 1 := by
        rw [Session.rank_keyOf hpp]
        omega
      refine .reads (reads_keyOf hj) ?_
      refine (hc.denotes hr (Session.askable_keyOf hs hpp) hrank
        (Session.outcomeOf_keyOf hs hpp)).bind_ok fun x t _ _ hx => .pure fun _ => ?_
      exact ⟨some x, rfl, x, rfl, hx⟩
  | none =>
    -- What stands at the top belongs to the package of its file.
    refine .read fun _ => ?_
    exact packageElement_answers hc hr (by omega) (hs.package_issued i.unit)

/-- The element of a key has been made, or the key has none, as the look-up rule says. -/
def Built (t : Session) (key : ElementKey) : Except ModelError Element → Prop
  | .ok e => t.Describes key e ∧ e.bare = e ∧ (∀ id ∈ e.enclosing, id < t.elements.size) ∧
      t.outcomeOf key = .ok ()
  | .error err => t.outcomeOf key = .error err

theorem buildTreeType_answers {d : DeclId} (hc : Serves canonical (2 * d + 1))
    (hr : s.Above (2 * d + 1)) (hd : s.index.Primary d) :
    building.Answers s (buildTreeType canonical d) fun x t => Built t (s.index.keyOf d) x := by
  refine .sound fun hs => ?_
  obtain ⟨i, hi⟩ := hd.info
  obtain ⟨tree, htree⟩ := Option.isSome_iff_exists.1 (hs.index.infos d i hi).tree
  have htree' : s.index.tree? s.units d = some tree := by
    rw [DeclIndex.tree?, hi]
    exact htree
  unfold buildTreeType
  refine .reads (reads_declAt hi) (.read fun _ => ?_)
  rw [htree']
  refine (declEnclosing_answers hc hr hd hi).bind_ok fun enc t ht hg henc => ?_
  have hk := hg.toKeeps
  refine .reads (reads_allMemberKeys ht d 0 tree.members) (.pure fun _ => ?_)
  rw [DeclIndex.keyOf_eq hi]
  refine ⟨?_, rfl, ht.lt_size_of_encloses henc, ?_⟩
  · rw [← hk.index] at hd hi
    rw [← hk.index, ← hk.units] at htree'
    exact .tree hd hi htree' henc
  · rw [← DeclIndex.keyOf_eq hi, ← hk.index]
    rw [← hk.index] at hd
    exact Session.outcomeOf_keyOf ht hd

theorem buildField_answers {d : DeclId} {m v : Nat} (hc : Serves canonical (2 * d + 2))
    (hr : s.Above (2 * d + 2)) (ha : s.Askable (.field d m v)) :
    building.Answers s (buildField canonical d m v) fun x t => Built t (.field d m v) x := by
  refine .sound fun hs => ?_
  obtain ⟨hd, f, hf, hv⟩ := ha
  obtain ⟨i, hi⟩ := hd.info
  have hv' := List.getElem?_eq_getElem hv
  have hrank : s.rank (s.index.keyOf d) < 2 * d + 2 := by
    rw [Session.rank_keyOf hd]
    omega
  unfold buildField
  refine .read fun _ => ?_
  rw [hf]
  dsimp only
  rw [hv']
  refine .reads (reads_keyOf hi) ?_
  refine (hc.denotes hr (Session.askable_keyOf hs hd) hrank
    (Session.outcomeOf_keyOf hs hd)).bind_ok fun owner t ht hg ho => .pure fun _ => ?_
  have hk := hg.toKeeps
  rw [← hk.index] at ho
  rw [← hk.member?] at hf
  refine ⟨.field hf hv' ho, rfl, ?_, rfl⟩
  rintro _ ⟨⟩
  exact ht.lt_size ho

theorem buildConstant_answers {d : DeclId} {m : Nat} (hc : Serves canonical (2 * d + 2))
    (hr : s.Above (2 * d + 2)) (ha : s.Askable (.constant d m)) :
    building.Answers s (buildConstant canonical d m) fun x t => Built t (.constant d m) x := by
  refine .sound fun hs => ?_
  obtain ⟨hd, n, body, sp, hm⟩ := ha
  obtain ⟨i, hi⟩ := hd.info
  have hrank : s.rank (s.index.keyOf d) < 2 * d + 2 := by
    rw [Session.rank_keyOf hd]
    omega
  unfold buildConstant
  refine .read fun _ => ?_
  rw [hm]
  refine .reads (reads_keyOf hi) ?_
  refine (hc.denotes hr (Session.askable_keyOf hs hd) hrank
    (Session.outcomeOf_keyOf hs hd)).bind_ok fun owner t ht hg ho => .pure fun _ => ?_
  have hk := hg.toKeeps
  rw [← hk.index] at ho
  rw [← hk.member?] at hm
  rw [← hk.index]
  refine ⟨.constant hm ho, rfl, ?_, rfl⟩
  rintro _ ⟨⟩
  exact ht.lt_size ho

/-! ### Precompiled types -/

theorem describedPackage_answers (hc : Serves canonical r) (hr : s.Above r) (hpos : 0 < r)
    (d : Descriptor) :
    building.Answers s (describedPackage canonical d) fun x t =>
      ∃ enc n, x = .ok enc ∧ t.names.resolve? n = some d.package ∧
        t.Encloses (DeclIndex.packageKey? (some n)) enc := by
  refine .sound fun hs => .lift (internName_ends d.package) fun n t ht hg hn => ?_
  have hissued : ∀ m ∈ some n, t.names.Issued m := by
    rintro _ ⟨⟩
    exact ⟨_, hn⟩
  refine (packageElement_answers hc (hr.grow hs hg) hpos hissued).mono ?_
  rintro _ u hu hg' ⟨enc, rfl, henc⟩
  exact ⟨enc, n, rfl, hg'.names _ _ hn, henc⟩

/-- What encloses a precompiled type is an element of the session. -/
theorem Session.Sound.lt_size_of_surrounds {d : Descriptor} {enc : Option ElementId}
    (hs : s.Sound) (h : s.Surrounds d enc) : ∀ id ∈ enc, id < s.elements.size := by
  cases h with
  | type _ _ denotes =>
    rintro _ ⟨⟩
    exact hs.lt_size denotes
  | package _ _ encloses => exact hs.lt_size_of_encloses encloses

/-- The rank of a name is at most what its length says. -/
theorem Session.Sound.rank_type_le (hs : s.Sound) (n : Name) :
    s.rank (.type n) ≤ 2 * s.index.size + 1 + (s.names.text n).length := by
  rw [Session.rank]
  split
  · rename_i d hd
    obtain ⟨i, hi⟩ := (hs.index.primary_of_find? hd).1.info
    have hlt := Nat.succ_le_of_lt (Array.getElem?_eq_some_iff.1 hi).1
    have hsize : s.index.size = s.index.decls.size := rfl
    omega
  · exact Nat.le_refl _

theorem describedEnclosing_answers {d : Descriptor} {name : String}
    (hc : Serves canonical (2 * s.index.size + 1 + name.length))
    (hr : s.Above (2 * s.index.size + 1 + name.length)) (hfree : s.declares name = false)
    (hd : s.provider.resolve? name = some d) (hname : d.qualifiedName = name) :
    building.Answers s (describedEnclosing canonical d) fun x t => match x with
      | .ok enc => t.Surrounds d enc ∧ s.lookupOutcome name = .ok ()
      | .error e => s.lookupOutcome name = .error e := by
  refine .sound fun hs => ?_
  unfold describedEnclosing
  split
  · rename_i ho
    refine (describedPackage_answers hc hr (by omega) d).mono ?_
    rintro _ t - - ⟨enc, n, rfl, hn, henc⟩
    refine ⟨.package (fun outer houter => ?_) hn henc, lookupOutcome_top hfree hd hname ho⟩
    rw [ho] at houter
    cases houter
  · rename_i outer ho
    -- The name of the type around it is shorter, so its construction is the smaller one.
    have hlt : outer.length < name.length := hname ▸ d.length_lt_of_enclosingType? ho
    have hout := lookupOutcome_member hfree hd hname ho
    refine .lift (internName_ends outer) fun n t ht hg hn => ?_
    have ha : t.Askable (.type n) := ⟨_, hn⟩
    have hrank : t.rank (.type n) < 2 * s.index.size + 1 + name.length := by
      have h := ht.rank_type_le n
      rw [NameTable.text_eq hn, hg.toKeeps.index] at h
      omega
    refine .attempt (hc t (.type n) (hr.grow hs hg) ha hrank) fun x u hu hg' hx => ?_
    have hx' := hu.outcome _ _ hx
    rw [Session.outcomeOf_grow ht.index ha hg'.toKeeps, Session.outcomeOf, NameTable.text_eq hn,
      Session.lookupOutcome_grow hs.index hg.toKeeps] at hx'
    unfold Session.lookupOutcome at hx'
    rw [← hx'] at hout
    cases x with
    | ok id => exact .pure fun _ => ⟨.type ho (hg'.names _ _ hn) hx, hout⟩
    | error e =>
      dsimp only
      split
      · -- A name that is unknown leaves the type in its package; any other error is that of the
        -- type.
        rename_i he
        have hpackage := describedPackage_answers hc ((hr.grow hs hg).grow ht hg') (by omega) d
        refine hpackage.mono ?_
        rintro _ v hv hg₂ ⟨enc, m, rfl, hm, henc⟩
        refine ⟨.package (fun o houter => ⟨e, ?_⟩) hm henc, hout.trans ?_⟩
        · obtain rfl := Option.some.inj (ho.symm.trans houter)
          rw [Session.lookupOutcome_grow hs.index
            (hg.toKeeps.trans (hg'.toKeeps.trans hg₂.toKeeps))]
          exact hx'.symm
        · simp [Except.map, he]
      · rename_i he
        refine .throw fun _ => hout.trans ?_
        simp [Except.map, he]

theorem buildDescribed_answers {n : Name} {d : Descriptor}
    (hc : Serves canonical (2 * s.index.size + 1 + (s.names.text n).length))
    (hr : s.Above (2 * s.index.size + 1 + (s.names.text n).length)) (hn : s.names.Issued n)
    (hfree : s.index.find? n = none) (hd : s.provider.resolve? (s.names.text n) = some d)
    (hname : d.qualifiedName = s.names.text n) :
    building.Answers s (buildDescribed canonical d) fun x t => Built t (.type n) x := by
  refine .sound fun hs => ?_
  have hfree' : s.declares (s.names.text n) = false := by
    rw [Session.declares_of_resolve? hn.resolve?, hfree]
    rfl
  unfold buildDescribed
  rw [hname]
  refine .lift (internName_ends (s.names.text n)) fun m t ht hg hm => ?_
  -- The name is interned already, so it is the same one.
  have hmn : m = n := NameTable.resolve?_inj hm (hg.names n _ hn.resolve?)
  rw [hmn]
  have hk := hg.toKeeps
  have hr' := hr.grow hs hg
  rw [← hk.index] at hc hr' hfree
  rw [← Session.declares_grow hs.index hk.names hk.index] at hfree'
  rw [← hk.provider] at hd
  have hmade := describedEnclosing_answers hc hr' hfree' hd hname
  refine hmade.bind (fun enc u hu hg₁ henc => ?_) fun e u _ hg₁ he => ?_
  · refine .lift (internName_ends d.simpleName) fun simple v hv hg₂ hsimple => ?_
    refine .lift (internNames_ends d.typeParameters) fun params w hw hg₃ hparams => .pure fun _ => ?_
    have hl := hg₁.toKeeps.trans (hg₂.toKeeps.trans hg₃.toKeeps)
    have hnw := (hn.le hk.names).le hl.names
    have htext : w.names.text n = s.names.text n := by
      rw [NameTable.text_le (hn.le hk.names) hl.names, NameTable.text_le hn hk.names]
    have hsurrounds := henc.1.grow hu.index (hg₂.toKeeps.trans hg₃.toKeeps)
    refine ⟨.described hnw ?_ ?_ (hname.trans htext.symm) (hg₃.names simple _ hsimple) hparams
      hsurrounds, rfl, hw.lt_size_of_surrounds hsurrounds, ?_⟩
    · rw [hl.index]
      exact hfree
    · rw [hl.provider, htext]
      exact hd
    · rw [Session.outcomeOf, Session.lookupOutcome_grow ht.index hl, htext]
      exact henc.2
  · have htext : u.names.text n = s.names.text n := by
      rw [NameTable.text_le (hn.le hk.names) hg₁.names, NameTable.text_le hn hk.names]
    rw [Built, Session.outcomeOf, Session.lookupOutcome_grow ht.index hg₁.toKeeps, htext]
    exact he

/-! ### The element of a key -/

theorem buildPackage_answers {n : Name} (hn : s.names.Proper n) :
    building.Answers s (liftM (buildPackage n)) fun x t => Built t (.package n) x := by
  unfold buildPackage
  have h : building.Ends s (do
      let simple := lastSegment (← nameText n).toList
      return Element.ofPackage n (← internName (String.ofList simple))) fun e t =>
        Built t (.package n) (.ok e) := by
    refine .reads (reads_nameText hn.1) ?_
    refine (internName_ends _).bind fun simple t _ hg hs => .pure fun _ => ?_
    exact ⟨.package (hn.1.le hg.names) (NameTable.text_le hn.1 hg.names ▸ hs), rfl,
      fun id hid => (nomatch hid), rfl⟩
  refine (Answers.lift_last h).mono ?_
  rintro _ t - - ⟨e, rfl, he⟩
  exact he

theorem buildForwarded_answers {n : Name}
    (hc : Serves canonical (2 * s.index.size + 1 + (s.names.text n).length))
    (hr : s.Above (2 * s.index.size + 1 + (s.names.text n).length)) (hn : s.names.Issued n)
    (hfree : s.index.find? n = none) (hslot : (s.cache.slot? (.type n)).isSome)
    (hnew : s.names.text n ∉ s.asked) :
    building.Answers s (buildForwarded canonical n) fun x t => Built t (.type n) x := by
  refine .sound fun hs => ?_
  have hfree' : s.declares (s.names.text n) = false := by
    rw [Session.declares_of_resolve? hn.resolve?, hfree]
    rfl
  unfold buildForwarded
  refine .reads (reads_nameText hn) ?_
  refine .lift (note_forwarded_ends hn hfree hslot hnew) fun _ t ht hg _ => .read fun _ => ?_
  -- The question to the provider is recorded; nothing that the outcome depends on has changed.
  have hk := hg.toKeeps
  have htext := NameTable.text_le hn hk.names
  have hout : t.outcomeOf (.type n) = s.lookupOutcome (s.names.text n) := by
    rw [Session.outcomeOf, Session.lookupOutcome_grow hs.index hk, htext]
  rw [hk.provider]
  split
  · rename_i hp
    exact .throw fun _ => hout.trans (lookupOutcome_unknown hfree' hp)
  · rename_i d hp
    split
    · rename_i hd
      have hr' := hr.grow hs hg
      rw [← hk.index, ← htext] at hc hr'
      rw [← hk.index] at hfree
      rw [← hk.provider, ← htext] at hp
      rw [← htext] at hd
      exact buildDescribed_answers hc hr' (hn.le hk.names) hfree hp hd
    · rename_i hd
      exact .throw fun _ => hout.trans (lookupOutcome_misnamed hfree' hp hd)

/-- **The element of a key is the one that the key describes.** The constructor asks for keys of a
    lower rank only, and a name that it forwards has not been asked for. -/
theorem build_answers (hc : Serves canonical (s.rank key)) (hr : s.Above (s.rank key))
    (ha : s.Askable key) (hb : s.cache.slot? key = some .building)
    (hnew : ∀ n, key = .type n → s.index.find? n = none → s.names.text n ∉ s.asked) :
    building.Answers s (build canonical key) fun x t => Built t key x := by
  refine .sound fun hs => ?_
  cases key with
  | package n => exact buildPackage_answers ha
  | type n =>
    refine .read fun _ => ?_
    split
    · rename_i d hd
      obtain ⟨hp, hkey, -⟩ := hs.index.primary_of_find? hd
      have hrank := Session.rank_keyOf hp
      rw [hkey] at hrank
      rw [hrank] at hc hr
      rw [← hkey]
      exact buildTreeType_answers hc hr hp
    · rename_i hd
      rw [Session.rank, hd] at hc hr
      exact buildForwarded_answers hc hr ha hd (by rw [hb]; rfl) (hnew n rfl hd)
  | unnamed d =>
    have hbuilt := buildTreeType_answers hc hr ha.1
    rw [ha.2] at hbuilt
    exact hbuilt
  | field d m v => exact buildField_answers hc hr ha
  | constant d m => exact buildConstant_answers hc hr ha

theorem prepare_answers (hc : Serves canonical (s.rank key)) (hr : s.Above (s.rank key))
    (ha : s.Askable key) (hb : s.cache.slot? key = some .building)
    (hnew : ∀ n, key = .type n → s.index.find? n = none → s.names.text n ∉ s.asked) :
    building.Answers s (prepare canonical key) fun x t => Built t key x := by
  refine .sound fun hs => ?_
  obtain ⟨text, ht⟩ := reads_describeKey ha
  refine .reads ht (.lift (note_ends fun _ => nofun) fun _ t ht hg hasked => ?_)
  have hk := hg.toKeeps
  rw [← Session.rank_grow ha hk] at hc
  have hr' := hr.grow hs hg
  rw [← Session.rank_grow ha hk] at hr'
  refine build_answers hc hr' (ha.grow hk) ((hg.building key).2 hb) ?_
  rintro n rfl hf
  rw [hk.index] at hf
  rw [hasked, NameTable.text_le ha hk.names]
  exact hnew n rfl hf

end Build

/-! ### Beginning and ending a construction -/

namespace Session

/-- A session that has requested an element. -/
def requested (s : Session) (key : ElementKey) : Session :=
  { s with cache := (s.cache.request key).2 }

/-- A session in which the construction of a key has ended, and the outcome. -/
def ended (s : Session) (key : ElementKey) :
    Except ModelError Element → Except ModelError ElementId × Session
  | .ok e =>
    let id := s.elements.size
    (.ok id, { s with
      elements := (s.elements.alloc e).2
      events := s.events.push (.constructed id e.kind)
      cache := s.cache.finish key (.ok id) })
  | .error err => (.error err, { s with cache := s.cache.finish key (.error err) })

/-- The slots of a session that has requested an element: a construction runs where there was
    neither an outcome nor one running. -/
theorem slot?_requested (s : Session) (key k : ElementKey) :
    (s.requested key).cache.slot? k = s.cache.slot? k ∨
      (k = key ∧ (s.requested key).cache.slot? k = some .building ∧
        (s.cache.slot? k = none ∨ s.cache.slot? k = some .vacant)) := by
  rcases s.cache.request_eq key with ⟨v, -, -, h⟩ | ⟨-, -, h⟩ | ⟨hs, -, h⟩
  · exact .inl (congrFun h k)
  · exact .inl (congrFun h k)
  · by_cases hk : k = key
    · refine .inr ⟨hk, ?_, hk ▸ hs⟩
      exact (h k).trans (if_pos hk)
    · exact .inl ((h k).trans (if_neg hk))

theorem keeps_requested (s : Session) (key : ElementKey) : s.Keeps (s.requested key) := by
  refine ⟨rfl, .refl _, fun k r hr => ?_, fun _ => rfl⟩
  rcases s.slot?_requested key k with hk | ⟨-, -, hn | hn⟩
  · exact hk.trans hr
  · rw [hr] at hn
    cases hn
  · rw [hr] at hn
    cases hn

theorem Sound.requested (h : s.Sound) (ha : s.Askable key) : (s.requested key).Sound := by
  have hslot := s.slot?_requested key
  refine h.carry (s.keeps_requested key) (fun _ => rfl) (fun k r hr => ?_)
    (fun k x hx => ?_) (fun k hx => ?_) h.asked_nodup fun name hname => ?_
  · rcases hslot k with hk | ⟨-, hb, -⟩
    · exact hk.symm.trans hr
    · rw [hr] at hb
      cases hb
  · rcases hslot k with hk | ⟨rfl, -⟩
    · exact h.askable k x (hk.symm.trans hx)
    · exact ha
  · rcases hslot k with hk | ⟨-, hb, -⟩
    · exact h.kept k (hk.symm.trans hx)
    · rw [hx] at hb
      cases hb
  · obtain ⟨n, hn, hf, hs⟩ := h.asked_known name hname
    refine ⟨n, hn, hf, ?_⟩
    rcases hslot (.type n) with hk | ⟨-, hb, -⟩
    · rw [hk]
      exact hs
    · rw [hb]
      rfl

section Ended

variable {x : Except ModelError Element}

theorem slot?_ended (s : Session) (key : ElementKey) (x : Except ModelError Element)
    (k : ElementKey) : (s.ended key x).2.cache.slot? k =
      if k = key then some (.ready (s.ended key x).1) else s.cache.slot? k := by
  cases x <;> exact Cache.slot?_finish ..

theorem asked_ended (s : Session) (key : ElementKey) (x : Except ModelError Element) :
    (s.ended key x).2.asked = s.asked := by
  cases x with
  | ok e => exact (s.asked_push _).trans (List.append_nil _)
  | error err => rfl

theorem get?_ended {id : ElementId} {e : Element} (h : s.elements.get? id = some e) :
    (s.ended key x).2.elements.get? id = some e := by
  cases x with
  | ok e' =>
    exact (Arena.get?_alloc_of_lt _ _ (Array.getElem?_eq_some_iff.1 h).1).trans h
  | error err => exact h

theorem keeps_ended (hb : s.cache.slot? key = some .building) : s.Keeps (s.ended key x).2 := by
  refine ⟨by cases x <;> rfl, by cases x <;> exact .refl _, fun k r hr => ?_,
    fun _ => by cases x <;> rfl⟩
  rw [slot?_ended, if_neg]
  · exact hr
  · rintro rfl
    rw [hb] at hr
    cases hr

/-- Where a construction has ended, every element is an old one under its old key, or else the new
    one under the key of the construction. -/
theorem denotes_ended {k : ElementKey} {id : ElementId} (h : (s.ended key x).2.Denotes k id) :
    (k ≠ key ∧ s.Denotes k id) ∨ (k = key ∧ id = s.elements.size ∧ ∃ e, x = .ok e) := by
  rw [Denotes, slot?_ended] at h
  split at h
  · rename_i hk
    cases x with
    | ok e =>
      cases h
      exact .inr ⟨hk, rfl, e, rfl⟩
    | error err => cases h
  · rename_i hk
    exact .inl ⟨hk, h⟩

/-- **A construction that has ended keeps the invariant.** -/
theorem Sound.ended (h : s.Sound) (hb : s.cache.slot? key = some .building) (hx : Built s key x) :
    (s.ended key x).2.Sound := by
  have hk : s.Keeps (s.ended key x).2 := keeps_ended hb
  have hslot := s.slot?_ended key x
  constructor
  case index => cases x <;> exact h.index
  case wellKnown => cases x <;> exact h.wellKnown
  case askable =>
    intro k y hy
    refine Askable.grow ?_ hk
    rw [hslot] at hy
    split at hy
    · -- The outcome of this key is the new one; those of the others are as before.
      rename_i hkey
      exact hkey ▸ h.askable key _ hb
    · exact h.askable k y hy
  case outcome =>
    intro k r hr
    rw [hslot] at hr
    split at hr
    · rename_i hkey
      cases hr
      rw [hkey, outcomeOf_grow h.index (h.askable key _ hb) hk]
      cases x with
      | ok e => exact hx.2.2.2.symm
      | error err => exact Eq.symm hx
    · rw [outcomeOf_grow h.index (h.askable k _ hr) hk]
      exact h.outcome k r hr
  case element =>
    intro k id hd
    -- An element is one of the old ones, or the one that has just been made.
    rcases denotes_ended hd with ⟨-, hd⟩ | ⟨rfl, rfl, e, rfl⟩
    · obtain ⟨e, he, hdesc, henc⟩ := h.element k id hd
      exact ⟨e, get?_ended he, hdesc.grow h.index hk, henc⟩
    · obtain ⟨hdesc, hbare, henc, -⟩ := hx
      refine ⟨e, Arena.get?_alloc_self _ _, ?_, henc⟩
      rw [hbare]
      exact hdesc.grow h.index hk
  case unique =>
    intro k k' id hd hd'
    rcases denotes_ended hd with ⟨-, hold⟩ | ⟨hk, hid, -⟩ <;>
      rcases denotes_ended hd' with ⟨-, hold'⟩ | ⟨hk', hid', -⟩
    · exact h.unique k k' id hold hold'
    · -- The number of an old element is smaller than that of the new one.
      exact absurd (h.lt_size hold) (Nat.not_lt_of_le (Nat.le_of_eq hid'.symm))
    · exact absurd (h.lt_size hold') (Nat.not_lt_of_le (Nat.le_of_eq hid.symm))
    · rw [hk, hk']
  case covered =>
    intro id hid
    cases x with
    | error err =>
      obtain ⟨k, hd⟩ := h.covered id hid
      exact ⟨k, hd.grow hk⟩
    | ok e =>
      have hid' : id < s.elements.size + 1 := by
        rw [← s.elements.size_alloc e]
        exact hid
      -- To the last element leads the key that was constructed.
      rcases Nat.lt_succ_iff_lt_or_eq.1 hid' with hlt | rfl
      · obtain ⟨k, hd⟩ := h.covered id hlt
        exact ⟨k, hd.grow hk⟩
      · exact ⟨key, (hslot key).trans (if_pos rfl)⟩
  case kept =>
    intro k
    rw [hslot]
    split
    · nofun
    · exact h.kept k
  case asked_nodup =>
    rw [asked_ended]
    exact h.asked_nodup
  case asked_known =>
    rw [asked_ended]
    intro name hname
    obtain ⟨n, hn, hf, hs⟩ := h.asked_known name hname
    refine ⟨n, hk.names n name hn, by rw [hk.index]; exact hf, ?_⟩
    rw [hslot]
    split
    · rfl
    · exact hs

theorem fresh_ended {id : ElementId} {e : Element} (hx : Built s key x)
    (h : (s.ended key x).2.elements.get? id = some e) :
    s.elements.get? id = some e ∨ e.bare = e := by
  cases x with
  | ok e' =>
    by_cases hid : id < s.elements.size
    · exact .inl ((Arena.get?_alloc_of_lt _ _ hid).symm.trans h)
    · have hlt : id < s.elements.size + 1 := by
        rw [← s.elements.size_alloc e']
        exact (Array.getElem?_eq_some_iff.1 h).1
      obtain rfl : id = s.elements.size := Nat.eq_of_lt_succ_of_not_lt hlt hid
      have he : some e' = some e := (Arena.get?_alloc_self _ _).symm.trans h
      cases he
      exact .inr hx.2.1
  | error err => exact .inl h

/-- A construction that was begun and has ended leaves none running. -/
theorem builds_ended (hs : s.cache.slot? key ≠ some .building)
    (hb : t.cache.slot? key = some .building) (hg : (s.requested key).Builds t)
    (hx : Built t key x) : s.Builds (t.ended key x).2 where
  toKeeps := (s.keeps_requested key).trans (hg.toKeeps.trans (keeps_ended hb))
  elements id e he := get?_ended (hg.elements id e he)
  fresh id e he := (fresh_ended hx he).elim (hg.fresh id e) .inr
  building k := by
    rw [slot?_ended]
    split
    · rename_i hk
      rw [hk]
      exact ⟨nofun, fun h => absurd h hs⟩
    · rename_i hk
      rcases s.slot?_requested key k with hsame | ⟨rfl, -⟩
      · rw [hg.building k, hsame]
      · exact absurd rfl hk
  supertypes := by cases x <;> exact hg.supertypes
  cells := by cases x <;> exact hg.cells

end Ended

/-- A name whose construction never began has not been asked for. -/
theorem Sound.not_asked (h : s.Sound) {n : Name} (hn : s.names.Issued n)
    (hs : s.cache.slot? (.type n) = none) : s.names.text n ∉ s.asked := by
  intro hmem
  obtain ⟨m, hm, -, hsome⟩ := h.asked_known _ hmem
  rw [NameTable.resolve?_inj hm hn.resolve?, hs] at hsome
  cases hsome

end Session

/-! ### Requests -/

theorem run_requestElement (s : Session) (key : ElementKey) :
    (requestElement key).run.run s = (.ok (s.cache.request key).1, s.requested key) := rfl

theorem run_finishElement (s : Session) (key : ElementKey) (r : Except ModelError ElementId) :
    (finishElement key r).run.run s = (.ok (), { s with cache := s.cache.finish key r }) := rfl

/-- What a request does when the construction that it starts is not stopped. -/
theorem canonicalWithin_construct {fuel : Nat} {x : Except ModelError Element}
    (hreq : (s.cache.request key).1 = .construct)
    (hrun : (prepare (canonicalWithin fuel) key).run.run.run (s.requested key) = (.ok x, t)) :
    (canonicalWithin (fuel + 1) key).run.run.run s =
      (.ok (t.ended key x).1, (t.ended key x).2) := by
  have hconstruct : ∃ r u, (construct (canonicalWithin fuel) key).run.run.run (s.requested key) =
      (.ok r, u) ∧ r = (t.ended key x).1 ∧
        { u with cache := u.cache.finish key r } = (t.ended key x).2 := by
    unfold construct
    rw [Query.run_bind hrun]
    cases x with
    | ok e => exact ⟨_, _, rfl, rfl, rfl⟩
    | error err => exact ⟨_, _, rfl, rfl, rfl⟩
  obtain ⟨r, u, hr, rfl, hu⟩ := hconstruct
  have hguarded : (Query.guarded (abandonElement key)
      (construct (canonicalWithin fuel) key)).run.run.run (s.requested key) =
      (.ok (t.ended key x).1, u) := run_guarded (abandonElement key) hr
  unfold canonicalWithin
  rw [Query.run_lift_bind (run_requestElement s key), hreq]
  dsimp only
  rw [Query.run_attempt_bind hguarded, Query.run_lift_bind (run_finishElement u key _), hu]
  rfl

/-- **A key is made without asking for itself.** When all constructions that are running are of a
    higher rank, the construction of a key is not re-entered, and the cache ends up with its
    outcome. -/
theorem canonicalWithin_serves {fuel r : Nat} (hr : r ≤ fuel) : Serves (canonicalWithin fuel) r := by
  induction fuel generalizing r with
  | zero => exact fun s key _ _ hlt => absurd hlt (by omega)
  | succ fuel ih =>
    intro s key hab ha hlt hs
    have hsound := hs.requested ha
    -- The key has its outcome; or its construction is running, which the rank excludes; or it
    -- starts.
    rcases s.cache.request_eq key with ⟨x, hslot, hreq, hsame⟩ | ⟨hslot, -, -⟩ | ⟨hslot, hreq, hnew⟩
    · refine ⟨.ok x, s.requested key, ?_, hsound, ?_, x, rfl, (congrFun hsame key).trans hslot⟩
      · unfold canonicalWithin
        show (liftM (requestElement key) >>= _ : Query ElementId).run.run.run s = _
        rw [Query.run_lift_bind (run_requestElement s key), hreq]
        rfl
      · refine ⟨s.keeps_requested key, fun _ _ h => h, fun _ _ h => .inl h, fun k => ?_, rfl, rfl⟩
        rw [← congrFun hsame k]
        rfl
    · exact absurd hlt (Nat.not_lt_of_le (hab key hslot))
    · have hnone : s.cache.slot? key = none := hslot.resolve_right (hs.kept key)
      have hb : (s.requested key).cache.slot? key = some .building := (hnew key).trans (if_pos rfl)
      have hab' : (s.requested key).Above ((s.requested key).rank key) := by
        intro k hk
        rcases s.slot?_requested key k with hsame | ⟨rfl, -⟩
        · exact Nat.le_trans (Nat.le_of_lt hlt) (hab k (hsame.symm.trans hk))
        · exact Nat.le_refl _
      have hfresh : ∀ n, key = .type n → s.index.find? n = none → s.names.text n ∉ s.asked := by
        rintro n rfl -
        exact hs.not_asked ha hnone
      -- What the construction asks for has a smaller rank, and takes one step less.
      obtain ⟨_, t, hrun, ht, hg, x, rfl, hx⟩ := prepare_answers (s := s.requested key)
        (ih (Nat.le_of_lt_succ (Nat.lt_of_lt_of_le hlt hr))) hab' ha hb hfresh hsound
      have htb := (hg.building key).2 hb
      refine ⟨.ok (t.ended key x).1, (t.ended key x).2, canonicalWithin_construct hreq hrun,
        ht.ended htb hx, Session.builds_ended ?_ htb hg hx, _, rfl,
        (t.slot?_ended key x key).trans (if_pos rfl)⟩
      rw [hnone]
      nofun

/-! ### Outside of constructions -/

/-- No construction is running. -/
def Session.Quiet (s : Session) : Prop := ∀ key, s.cache.slot? key ≠ some .building

theorem Session.Quiet.grow (h : s.Quiet) (hg : s.Builds t) : t.Quiet := fun key hk =>
  h key ((hg.building key).1 hk)

theorem Session.rank_lt (s : Session) (hs : s.Sound) (ha : s.Askable key) :
    s.rank key < s.constructionBound key := by
  have hsize : ∀ d, s.index.Primary d → d < s.index.size := fun d hd => by
    obtain ⟨i, hi⟩ := hd.info
    exact (Array.getElem?_eq_some_iff.1 hi).1
  unfold constructionBound nameBound
  cases key with
  | package n =>
    rw [rank]
    omega
  | type n =>
    have h := hs.rank_type_le n
    dsimp only
    omega
  | unnamed d =>
    have h := Nat.succ_le_of_lt (hsize d ha.1)
    rw [rank]
    omega
  | field d m v =>
    have h := Nat.succ_le_of_lt (hsize d ha.1)
    rw [rank]
    omega
  | constant d m =>
    have h := Nat.succ_le_of_lt (hsize d ha.1)
    rw [rank]
    omega

/-- **The element of a key.** The cache ends up with the outcome of the key. -/
theorem canonical_answers (hq : s.Quiet) (ha : s.Askable key) :
    building.Answers s (canonical key) fun x t => t.cache.slot? key = some (.ready x) := by
  refine .sound fun hs => .read fun _ => ?_
  exact canonicalWithin_serves (Nat.le_refl _) s key (fun k hk => absurd hk (hq k)) ha
    (s.rank_lt hs ha)

/-- The element of a key that has one. -/
theorem canonical_denotes (hq : s.Quiet) (ha : s.Askable key) (ho : s.outcomeOf key = .ok ()) :
    building.Answers s (canonical key) fun x t => ∃ id, x = .ok id ∧ t.Denotes key id := by
  refine .sound fun hs => (canonical_answers hq ha).mono fun x t ht hg hx => ?_
  refine Session.Sound.denotes ht hx ?_
  rw [Session.outcomeOf_grow hs.index ha hg.toKeeps]
  exact ho

end JavaAbi
