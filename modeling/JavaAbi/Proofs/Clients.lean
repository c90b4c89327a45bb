import JavaAbi.Model.Client
import JavaAbi.Proofs.Lookups

namespace JavaAbi

/-!
# Clients of a session

Whatever a client asks of a session over a parsed batch, the session stays as it has to be between
questions, the types that the client receives are types of the session, and no question is stopped by
a breach, unless it is about an element that the session does not have.

* `Client.Fits` — the invariant of a client;
* `Client.fits_start` — it holds of new clients;
* `Client.ask_replies` — what a question does;
* `Client.fits_askAll` — the invariant holds after any questions.
-/

open Course Stage

/-! ### New sessions -/

/-- The special names are names of the table that comes with them. -/
theorem WellKnown.issued_ofConfig (c : ModelConfig) (t : NameTable) :
    t.Le (ofConfig c t).2 ∧ (ofConfig c t).1.Issued (ofConfig c t).2 := by
  have hall : ∀ (texts : List String) (u : NameTable), u.Le (u.internAll texts).2 ∧
      ∀ n ∈ (u.internAll texts).1, (u.internAll texts).2.Issued n := by
    intro texts
    induction texts with
    | nil => exact fun u => ⟨.refl u, nofun⟩
    | cons text rest ih =>
      intro u
      obtain ⟨hle, hissued⟩ := ih (u.intern text).2
      refine ⟨(u.le_intern text).trans hle, fun n hn => ?_⟩
      rcases List.mem_cons.1 hn with rfl | hn
      · exact ⟨text, hle _ _ (u.resolve?_intern text)⟩
      · exact hissued n hn
  -- The four names come one after the other, and each is kept by all that come later.
  obtain ⟨t₁, h₁⟩ : ∃ u, u = (t.intern c.rootObject).2 := ⟨_, rfl⟩
  obtain ⟨t₂, h₂⟩ : ∃ u, u = (t₁.intern "java.lang.Enum").2 := ⟨_, rfl⟩
  obtain ⟨t₃, h₃⟩ : ∃ u, u = (t₂.intern "java.lang.Record").2 := ⟨_, rfl⟩
  obtain ⟨t₄, h₄⟩ : ∃ u, u = (t₃.intern "java.lang.annotation.Annotation").2 := ⟨_, rfl⟩
  obtain ⟨hle, hissued⟩ := hall (c.implicitImports.filter (!·.isEmpty)) t₄
  have hle₃ := (h₄ ▸ t₃.le_intern _ : t₃.Le t₄).trans hle
  have hle₂ := (h₃ ▸ t₂.le_intern _ : t₂.Le t₃).trans hle₃
  have hle₁ := (h₂ ▸ t₁.le_intern _ : t₁.Le t₂).trans hle₂
  subst h₁ h₂ h₃ h₄
  exact ⟨(t.le_intern _).trans hle₁,
    ⟨⟨_, hle₁ _ _ (t.resolve?_intern _)⟩, ⟨_, hle₂ _ _ (NameTable.resolve?_intern _ _)⟩,
      ⟨_, hle₃ _ _ (NameTable.resolve?_intern _ _)⟩, ⟨_, hle _ _ (NameTable.resolve?_intern _ _)⟩,
      hissued⟩⟩

namespace Session

variable {token : SessionToken} {units : List CompilationUnit} {names : NameTable}
  {provider : Provider} {config : ModelConfig}

/-- The world of a new session is sound, if the trees are. -/
theorem sound_world_start (h : ∀ u ∈ units, u.Sound names False) :
    (start token units names provider config).world.Sound := by
  obtain ⟨hle, hindex⟩ := DeclIndex.sound_ofUnits h
  obtain ⟨hle', hissued⟩ := WellKnown.issued_ofConfig config (DeclIndex.ofUnits units names).2
  exact ⟨fun u hu => (h u hu).weaken (hle.trans hle') id, hindex.le hle', hissued⟩

/-- **A new session is as it has to be between questions.** -/
theorem idle_start (h : ∀ u ∈ units, u.Sound names False) :
    (start token units names provider config).Idle
      (start token units names provider config).world := by
  have hworld : (start token units names provider config).world.Sound := sound_world_start h
  obtain ⟨s, hs⟩ : ∃ s, s = start token units names provider config := ⟨_, rfl⟩
  have hcache : ∀ key, s.cache.slot? key = none := fun _ => hs ▸ rfl
  have hlists : ∀ id, s.supertypes.slot? id = none := fun _ => hs ▸ rfl
  have helements : ∀ id, s.elements.get? id = none := fun _ => hs ▸ rfl
  have hsize : s.elements.size = 0 := hs ▸ rfl
  have hasked : s.asked = [] := hs ▸ rfl
  rw [← hs] at hworld ⊢
  -- There are no elements, so nothing is said of them.
  have hdenotes : ∀ key id, ¬s.Denotes key id := fun key id hd => by
    rw [Denotes, hcache] at hd
    cases hd
  have hsound : s.Sound :=
    { index := hworld.index
      wellKnown := hworld.wellKnown
      askable := fun key x hx => by rw [hcache] at hx; cases hx
      outcome := fun key r hr => by rw [hcache] at hr; cases hr
      element := fun key id hd => absurd hd (hdenotes key id)
      unique := fun key _ id hd => absurd hd (hdenotes key id)
      covered := fun id hid => by rw [hsize] at hid; exact absurd hid (Nat.not_lt_zero _)
      kept := fun key hk => by rw [hcache] at hk; cases hk
      asked_nodup := by rw [hasked]; exact List.nodup_nil
      asked_known := fun name hn => by rw [hasked] at hn; cases hn }
  have hresolved : s.Resolved s.world :=
    { world := hworld
      sound := hsound
      quiet := fun key hk => by rw [hcache] at hk; cases hk
      of := ⟨rfl, .refl _⟩
      lists := fun id ids hl => by rw [hlists] at hl; cases hl }
  exact
    { resolved := hresolved
      making := makes_nil.2 fun id hid => by rw [hlists] at hid; cases hid
      recalls := fun symbol id e _ he => by rw [helements] at he; cases he }

end Session

/-! ### Types that clients receive -/

section Parts

variable {w : World} {s : Session}

theorem Session.holdsAll_iff {types : List ModelType} :
    s.HoldsAll w types ↔ ∀ type ∈ types, s.Holds w type := by
  induction types with
  | nil => exact ⟨fun _ => nofun, fun _ => trivial⟩
  | cons type rest ih => rw [Session.HoldsAll, ih, List.forall_mem_cons]

theorem Session.holdsBound_iff {bound : Option ModelType} :
    s.HoldsBound w bound ↔ ∀ type ∈ bound, s.Holds w type := by
  cases bound with
  | none => exact ⟨fun _ => nofun, fun _ => trivial⟩
  | some type => exact ⟨fun h _ ht => Option.some.inj ht ▸ h, fun h => h type rfl⟩

/-- What a type of the session is made of are types of the session. -/
theorem Session.Holds.parts {type : ModelType} (h : s.Holds w type) :
    ∀ part ∈ type.parts, s.Holds w part := by
  match type with
  | .declared origin target args enclosing =>
    rw [Session.Holds, Session.holdsAll_iff] at h
    exact List.forall_mem_cons.2 ⟨h.2.2.2, h.2.2.1⟩
  | .array component =>
    rw [Session.Holds] at h
    exact List.forall_mem_singleton.2 h
  | .wildcard upper lower =>
    rw [Session.Holds, Session.holdsBound_iff, Session.holdsBound_iff] at h
    intro part hpart
    rcases List.mem_append.1 hpart with hpart | hpart
    · exact h.1 part (Option.mem_toList.1 hpart)
    · exact h.2 part (Option.mem_toList.1 hpart)
  | .primitive _ | .absent | .void | .package | .typeVariable _ _ | .error => exact nofun

theorem viewedAll.holds {types : List ModelType} {vs : List TypeView} (h : viewedAll w types vs s) :
    ∀ type ∈ types, s.Holds w type := by
  induction h with
  | nil => exact nofun
  | cons hv _ ih => exact List.forall_mem_cons.2 ⟨hv.1, ih⟩

end Parts

/-! ### Questions -/

/-- Whether a reply is an answer. -/
def Reply.IsAnswer : Reply → Prop
  | unanswered _ | stopped _ => False
  | _ => True

/-- The elements in a reply. -/
def Reply.named : Reply → List ElementId
  | elements ids => ids
  | _ => []

/-- A question whose answer is about the supertypes of an element. -/
def Question.supertypesOf? : Question → Option ElementId
  | superclass id | interfaces id => some id
  | _ => none

/-- The errors that a question may have: those of look-ups, and for the supertypes of an element that
    one of them could not be parsed. -/
def World.Blames (w : World) (s : Session) (q : Question) (e : ModelError) : Prop :=
  w.provider.Excuses e ∨
    ∃ id symbol, q.supertypesOf? = some id ∧ s.Shows symbol id ∧ e = .unparsableSupertype ∧
      w.Unparsed symbol

/-- What is promised of the outcome of a question. -/
def World.Promises (w : World) (s : Session) (q : Question) (r : Except ModelError Reply)
    (t : Session) : Prop :=
  match r with
  | .ok reply =>
    reply.IsAnswer ∧ (∀ type ∈ reply.received, t.Holds w type) ∧
      ∀ id ∈ reply.named, id < t.elements.size
  | .error e => w.Blames s q e

section Ask

variable {w : World} {s : Session} {q : Question}

/-- A question whose work honours a rule is answered as promised, if the reply is. -/
theorem Question.replies_of_honours {α β : Type} {m : Query α} {rule : Rule β}
    {excused : ModelError → Prop} {rel : α → β → Session → Prop} {f : α → Reply}
    (h : w.Honours s m rule excused rel) (he : ∀ e, excused e → w.Blames s q e)
    (hr : ∀ a b t, t.Idle w → rel a b t → w.Promises s q (.ok (f a)) t) :
    (asking w).Answers s (do return f (← m)) (w.Promises s q) := by
  refine Answers.bind h (fun a t ht _ ⟨b, hb, _⟩ => .pure fun _ => ?_) fun e t _ _ ⟨b, hb, _⟩ => ?_
  · match b, hb with
    | .ok b, hb => exact hr a b t ht hb
  · match b, hb with
    | .error _, ⟨rfl, hexc⟩ => exact he e hexc

/-- A question whose work always has an answer is answered as promised, if the reply is. -/
theorem Question.replies_of_answers {α : Type} {m : Query α} {P : α → Session → Prop}
    {f : α → Reply} (h : (asking w).Answers s m fun r t => ∃ a, r = .ok a ∧ P a t)
    (hr : ∀ a t, P a t → w.Promises s q (.ok (f a)) t) :
    (asking w).Answers s (do return f (← m)) (w.Promises s q) :=
  h.bind_ok fun a t _ _ ha => .pure fun _ => hr a t ha

theorem Question.replies_of_ends {α : Type} {m : SessionM α} {P : α → Session → Prop}
    {f : α → Reply} (h : (asking w).Ends s m P)
    (hr : ∀ a t, P a t → w.Promises s q (.ok (f a)) t) :
    (asking w).Answers s (do return f (← m)) (w.Promises s q) :=
  .lift h fun a t _ _ ha => .pure fun _ => hr a t ha

/-- A question about a type that was not received does nothing. -/
theorem withType_replies {received : List ModelType} {i : Nat} {f : ModelType → Query Reply}
    (h : ∀ type ∈ received, (asking w).Answers s (f type) (w.Promises s q)) :
    (asking w).Answers s (withType received i f) (w.Promises s q) := by
  unfold withType
  cases hi : received[i]? with
  | none => exact .pure fun _ => ⟨trivial, nofun, nofun⟩
  | some type => exact h type (List.mem_of_getElem? hi)

theorem Session.ShowsType.lt_size {symbol : Symbol} {id : ElementId} (hs : s.Sound)
    (h : s.ShowsType symbol id) : id < s.elements.size := by
  obtain ⟨key, hd, -⟩ := h.shows
  exact hs.lt_size hd

/-- **Every question is answered as promised**, without a breach. -/
theorem Question.query_replies {received : List ModelType}
    (hreceived : ∀ type ∈ received, s.Holds w type)
    (hid : ∀ id ∈ q.element?, id < s.elements.size) :
    (asking w).Answers s (q.query received) (w.Promises s q) := by
  refine .sound fun hs => ?_
  have helement : ∀ id ∈ q.element?, ∃ symbol e, s.Shows symbol id ∧
      s.elements.get? id = some e := by
    intro id h
    obtain ⟨key, hd⟩ := hs.resolved.sound.covered id (hid id h)
    obtain ⟨e, he, -⟩ := hs.resolved.sound.element key id hd
    exact ⟨_, e, ⟨key, hd, rfl⟩, he⟩
  -- One case for each question: the work that answers it, and then what the reply may hold.
  cases q with
  | lookupType name =>
    by_cases hname : name = ""
    · subst hname
      exact .throw fun _ => .inl (w.provider.excuses_unknown "")
    · exact replies_of_honours (lookupType_honours hname) (fun e he => .inl he)
        fun id symbol t ht hshow => ⟨trivial, nofun, List.forall_mem_singleton.2
          (hshow.lt_size ht.resolved.sound)⟩
  | lookupPackage name =>
    by_cases hname : name = ""
    · subst hname
      exact .throw fun _ => .inl (w.provider.excuses_unknown "")
    · refine replies_of_answers ((lookupPackage_answers hname).mono
        fun r t ht _ ⟨id, hr, hshow⟩ => ⟨id, hr, (?_ : id < t.elements.size)⟩)
        fun id t h => ⟨trivial, nofun, List.forall_mem_singleton.2 h⟩
      obtain ⟨key, hd, -⟩ := hshow
      exact ht.resolved.sound.lt_size hd
  | topLevelTypes => exact replies_of_answers topLevelTypes_answers fun ids t h => ⟨trivial, nofun, h.1⟩
  | duplicates =>
    obtain ⟨found, hfound⟩ := reads_reportDuplicates hs.resolved.sound
    exact replies_of_ends hfound.ends fun _ _ _ => ⟨trivial, nofun, nofun⟩
  | enclosing id =>
    obtain ⟨symbol, e, hshow, he⟩ := helement id rfl
    refine replies_of_ends (reads_elementAt he).ends fun a t ⟨ha, ht⟩ => ⟨trivial, nofun, fun outer h => ?_⟩
    subst ha ht
    obtain ⟨key, hd⟩ := hs.resolved.sound.covered id (hid id rfl)
    obtain ⟨e', he', -, hold⟩ := hs.resolved.sound.element key id hd
    cases he.symm.trans he'
    -- An element around another one was made before it.
    exact Nat.lt_trans (hold outer (Option.mem_toList.1 h)) (hid id rfl)
  | package id =>
    obtain ⟨symbol, e, hshow, he⟩ := helement id rfl
    refine .reads (reads_elementAt he) (replies_of_ends (packageOf_ends (hid id rfl)) ?_)
    exact fun r t h => ⟨trivial, nofun, fun id hid => h id (Option.mem_toList.1 hid)⟩
  | enclosed id =>
    obtain ⟨symbol, e, hshow, he⟩ := helement id rfl
    refine replies_of_answers ((enclosedOf_answers hshow he).mono
      fun r t _ _ ⟨ids, hr, hlt, _⟩ => ⟨ids, hr, hlt⟩) fun ids t h => ⟨trivial, nofun, h⟩
  | body id =>
    obtain ⟨symbol, e, hshow, he⟩ := helement id rfl
    exact replies_of_answers (bodyOf_answers hshow) fun r t h =>
      ⟨trivial, nofun, fun id hid => h id (Option.mem_toList.1 hid)⟩
  | superclass id =>
    obtain ⟨symbol, e, hshow, he⟩ := helement id rfl
    refine replies_of_honours (superclassOf_honours hshow) (fun e he => ?_)
      fun type v t _ h => ⟨trivial, List.forall_mem_singleton.2 h.1, nofun⟩
    exact he.imp_right fun h => ⟨id, symbol, rfl, hshow, h⟩
  | interfaces id =>
    obtain ⟨symbol, e, hshow, he⟩ := helement id rfl
    refine replies_of_honours (interfacesOf_honours hshow) (fun e he => ?_)
      fun types vs t _ h => ⟨trivial, fun type ht => ?_, nofun⟩
    · exact he.imp_right fun h => ⟨id, symbol, rfl, hshow, h⟩
    · exact h.holds type ht
  | ownType id =>
    obtain ⟨symbol, e, hshow, he⟩ := helement id rfl
    exact replies_of_ends (ownType_ends hshow) fun type t h =>
      ⟨trivial, List.forall_mem_singleton.2 h.holds, nofun⟩
  | display id =>
    obtain ⟨text, htext⟩ := reads_displayElement hs.resolved (hid id rfl)
    exact replies_of_ends htext.ends fun _ _ _ => ⟨trivial, nofun, nofun⟩
  | elementOf i =>
    refine withType_replies fun type htype => replies_of_honours
      (elementOfType_honours (hreceived type htype)) (fun e he => .inl he) ?_
    intro found symbol t ht h
    refine ⟨trivial, nofun, fun id hid => ?_⟩
    obtain rfl := Option.mem_toList.1 hid
    cases symbol with
    | none => exact h.elim
    | some symbol => exact Session.ShowsType.lt_size ht.resolved.sound h
  | parts i =>
    exact withType_replies fun type htype => .pure fun _ =>
      ⟨trivial, (hreceived type htype).parts, nofun⟩
  | displayType i =>
    exact withType_replies fun type htype =>
      replies_of_ends (displayType_ends (hreceived type htype)) fun _ _ _ => ⟨trivial, nofun, nofun⟩

/-! ### Elements that a session does not have -/

section Breach

variable {α β : Type} {t : Session} {b : Breach}

/-- A breach stops what follows it. -/
theorem SessionM.run_breach {m : SessionM α} {f : α → SessionM β} (h : m.run.run s = (.error b, t)) :
    (m >>= f).run.run s = (.error b, t) := by
  show (m.run >>= ExceptT.bindCont f).run s = _
  rw [StateT.run_bind, h]
  rfl

theorem Query.run_breach {m : Query α} {f : α → Query β}
    (h : m.run.run.run s = (.error b, t)) : (m >>= f).run.run.run s = (.error b, t) :=
  SessionM.run_breach (m := m.run) (f := ExceptT.bindCont f) h

theorem Query.run_lift_breach {m : SessionM α} {f : α → Query β}
    (h : m.run.run s = (.error b, t)) : (liftM m >>= f : Query β).run.run.run s = (.error b, t) :=
  Query.run_breach (m := liftM m) (SessionM.run_breach (f := fun a => pure (Except.ok a)) h)

end Breach

theorem run_elementAt_foreign {id : ElementId} (h : s.elements.get? id = none) :
    (elementAt id).run.run s = (.error (.foreignElement id), s) := by
  unfold elementAt
  rw [SessionM.run_get_bind, h]
  rfl

theorem Question.known_or_foreign (q : Question) (size : Nat) :
    (∀ id ∈ q.element?, id < size) ∨ ∃ id, q.element? = some id ∧ size ≤ id := by
  cases hq : q.element? with
  | none => exact .inl fun _ h => nomatch h
  | some id =>
    refine (Nat.lt_or_ge id size).imp (fun hlt k hk => ?_) fun hle => ⟨id, rfl, hle⟩
    cases hk
    exact hlt

/-- **A question about an element that the session does not have** is stopped, and changes nothing. -/
theorem Question.query_foreign {received : List ModelType} {id : ElementId}
    (hq : q.element? = some id) (hid : s.elements.get? id = none) :
    (q.query received).run.run.run s = (.error (.foreignElement id), s) := by
  have hbreach := run_elementAt_foreign hid
  cases q with
  | enclosing => cases hq; exact Query.run_lift_breach hbreach
  | package => cases hq; exact Query.run_lift_breach hbreach
  | enclosed => cases hq; exact Query.run_breach (Query.run_lift_breach hbreach)
  | body => cases hq; exact Query.run_breach (Query.run_lift_breach hbreach)
  | superclass => cases hq; exact Query.run_breach (Query.run_lift_breach hbreach)
  | interfaces => cases hq; exact Query.run_breach (Query.run_lift_breach hbreach)
  | ownType =>
    cases hq
    have hown : (JavaAbi.ownType id).run.run s = (.error (.foreignElement id), s) := by
      show (ownTypeWithin (s.elements.size + 1) id).run.run s = _
      exact SessionM.run_breach hbreach
    exact Query.run_lift_breach hown
  | display =>
    cases hq
    exact Query.run_lift_breach (m := displayElement id) (SessionM.run_breach hbreach)
  | _ => cases hq

end Ask

/-! ### Clients -/

namespace Client

/-- What is so of a client between questions. -/
structure Fits (w : World) (c : Client) : Prop where
  idle : c.session.Idle w
  types : ∀ type ∈ c.types, c.session.Holds w type

variable {w : World} {c : Client} {q : Question}

/-- **What a question does.** The client stays as it has to be, and the reply is as promised. -/
theorem ask_replies (h : c.Fits w) (hid : ∀ id ∈ q.element?, id < c.session.elements.size) :
    (c.ask q).2.Fits w ∧ c.session.Learns w (c.ask q).2.session ∧
      ∃ r, (c.ask q).1 = replyOf (.ok r) ∧ w.Promises c.session q r (c.ask q).2.session := by
  obtain ⟨_, t, hrun, ht, hg, r, rfl, hr⟩ := Question.query_replies h.types hid h.idle
  have hrun' : (q.query c.types).run.run.run c.session = (.ok r, t) := hrun
  unfold ask
  rw [hrun']
  refine ⟨⟨ht, fun type htype => ?_⟩, hg, r, rfl, hr⟩
  rcases List.mem_append.1 htype with htype | htype
  · exact (h.types type htype).learn h.idle.resolved.sound hg
  · cases r with
    | ok reply => exact hr.2.1 type htype
    | error e => cases htype

/-- Questions about elements of the session, or about none, are not stopped, and have only the errors
    that they may have. -/
theorem ask_reply (h : c.Fits w) (hid : ∀ id ∈ q.element?, id < c.session.elements.size) :
    (c.ask q).1.IsAnswer ∨ ∃ e, (c.ask q).1 = .unanswered e ∧ w.Blames c.session q e := by
  obtain ⟨-, -, r, hr, hpromise⟩ := ask_replies h hid
  rw [hr]
  cases r with
  | ok reply => exact .inl hpromise.1
  | error e => exact .inr ⟨e, rfl, hpromise⟩

/-- A question about an element that the session does not have is stopped, and changes nothing. -/
theorem ask_foreign {id : ElementId} (hq : q.element? = some id)
    (hid : c.session.elements.size ≤ id) : c.ask q = (.stopped (.foreignElement id), c) := by
  have hget : c.session.elements.get? id = none := Array.getElem?_eq_none hid
  unfold ask
  rw [Question.query_foreign hq hget]
  show (Reply.stopped (.foreignElement id), (⟨c.session, c.types ++ []⟩ : Client)) = _
  rw [List.append_nil]

/-- Every question leaves a client as it has to be. -/
theorem fits_ask (h : c.Fits w) (q : Question) :
    (c.ask q).2.Fits w ∧ c.session.Learns w (c.ask q).2.session := by
  rcases q.known_or_foreign c.session.elements.size with hid | ⟨id, hq, hid⟩
  · obtain ⟨hfits, hg, -⟩ := ask_replies h hid
    exact ⟨hfits, hg⟩
  · rw [ask_foreign hq hid]
    exact ⟨h, .refl _⟩

/-- **Whatever is asked, a client stays as it has to be.** -/
theorem fits_askAll (h : c.Fits w) (questions : List Question) :
    (c.askAll questions).Fits w ∧ c.session.Learns w (c.askAll questions).session := by
  induction questions generalizing c with
  | nil => exact ⟨h, .refl _⟩
  | cons q rest ih =>
    obtain ⟨hfits, hg⟩ := fits_ask h q
    obtain ⟨hfits', hg'⟩ := ih hfits
    exact ⟨hfits', hg.trans hg'⟩

/-! ### New clients -/

/-- The world of a new client. -/
def world (token : SessionToken) (files : Batch) (provider : Provider) (config : ModelConfig) :
    World := (start token files provider config).session.world

variable (token : SessionToken) (files : Batch) (provider : Provider) (config : ModelConfig)

/-- The trees of the world of a client are sound, with the names of the batch. -/
theorem trees_world : ∀ u ∈ (world token files provider config).units,
    u.Sound (parseBatch files).2.1 False :=
  fun u hu => (parseBatch_sound files u hu).weaken (.refl _) False.elim

/-- The names of the world of a client are those of the index, and some more. -/
theorem names_world : (DeclIndex.ofUnits (parseBatch files).1 (parseBatch files).2.1).2.Le
    (world token files provider config).names :=
  (WellKnown.issued_ofConfig config _).1

/-- **A new client is as it has to be.** -/
theorem fits_start : (start token files provider config).Fits (world token files provider config) :=
  ⟨Session.idle_start (trees_world token files provider config), nofun⟩

/-- So is a client of a new session after any questions. -/
theorem fits_asked (questions : List Question) :
    ((start token files provider config).askAll questions).Fits
      (world token files provider config) :=
  (fits_askAll (fits_start token files provider config) questions).1

end Client

end JavaAbi
