import JavaAbi.Proofs.Clients
import JavaAbi.Proofs.TwinSessions

namespace JavaAbi

/-!
# Twin runs

Work in two sessions that have learnt the same: it ends in sessions that have learnt the same, with
corresponding answers, or is stopped by corresponding breaches. Whether an element has to be made first
does not matter, since making elements changes nothing that is remembered.

* `Twins.Runs`, `Twins.Asks` — the judgement, for work and for queries;
* `Runs.bind`, `Asks.bind` — its main rules;
* `Alike.carry`, `Alike.remember` — changes after which two sessions have still learnt the same;
* `canonical_asks`, `elementAt_runs` — elements.
-/

open Course

variable {w w' : World} {T : Twins w w'} {s s' t t' : Session} {α β γ δ : Type}

namespace Twins

/-! ### Changes of two sessions -/

/-- Where nothing is remembered of one of two elements, nothing is of the other. -/
theorem Alike.recalled (h : T.Alike s s') (hl : Later s s' t t') (ht : t.Sound) (ht' : t'.Sound)
    {key key' : ElementKey} {id id' : ElementId} (hd : t.Denotes key id)
    (hd' : t'.Denotes key' id') (hk : T.Keys t.names t'.names key key') :
    T.Memories t t' key (s.memory id) (s'.memory id') := by
  have hsame : T.Same t t' id id' := ⟨key, key', hd, hd', hk⟩
  have hold : T.Same s s' id id' → T.Memories t t' key (s.memory id) (s'.memory id') := by
    rintro ⟨k, k', hkd, hkd', hkk⟩
    obtain rfl := ht.unique _ _ _ (hkd.last hl.left) hd
    exact (h.memory _ _ _ _ hkd hkd' hkk).later hl
  by_cases hm : s.memory id = .blank
  · by_cases hm' : s'.memory id' = .blank
    · rw [hm, hm']
      exact .blank key
    · obtain ⟨other, hother⟩ := h.partner' id' hm'
      obtain rfl := (hother.later hl).injective hsame ht'
      exact hold hother
  · obtain ⟨other, hother⟩ := h.partner id hm
    obtain rfl := (hother.later hl).functional hsame ht
    exact hold hother

/-- **A change of what is not remembered.** -/
theorem Alike.carry (h : T.Alike s s') (ht : t.Steady w) (ht' : t'.Steady w')
    (hl : Later s s' t t') (hm : t.memory = s.memory) (hm' : t'.memory = s'.memory)
    (hcells : ∀ c : Nat, Option.Rel (Option.Rel (OutcomeAlike (T.Same t t')))
      (t.cells[c]?.map Cell.outcome) (t'.cells[c]?.map Cell.outcome)) : T.Alike t t' where
  left := ht
  right := ht'
  cells := hcells
  memory key key' id id' hd hd' hk := by
    rw [hm, hm']
    exact h.recalled hl ht.sound ht'.sound hd hd' hk
  partner id hid := by
    obtain ⟨id', hsame⟩ := h.partner id (hm ▸ hid)
    exact ⟨id', hsame.later hl⟩
  partner' id' hid' := by
    obtain ⟨id, hsame⟩ := h.partner' id' (hm' ▸ hid')
    exact ⟨id, hsame.later hl⟩

theorem Alike.cells_later (h : T.Alike s s') (hl : Later s s' t t') (c : Nat) :
    Option.Rel (Option.Rel (OutcomeAlike (T.Same t t')))
      (s.cells[c]?.map Cell.outcome) (s'.cells[c]?.map Cell.outcome) :=
  Option.Rel.mono (h.cells c) fun _ _ ho => Option.Rel.mono ho fun _ _ hr =>
    hr.mono fun _ _ hs => hs.later hl

/-- **A change of what is remembered of two elements.** -/
theorem Alike.remember (h : T.Alike s s') (ht : t.Steady w) (ht' : t'.Steady w')
    (hl : Later s s' t t') {a a' : ElementId} (hm : ∀ id, id ≠ a → t.memory id = s.memory id)
    (hm' : ∀ id, id ≠ a' → t'.memory id = s'.memory id) (hc : t.cells = s.cells)
    (hc' : t'.cells = s'.cells) {key key' : ElementKey} (hd : s.Denotes key a)
    (hd' : s'.Denotes key' a') (hk : T.Keys s.names s'.names key key')
    (hnew : T.Memories t t' key (t.memory a) (t'.memory a')) : T.Alike t t' := by
  have hsame : T.Same t t' a a' := Same.later ⟨key, key', hd, hd', hk⟩ hl
  constructor
  case left => exact ht
  case right => exact ht'
  case cells =>
    rw [hc, hc']
    exact h.cells_later hl
  case memory =>
    intro k k' id id' hkd hkd' hkk
    have hother : T.Same t t' id id' := ⟨k, k', hkd, hkd', hkk⟩
    -- Another pair of elements is one for which nothing has changed.
    by_cases hid : id = a
    · obtain rfl := hid
      obtain rfl := hother.functional hsame ht.sound
      obtain rfl := ht.sound.unique _ _ _ hkd (hd.last hl.left)
      exact hnew
    · have hid' : id' ≠ a' := by
        rintro rfl
        exact hid (hother.injective hsame ht'.sound)
      rw [hm id hid, hm' id' hid']
      exact h.recalled hl ht.sound ht'.sound hkd hkd' hkk
  case partner =>
    intro id hid
    by_cases heq : id = a
    · exact ⟨a', heq ▸ hsame⟩
    · obtain ⟨id', hother⟩ := h.partner id (hm id heq ▸ hid)
      exact ⟨id', hother.later hl⟩
  case partner' =>
    intro id' hid'
    by_cases heq : id' = a'
    · exact ⟨a, heq ▸ hsame⟩
    · obtain ⟨id, hother⟩ := h.partner' id' (hm' id' heq ▸ hid')
      exact ⟨id, hother.later hl⟩

/-! ### The judgement -/

/-- Breaches that correspond. -/
inductive Breaks (T : Twins w w') (s s' : Session) : Breach → Breach → Prop
  | nested {id id' : ElementId} (h : T.Same s s' id id') :
      Breaks T s s' (.nestedSupertypes id) (.nestedSupertypes id')
  | endless : Breaks T s s' .endlessSupertypes .endlessSupertypes

/-- Ends of two runs that correspond. -/
inductive Ends (T : Twins w w') (rel : α → β → Session → Session → Prop) (s s' : Session) :
    Except Breach α → Except Breach β → Prop
  | ok {a : α} {b : β} (h : rel a b s s') : Ends T rel s s' (.ok a) (.ok b)
  | stopped {b b' : Breach} (h : T.Breaks s s' b b') : Ends T rel s s' (.error b) (.error b')

/-- **Work in twin sessions.** -/
def Runs (T : Twins w w') (s s' : Session) (m : SessionM α) (m' : SessionM β)
    (rel : α → β → Session → Session → Prop) : Prop :=
  T.Alike s s' → ∃ r r' t t', m.run.run s = (r, t) ∧ m'.run.run s' = (r', t') ∧ T.Alike t t' ∧
    Later s s' t t' ∧ T.Ends rel t t' r r'

/-- **Queries in twin sessions.** -/
def Asks (T : Twins w w') (s s' : Session) (q : Query α) (q' : Query β)
    (rel : α → β → Session → Session → Prop) : Prop :=
  T.Runs s s' q.run q'.run fun r r' t t' => OutcomeAlike (fun a b => rel a b t t') r r'

/-- The answers are the same. -/
def equal (a b : α) (_ _ : Session) : Prop := a = b

/-- The answers are corresponding elements. -/
def same (T : Twins w w') (id id' : ElementId) (t t' : Session) : Prop := T.Same t t' id id'

/-- The answers are corresponding elements, in order. -/
def allSame (T : Twins w w') (ids ids' : List ElementId) (t t' : Session) : Prop :=
  List.Forall₂ (T.Same t t') ids ids'

/-- The answers are corresponding types. -/
def typed (T : Twins w w') (a b : ModelType) (t t' : Session) : Prop :=
  ModelType.Alike (T.resemblance t t') a b

/-- The answers are names of one text. -/
def agreed (n n' : Name) (t t' : Session) : Prop := t.names.Agree t'.names n n'

/-- Both have an answer, or neither. -/
def optional (rel : α → β → Session → Session → Prop) (a : Option α) (b : Option β)
    (t t' : Session) : Prop :=
  Option.Rel (fun a b => rel a b t t') a b

section Rules

variable {m : SessionM α} {m' : SessionM β} {rel : α → β → Session → Session → Prop}
  {rel' : γ → δ → Session → Session → Prop}

theorem Runs.pure {a : α} {b : β} (h : T.Alike s s' → rel a b s s') :
    T.Runs s s' (pure a) (pure b) rel := fun hs =>
  ⟨_, _, s, s', rfl, rfl, hs, .refl s s', .ok (h hs)⟩

/-- That the sessions have learnt the same may be assumed. -/
theorem Runs.alike (h : T.Alike s s' → T.Runs s s' m m' rel) : T.Runs s s' m m' rel :=
  fun hs => h hs hs

/-- Work after other work. -/
theorem Runs.bind {f : α → SessionM γ} {f' : β → SessionM δ} (h : T.Runs s s' m m' rel)
    (hf : ∀ a b t t', T.Alike t t' → Later s s' t t' → rel a b t t' →
      T.Runs t t' (f a) (f' b) rel') :
    T.Runs s s' (m >>= f) (m' >>= f') rel' := by
  intro hs
  obtain ⟨r, r', t, t', hrun, hrun', ht, hl, hend⟩ := h hs
  cases hend with
  | ok hab =>
    obtain ⟨x, x', u, u', hrunf, hrunf', hu, hl', hend⟩ := hf _ _ t t' ht hl hab ht
    exact ⟨x, x', u, u', (SessionM.run_bind hrun).trans hrunf,
      (SessionM.run_bind hrun').trans hrunf', hu, hl.trans hl', hend⟩
  | stopped hb =>
    exact ⟨_, _, t, t', SessionM.run_breach hrun, SessionM.run_breach hrun', ht, hl, .stopped hb⟩

theorem Runs.mono {rel₂ : α → β → Session → Session → Prop} (h : T.Runs s s' m m' rel)
    (hm : ∀ a b t t', T.Alike t t' → Later s s' t t' → rel a b t t' → rel₂ a b t t') :
    T.Runs s s' m m' rel₂ := by
  intro hs
  obtain ⟨r, r', t, t', hrun, hrun', ht, hl, hend⟩ := h hs
  refine ⟨r, r', t, t', hrun, hrun', ht, hl, ?_⟩
  cases hend with
  | ok hab => exact .ok (hm _ _ t t' ht hl hab)
  | stopped hb => exact .stopped hb

/-- Reading the sessions. -/
theorem Runs.read {f : Session → SessionM γ} {f' : Session → SessionM δ}
    (h : T.Runs s s' (f s) (f' s') rel') : T.Runs s s' (get >>= f) (get >>= f') rel' := h

/-- Reading something off both sessions. -/
theorem Runs.reads {f : α → SessionM γ} {f' : β → SessionM δ} {a : α} {b : β} (h : Reads s m a)
    (h' : Reads s' m' b) (hf : T.Runs s s' (f a) (f' b) rel') :
    T.Runs s s' (m >>= f) (m' >>= f') rel' := by
  intro hs
  obtain ⟨r, r', t, t', hrun, hrun', hend⟩ := hf hs
  exact ⟨r, r', t, t', (SessionM.run_bind h).trans hrun, (SessionM.run_bind h').trans hrun', hend⟩

/-- Work that only reads. -/
theorem Runs.of_reads {a : α} {b : β} (h : Reads s m a) (h' : Reads s' m' b)
    (hab : T.Alike s s' → rel a b s s') : T.Runs s s' m m' rel := fun hs =>
  ⟨_, _, s, s', h, h', hs, .refl s s', .ok (hab hs)⟩

end Rules

section Queries

variable {q : Query α} {q' : Query β} {rel : α → β → Session → Session → Prop}
  {rel' : γ → δ → Session → Session → Prop}

theorem Asks.pure {a : α} {b : β} (h : T.Alike s s' → rel a b s s') :
    T.Asks s s' (pure a) (pure b) rel :=
  Runs.pure (a := Except.ok a) (b := Except.ok b) fun hs => .ok (h hs)

theorem Asks.throw (e : ModelError) : T.Asks s s' (throw e : Query α) (throw e : Query β) rel :=
  Runs.pure (a := Except.error e) (b := Except.error e) fun _ => .error e

theorem Asks.alike (h : T.Alike s s' → T.Asks s s' q q' rel) : T.Asks s s' q q' rel :=
  fun hs => h hs hs

theorem Asks.bind {f : α → Query γ} {f' : β → Query δ} (h : T.Asks s s' q q' rel)
    (hf : ∀ a b t t', T.Alike t t' → Later s s' t t' → rel a b t t' →
      T.Asks t t' (f a) (f' b) rel') :
    T.Asks s s' (q >>= f) (q' >>= f') rel' := by
  have hrun : T.Runs s s' (q.run >>= ExceptT.bindCont f) (q'.run >>= ExceptT.bindCont f')
      fun r r' t t' => OutcomeAlike (fun a b => rel' a b t t') r r' := by
    refine Runs.bind h fun r r' t t' ht hl hr => ?_
    cases hr with
    | ok hab => exact hf _ _ t t' ht hl hab
    | error e => exact Runs.pure fun _ => .error e
  exact hrun

theorem Asks.mono {rel₂ : α → β → Session → Session → Prop} (h : T.Asks s s' q q' rel)
    (hm : ∀ a b t t', T.Alike t t' → Later s s' t t' → rel a b t t' → rel₂ a b t t') :
    T.Asks s s' q q' rel₂ :=
  Runs.mono h fun _ _ t t' ht hl hr => hr.mono fun a b hab => hm a b t t' ht hl hab

theorem Asks.map {f : α → γ} {f' : β → δ} (h : T.Asks s s' q q' rel)
    (hf : ∀ a b t t', T.Alike t t' → Later s s' t t' → rel a b t t' → rel' (f a) (f' b) t t') :
    T.Asks s s' (f <$> q) (f' <$> q') rel' := by
  have hq : f <$> q = q >>= fun a => Pure.pure (f a) := rfl
  have hq' : f' <$> q' = q' >>= fun b => Pure.pure (f' b) := rfl
  rw [hq, hq']
  exact h.bind fun a b t t' ht hl hab => .pure fun _ => hf a b t t' ht hl hab

/-- Work in a query. -/
theorem Asks.lift_last {m : SessionM α} {m' : SessionM β} (h : T.Runs s s' m m' rel) :
    T.Asks s s' (liftM m) (liftM m') rel :=
  Runs.bind h fun _ _ _ _ _ _ hab => Runs.pure fun _ => .ok hab

theorem Asks.lift {m : SessionM α} {m' : SessionM β} {f : α → Query γ} {f' : β → Query δ}
    (h : T.Runs s s' m m' rel)
    (hf : ∀ a b t t', T.Alike t t' → Later s s' t t' → rel a b t t' →
      T.Asks t t' (f a) (f' b) rel') :
    T.Asks s s' (liftM m >>= f) (liftM m' >>= f') rel' :=
  (Asks.lift_last h).bind hf

theorem Asks.read {f : Session → Query γ} {f' : Session → Query δ}
    (h : T.Asks s s' (f s) (f' s') rel') : T.Asks s s' (get >>= f) (get >>= f') rel' := h

theorem Asks.reads {m : SessionM α} {m' : SessionM β} {f : α → Query γ} {f' : β → Query δ} {a : α}
    {b : β} (h : Reads s m a) (h' : Reads s' m' b) (hf : T.Asks s s' (f a) (f' b) rel') :
    T.Asks s s' (liftM m >>= f) (liftM m' >>= f') rel' := by
  intro hs
  obtain ⟨r, r', t, t', hrun, hrun', hend⟩ := hf hs
  exact ⟨r, r', t, t', (Query.run_lift_bind h).trans hrun, (Query.run_lift_bind h').trans hrun', hend⟩

/-- Outcomes of queries. -/
theorem Asks.attempt {f : Except ModelError α → Query γ} {f' : Except ModelError β → Query δ}
    (h : T.Asks s s' q q' rel)
    (hf : ∀ r r' t t', T.Alike t t' → Later s s' t t' →
      OutcomeAlike (fun a b => rel a b t t') r r' → T.Asks t t' (f r) (f' r') rel') :
    T.Asks s s' (Query.attempt q >>= f) (Query.attempt q' >>= f') rel' :=
  Asks.lift h hf

theorem Asks.ofExcept {r : Except ModelError α} {r' : Except ModelError β}
    (h : T.Alike s s' → OutcomeAlike (fun a b => rel a b s s') r r') :
    T.Asks s s' (Query.ofExcept r) (Query.ofExcept r') rel :=
  Runs.pure h

/-- A choice that both make alike. -/
theorem Asks.ite {c c' : Prop} [Decidable c] [Decidable c'] {q₂ : Query α} {q₂' : Query β}
    (hc : c ↔ c') (h : T.Asks s s' q q' rel) (h₂ : T.Asks s s' q₂ q₂' rel) :
    T.Asks s s' (if c then q else q₂) (if c' then q' else q₂') rel := by
  by_cases hc' : c'
  · rw [if_pos (hc.2 hc'), if_pos hc']
    exact h
  · rw [if_neg fun h => hc' (hc.1 h), if_neg hc']
    exact h₂

/-- Work on the error of a query. -/
theorem Asks.handle {f : ModelError → Query α} {f' : ModelError → Query β}
    (h : T.Asks s s' q q' rel)
    (hf : ∀ e t t', T.Alike t t' → Later s s' t t' → T.Asks t t' (f e) (f' e) rel) :
    T.Asks s s' (tryCatch q f) (tryCatch q' f') rel := by
  refine Runs.bind h fun r r' t t' ht hl hr => ?_
  cases hr with
  | ok hab => exact Runs.pure fun _ => .ok hab
  | error e => exact hf e t t' ht hl

/-- Queries for the entries of two lists. -/
theorem Asks.mapM {f : γ → Query α} {f' : δ → Query β} {xs : List γ} {ys : List δ}
    (h : List.Forall₂ (fun x y => ∀ t t', T.Alike t t' → Later s s' t t' →
      T.Asks t t' (f x) (f' y) rel) xs ys)
    (hlater : ∀ a b t t' u u', Later t t' u u' → rel a b t t' → rel a b u u')
    (ht : T.Alike t t') (hl : Later s s' t t') :
    T.Asks t t' (xs.mapM f) (ys.mapM f')
      fun as bs u u' => List.Forall₂ (fun a b => rel a b u u') as bs := by
  induction h generalizing t t' with
  | nil =>
    rw [List.mapM_nil, List.mapM_nil]
    exact .pure fun _ => .nil
  | cons hxy _ ih =>
    rw [List.mapM_cons, List.mapM_cons]
    refine (hxy t t' ht hl).bind fun a b u u' hu hl' hab => ?_
    refine (ih hu (hl.trans hl')).bind fun as bs v v' _ hl'' hall => .pure fun _ => ?_
    exact .cons (hlater a b u u' v v' hl'' hab) hall

end Queries

end Twins

/-! ### Making elements -/

namespace Session

variable {id : ElementId} {key key' : ElementKey}

theorem Steady.builds (h : s.Steady w) (ht : t.Sound) (hg : s.Builds t) : t.Steady w :=
  ⟨ht, h.quiet.grow hg, h.of.grow hg.toKeeps⟩

/-- Making elements changes nothing that is remembered. -/
theorem memory_builds (hs : ∀ id, s.memory id ≠ .blank → id < s.elements.size) (hg : s.Builds t) :
    t.memory = s.memory := by
  funext id
  have hlist : t.supertypes.slot? id = s.supertypes.slot? id := by rw [hg.supertypes]
  cases he : s.elements.get? id with
  | some e => exact memory_eq ((hg.elements id e he).trans he.symm) hlist
  | none =>
    have hold : ¬id < s.elements.size := fun hlt => by
      rw [Arena.get?, Array.getElem?_eq_getElem hlt] at he
      cases he
    have hblank : s.memory id = .blank := by
      by_contra hne
      exact hold (hs id hne)
    cases het : t.elements.get? id with
    | none => exact memory_eq (het.trans he.symm) hlist
    | some e =>
      rcases hg.fresh id e het with hse | hbare
      · rw [he] at hse
        cases hse
      · rw [hblank, memory, het, hg.supertypes]
        have hl : (s.supertypes.request id).1 = .construct := congrArg Memory.list hblank
        rw [hl, ← hbare]
        rfl

end Session

namespace Twins

variable {rel : α → β → Session → Session → Prop} {key key' : ElementKey} {id id' : ElementId}

theorem Alike.lt_size (h : T.Alike s s') : ∀ id, s.memory id ≠ .blank → id < s.elements.size := by
  intro id hid
  obtain ⟨_, _, _, hd, -⟩ := h.partner id hid
  exact h.left.sound.lt_size hd

theorem Alike.lt_size' (h : T.Alike s s') :
    ∀ id, s'.memory id ≠ .blank → id < s'.elements.size := by
  intro id hid
  obtain ⟨_, _, _, -, hd, -⟩ := h.partner' id hid
  exact h.right.sound.lt_size hd

/-- Making elements keeps sessions alike. -/
theorem Alike.builds (h : T.Alike s s') (ht : t.Sound) (ht' : t'.Sound) (hg : s.Builds t)
    (hg' : s'.Builds t') : T.Alike t t' ∧ Later s s' t t' := by
  have hl : Later s s' t t' := ⟨hg.toKeeps.lasts, hg'.toKeeps.lasts⟩
  refine ⟨h.carry (h.left.builds ht hg) (h.right.builds ht' hg') hl
    (Session.memory_builds h.lt_size hg) (Session.memory_builds h.lt_size' hg') ?_, hl⟩
  rw [hg.cells, hg'.cells]
  exact h.cells_later hl

/-- Work that makes elements and names only. -/
theorem Runs.builds {m : SessionM α} {m' : SessionM β} {P : α → Session → Prop}
    {P' : β → Session → Prop} (h : building.Ends s m P) (h' : building.Ends s' m' P')
    (hr : ∀ a b t t', T.Alike t t' → Later s s' t t' → P a t → P' b t' → rel a b t t') :
    T.Runs s s' m m' rel := by
  intro hs
  obtain ⟨_, t, hrun, ht, hg, a, rfl, ha⟩ := h hs.left.sound
  obtain ⟨_, t', hrun', ht', hg', b, rfl, hb⟩ := h' hs.right.sound
  obtain ⟨halike, hl⟩ := hs.builds ht ht' hg hg'
  exact ⟨_, _, t, t', hrun, hrun', halike, hl, .ok (hr a b t t' halike hl ha hb)⟩

/-! ### Names -/

theorem internName_runs (text : String) :
    T.Runs s s' (internName text) (internName text) agreed :=
  .builds (internName_ends text) (internName_ends text) fun _ _ _ _ _ _ hn hn' => ⟨text, hn, hn'⟩

theorem nameText_runs {n n' : Name} (hn : s.names.Agree s'.names n n') :
    T.Runs s s' (nameText n) (nameText n') equal :=
  .of_reads (reads_nameText hn.left) (reads_nameText hn.right) fun _ => hn.text

theorem Alike.proper_base (h : T.Alike s s') {n : Name} (hn : T.base.Proper n) :
    s.names.Proper n ∧ s'.names.Proper n :=
  ⟨(hn.le T.base_left).le h.left.of.names, (hn.le T.base_right).le h.right.of.names⟩

/-- A simple name that stands in the trees, in names of one text. -/
theorem qualifyName_runs {outer outer' : Option Name} {simple : Name}
    (ho : Option.Rel (s.names.Agree s'.names) outer outer') (hn : T.base.Proper simple) :
    T.Runs s s' (qualifyName outer simple) (qualifyName outer' simple) agreed := by
  refine .alike fun hs => ?_
  obtain ⟨hp, hp'⟩ := hs.proper_base hn
  refine .builds (qualifyName_ends (NameTable.Agree.outer_left ho) hp)
    (qualifyName_ends (NameTable.Agree.outer_right ho) hp') fun n n' t t' _ _ hn hn' => ⟨_, hn, ?_⟩
  rw [hn', NameTable.Agree.joined ho (hs.agree_base ‹T.base.Proper simple›.1)]

/-! ### Elements of keys -/

/-- **Corresponding keys have corresponding elements**, or none for the same reason. -/
theorem canonical_asks (hk : T.Keys s.names s'.names key key') (ha : s.Askable key)
    (ha' : s'.Askable key') : T.Asks s s' (canonical key) (canonical key') T.same := by
  refine .alike fun hs => ?_
  refine Runs.builds (canonical_answers hs.left.quiet ha) (canonical_answers hs.right.quiet ha')
    fun x x' t t' ht hl hx hx' => ?_
  have hk' := hk.le hl.left.names hl.right.names
  have hout := ht.left.sound.outcome _ _ hx
  rw [ht.outcomeOf_eq hk', ← ht.right.sound.outcome _ _ hx'] at hout
  cases x with
  | ok id =>
    cases x' with
    | ok id' => exact .ok ⟨key, key', hx, hx', hk'⟩
    | error e' => cases hout
  | error e =>
    cases x' with
    | ok id' => cases hout
    | error e' =>
      cases hout
      exact .error e

theorem findType_asks {n n' : Name} (hn : s.names.Agree s'.names n n') :
    T.Asks s s' (findType n) (findType n') T.same :=
  canonical_asks (.type hn) hn.left hn.right

theorem tryType_asks {n n' : Name} (hn : s.names.Agree s'.names n n') :
    T.Asks s s' (tryType n) (tryType n') (optional T.same) := by
  refine (findType_asks hn).attempt fun r r' t t' _ _ hr => ?_
  cases hr with
  | ok hid => exact .pure fun _ => .some hid
  | error e =>
    dsimp only
    split
    · exact .pure fun _ => .none
    · exact .throw e

theorem elementOfDecl_asks {d d' : DeclId} (h : T.Declares s s' d d') :
    T.Asks s s' (elementOfDecl d) (elementOfDecl d') T.same := by
  refine .alike fun hs => ?_
  obtain ⟨i, i', hi, hi', -⟩ := T.info h.decl
  rw [← hs.left.of.index] at hi
  rw [← hs.right.of.index] at hi'
  exact .reads (reads_keyOf hi) (reads_keyOf hi')
    (canonical_asks (hs.keyOf h.decl) h.askable h.askable')

/-! ### Reading corresponding elements -/

theorem elementAt_runs (hid : T.Same s s' id id') :
    T.Runs s s' (elementAt id) (elementAt id') fun e e' t t' => T.Elements t t' id id' e e' := by
  refine .alike fun hs => ?_
  obtain ⟨e, e', he, he', hel⟩ := hs.elements hid
  exact .of_reads (reads_elementAt he) (reads_elementAt he') fun _ => hel

/-- A member type that is found by its simple name. -/
theorem memberTypeNamed_runs {d d' : DeclId} (hd : T.decl d d') (hp : w.index.Primary d)
    (hp' : w'.index.Primary d') (simple : Name) :
    T.Runs s s' (memberTypeNamed d simple) (memberTypeNamed d' simple)
      (optional fun c c' t t' => T.Declares t t' c c') := by
  refine .alike fun hs => ?_
  rw [← hs.left.of.index] at hp
  rw [← hs.right.of.index] at hp'
  obtain ⟨i, hi⟩ := hp.info
  obtain ⟨i', hi'⟩ := hp'.info
  refine .of_reads (reads_memberTypeNamed hs.left.sound hi)
    (reads_memberTypeNamed hs.right.sound hi') fun _ => ?_
  -- Member types correspond, and they have elements where the declarations around them do.
  have hfound := memberType?_twins hd simple
  rw [← hs.left.of.index, ← hs.right.of.index] at hfound
  have hchild (c : DeclId) (h : s.index.memberType? d simple = some c) :=
    childOf_memberType? hs.left.sound h
  have hchild' (c : DeclId) (h : s'.index.memberType? d' simple = some c) :=
    childOf_memberType? hs.right.sound h
  have hone : ∀ q ∈ some d, s.index.Primary q := fun _ hq => Option.some.inj hq ▸ hp
  have hone' : ∀ q ∈ some d', s'.index.Primary q := fun _ hq => Option.some.inj hq ▸ hp'
  rw [optional]
  generalize s.index.memberType? d simple = c, s'.index.memberType? d' simple = c'
    at hfound hchild hchild' ⊢
  cases hfound with
  | none => exact .none
  | some hc =>
    exact .some ⟨hc, (Session.askable_child hs.left.sound hone (hchild _ rfl)).1,
      (Session.askable_child hs.right.sound hone' (hchild' _ rfl)).1⟩

/-! ### Lists of supertypes -/

end Twins

namespace Session

variable {id : ElementId}

/-- The lists of supertypes of a session may change. -/
theorem Steady.with_supertypes (h : s.Steady w) (c : Cache ElementId (List ElementId)) :
    Steady w { s with supertypes := c } := by
  have hk : s.Keeps { s with supertypes := c } := ⟨rfl, .refl _, fun _ _ h => h, fun _ => rfl⟩
  exact ⟨h.sound.carry_cache hk (fun _ => rfl) rfl rfl, h.quiet, h.of.grow hk⟩

theorem lasts_supertypes (s : Session) (c : Cache ElementId (List ElementId)) :
    s.Lasts { s with supertypes := c } := ⟨rfl, .refl _, fun _ _ h => h⟩

/-- It does not matter whether a search was cut off. -/
theorem Describes.cutOff {key : ElementKey} {e : Element} (h : s.Describes key e) :
    Describes { s with cutOff := true } key e := by
  cases h with
  | package issued text => exact .package issued text
  | tree primary info tree enclosing =>
    refine .tree (s := { s with cutOff := true }) primary info tree ?_
    generalize s.index.outerKey? _ = outer at enclosing
    cases outer <;> exact enclosing
  | field member declarator owned => exact .field (s := { s with cutOff := true }) member declarator owned
  | constant member owned => exact .constant (s := { s with cutOff := true }) member owned
  | described issued undeclared answer named simple params surrounds =>
    refine .described (s := { s with cutOff := true }) issued undeclared answer named simple params ?_
    cases surrounds with
    | type points text denotes => exact .type points text denotes
    | package without text encloses =>
      refine .package without text ?_
      generalize DeclIndex.packageKey? _ = outer at encloses
      cases outer <;> exact encloses

theorem Steady.cutOff (h : s.Steady w) : Steady w { s with cutOff := true } where
  sound :=
    { h.sound with
      askable := fun key x hx => by
        have ha := h.sound.askable key x hx
        cases key <;> exact ha
      outcome := fun key r hr => by
        have ho := h.sound.outcome key r hr
        cases key <;> exact ho
      element := fun key id hd => by
        obtain ⟨e, he, hdesc, hold⟩ := h.sound.element key id hd
        exact ⟨e, he, hdesc.cutOff, hold⟩ }
  quiet := h.quiet
  of := ⟨h.of.base, h.of.names⟩

/-- A request changes no slot but that of its own key. -/
theorem slot?_listing_ne {k : ElementId} (h : k ≠ id) :
    (s.listing id).supertypes.slot? k = s.supertypes.slot? k := by
  rcases s.supertypes.request_eq id with ⟨_, -, -, hsame⟩ | ⟨-, -, hsame⟩ | ⟨hnew, -, -⟩
  · exact congrFun hsame k
  · exact congrFun hsame k
  · exact (slot?_listing hnew k).trans (if_neg h)

end Session

section Lists

variable {c : Cache ElementId (List ElementId)} {id : ElementId}

/-- What a request meets in a slot. -/
def Slot.met : Option (Slot (List ElementId)) → Request (List ElementId)
  | some (.ready ids) => .found ids
  | some .building => .reentrant
  | _ => .construct

/-- What the next request meets, after one that met this. -/
def Request.again : Request (List ElementId) → Request (List ElementId)
  | .construct => .reentrant
  | r => r

theorem Cache.request_eq_met : (c.request id).1 = Slot.met (c.slot? id) := by
  rcases c.request_eq id with ⟨ids, hslot, hr, -⟩ | ⟨hslot, hr, -⟩ | ⟨hslot | hslot, hr, -⟩ <;>
    rw [hr, hslot] <;> rfl

/-- A second request meets what the first one met, or the making that it began. -/
theorem Cache.request_again : ((c.request id).2.request id).1 = (c.request id).1.again := by
  rw [request_eq_met]
  rcases c.request_eq id with ⟨ids, hslot, hr, hsame⟩ | ⟨hslot, hr, hsame⟩ | ⟨-, hr, hnew⟩
  · rw [hr, hsame, hslot]
    rfl
  · rw [hr, hsame, hslot]
    rfl
  · rw [hr, hnew, if_pos rfl]
    rfl

end Lists

namespace Twins

variable {rel : α → β → Session → Session → Prop} {key key' : ElementKey} {id id' : ElementId}

/-- **A change of the lists of two elements.** -/
theorem Alike.with_supertypes (h : T.Alike s s') (hid : T.Same s s' id id')
    (c c' : Cache ElementId (List ElementId))
    (hc : ∀ k, k ≠ id → c.slot? k = s.supertypes.slot? k)
    (hc' : ∀ k, k ≠ id' → c'.slot? k = s'.supertypes.slot? k)
    (hnew : Request.Alike (List.Forall₂ (T.Same s s')) (c.request id).1 (c'.request id').1) :
    T.Alike { s with supertypes := c } { s' with supertypes := c' } ∧
      Later s s' { s with supertypes := c } { s' with supertypes := c' } := by
  have hl : Later s s' { s with supertypes := c } { s' with supertypes := c' } :=
    ⟨s.lasts_supertypes c, s'.lasts_supertypes c'⟩
  obtain ⟨key, key', hd, hd', hk⟩ := hid
  refine ⟨h.remember (h.left.with_supertypes c) (h.right.with_supertypes c') hl
    (fun k hne => Session.memory_eq rfl (hc k hne)) (fun k hne => Session.memory_eq rfl (hc' k hne))
    rfl rfl hd hd' hk ?_, hl⟩
  have hold := (h.memory key key' id id' hd hd' hk).later hl
  exact { hold with list := hnew.mono fun _ _ hs => hs.imp fun _ _ hs => hs.later hl }

/-- Requests of the lists of corresponding elements meet the same. -/
theorem requestSupertypes_runs (hid : T.Same s s' id id') :
    T.Runs s s' (requestSupertypes id) (requestSupertypes id') fun r r' t t' =>
      Request.Alike (List.Forall₂ (T.Same t t')) r r' := by
  intro hs
  have hmet : Request.Alike (List.Forall₂ (T.Same s s')) (s.supertypes.request id).1
      (s'.supertypes.request id').1 := by
    obtain ⟨key, key', hd, hd', hk⟩ := hid
    exact (hs.memory key key' id id' hd hd' hk).list
  have hnext : Request.Alike (List.Forall₂ (T.Same s s'))
      ((s.supertypes.request id).2.request id).1 ((s'.supertypes.request id').2.request id').1 := by
    rw [Cache.request_again, Cache.request_again]
    generalize (s.supertypes.request id).1 = r, (s'.supertypes.request id').1 = r' at hmet ⊢
    cases hmet with
    | found h => exact .found h
    | reentrant => exact .reentrant
    | construct => exact .reentrant
  obtain ⟨halike, hl⟩ := hs.with_supertypes hid (s.supertypes.request id).2
    (s'.supertypes.request id').2 (fun _ => Session.slot?_listing_ne)
    (fun _ => Session.slot?_listing_ne) hnext
  exact ⟨_, _, _, _, run_requestSupertypes s id, run_requestSupertypes s' id', halike, hl,
    .ok (hmet.mono fun _ _ h => h.imp fun _ _ h => h.later hl)⟩

theorem finishSupertypes_runs (hid : T.Same s s' id id') {ids ids' : List ElementId}
    (hids : List.Forall₂ (T.Same s s') ids ids') :
    T.Runs s s' (finishSupertypes id ids) (finishSupertypes id' ids') fun _ _ _ _ => True := by
  intro hs
  obtain ⟨halike, hl⟩ := hs.with_supertypes hid (s.supertypes.finish id ids)
    (s'.supertypes.finish id' ids')
    (fun k hne => (Cache.slot?_finish ..).trans (if_neg hne))
    (fun k hne => (Cache.slot?_finish ..).trans (if_neg hne)) (by
      rw [Cache.request_eq_met, Cache.request_eq_met, Cache.slot?_finish, Cache.slot?_finish,
        if_pos rfl, if_pos rfl]
      exact .found hids)
  exact ⟨_, _, _, _, rfl, rfl, halike, hl, .ok trivial⟩

theorem abandonSupertypes_runs (hid : T.Same s s' id id') :
    T.Runs s s' (abandonSupertypes id) (abandonSupertypes id') fun _ _ _ _ => True := by
  intro hs
  obtain ⟨halike, hl⟩ := hs.with_supertypes hid (s.supertypes.abandon id) (s'.supertypes.abandon id')
    (fun k hne => (Cache.slot?_abandon ..).trans (if_neg hne))
    (fun k hne => (Cache.slot?_abandon ..).trans (if_neg hne)) (by
      rw [Cache.request_eq_met, Cache.request_eq_met, Cache.slot?_abandon, Cache.slot?_abandon,
        if_pos rfl, if_pos rfl]
      exact .construct)
  exact ⟨_, _, _, _, rfl, rfl, halike, hl, .ok trivial⟩

theorem Breaks.later {b b' : Breach} (h : T.Breaks s s' b b') (hl : Later s s' t t') :
    T.Breaks t t' b b' := by
  cases h with
  | nested hid => exact .nested (hid.later hl)
  | endless => exact .endless

/-- Work that is undone where a breach stops it. -/
theorem Runs.guarded {undo undo' : SessionM Unit} {m : SessionM α} {m' : SessionM β}
    (h : T.Runs s s' m m' rel)
    (hundo : ∀ t t', T.Alike t t' → Later s s' t t' →
      T.Runs t t' undo undo' fun _ _ _ _ => True) :
    T.Runs s s' (guarded undo m) (guarded undo' m') rel := by
  intro hs
  obtain ⟨r, r', t, t', hrun, hrun', ht, hl, hend⟩ := h hs
  cases hend with
  | ok hab => exact ⟨_, _, t, t', run_guarded undo hrun, run_guarded undo' hrun', ht, hl, .ok hab⟩
  | @stopped b b' hb =>
    have hstop : ∀ {γ : Type} {undo : SessionM Unit} {m : SessionM γ} {s t : Session} {b : Breach},
        m.run.run s = (.error b, t) → (JavaAbi.guarded undo m).run.run s =
          (undo >>= fun _ => throw b : SessionM γ).run.run t := by
      intro γ undo m s t b hrun
      rw [JavaAbi.guarded, ExceptT.run_tryCatch, StateT.run_bind, hrun]
      rfl
    have hthrow : T.Runs t t' (undo >>= fun _ => throw b : SessionM α)
        (undo' >>= fun _ => throw b' : SessionM β) rel :=
      (hundo t t' ht hl).bind fun _ _ u u' hu hl' _ => fun _ =>
        ⟨_, _, u, u', rfl, rfl, hu, .refl u u', .stopped (hb.later hl')⟩
    obtain ⟨x, x', u, u', hx, hx', hu, hl', hend⟩ := hthrow ht
    exact ⟨x, x', u, u', (hstop hrun).trans hx, (hstop hrun').trans hx', hu, hl.trans hl', hend⟩

/-! ### Cells -/

/-- A change of cells. -/
theorem Alike.with_cells (h : T.Alike s s') (cells cells' : Array Cell)
    (hc : ∀ c : Nat, Option.Rel (Option.Rel (OutcomeAlike (T.Same s s')))
      (cells[c]?.map Cell.outcome) (cells'[c]?.map Cell.outcome)) :
    T.Alike { s with cells } { s' with cells := cells' } ∧
      Later s s' { s with cells } { s' with cells := cells' } := by
  have hsteady : ∀ {s : Session} {w : World} (cells : Array Cell), s.Steady w →
      Session.Steady w { s with cells } := fun {s} _ cells h =>
    ⟨h.sound.carry_cache (s.keeps_cells cells) (fun _ => rfl) rfl rfl, h.quiet,
      h.of.grow (s.keeps_cells cells)⟩
  have hl : Later s s' { s with cells } { s' with cells := cells' } :=
    ⟨(s.keeps_cells cells).lasts, (s'.keeps_cells cells').lasts⟩
  refine ⟨h.carry (hsteady cells h.left) (hsteady cells' h.right) hl rfl rfl fun c => ?_, hl⟩
  exact Option.Rel.mono (hc c) fun _ _ ho => Option.Rel.mono ho fun _ _ hr =>
    hr.mono fun _ _ hs => hs.later hl

/-- Two sessions have as many cells. -/
theorem Alike.cells_size (h : T.Alike s s') : s.cells.size = s'.cells.size := by
  have hnone : ∀ c, s.cells.size ≤ c ↔ s'.cells.size ≤ c := by
    intro c
    have hc := h.cells c
    rw [← Array.getElem?_eq_none_iff, ← Array.getElem?_eq_none_iff]
    generalize s.cells[c]? = x, s'.cells[c]? = x' at hc ⊢
    cases x <;> cases x' <;> cases hc <;> simp
  exact Nat.le_antisymm ((hnone _).2 (Nat.le_refl _)) ((hnone _).1 (Nat.le_refl _))

theorem newCell_runs (r r' : TypeReference) :
    T.Runs s s' (newCell r) (newCell r') equal := by
  intro hs
  have hsize := hs.cells_size
  obtain ⟨halike, hl⟩ := hs.with_cells (s.cells.push { reference := r })
    (s'.cells.push { reference := r' }) (fun c => by
      rw [Array.getElem?_push, Array.getElem?_push, hsize]
      split
      · exact .some .none
      · exact hs.cells c)
  exact ⟨_, _, _, _, rfl, rfl, halike, hl, .ok hsize⟩

theorem keepOutcome_runs {cell : Nat} {r r' : Except ModelError ElementId}
    (hr : OutcomeAlike (T.Same s s') r r') :
    T.Runs s s' (keepOutcome cell r) (keepOutcome cell r') fun _ _ _ _ => True := by
  intro hs
  obtain ⟨halike, hl⟩ := hs.with_cells
    (s.cells.modify cell fun c => { c with outcome := some r })
    (s'.cells.modify cell fun c => { c with outcome := some r' }) (fun c => by
      have hc := hs.cells c
      rw [Array.getElem?_modify, Array.getElem?_modify]
      generalize s.cells[c]? = x, s'.cells[c]? = x' at hc ⊢
      split
      · cases x <;> cases x' <;> cases hc
        · exact .none
        · exact .some (.some hr)
      · exact hc)
  exact ⟨_, _, _, _, rfl, rfl, halike, hl, .ok trivial⟩

/-- What is noted of a search that is cut off. -/
theorem noteCutOff_runs :
    T.Runs s s' (modify fun s => { s with cutOff := true })
      (modify fun s => { s with cutOff := true }) fun _ _ _ _ => True := by
  intro hs
  have hl : Later s s' { s with cutOff := true } { s' with cutOff := true } :=
    ⟨⟨rfl, .refl _, fun _ _ h => h⟩, ⟨rfl, .refl _, fun _ _ h => h⟩⟩
  exact ⟨_, _, _, _, rfl, rfl, hs.carry hs.left.cutOff hs.right.cutOff hl rfl rfl fun c =>
    hs.cells_later hl c, hl, .ok trivial⟩

end Twins

/-! ### Kept answers -/

/-- What an element keeps, with its list of supertypes. -/
def Element.memory (e : Element) (list : Request (List ElementId)) : Memory where
  list := list
  ownType := e.ownType
  superclass := e.superclass
  interfaces := e.interfaces
  enclosed := e.enclosed

namespace Session

variable {id : ElementId} {e : Element}

theorem memory_of_get (he : s.elements.get? id = some e) :
    s.memory id = e.memory (s.supertypes.request id).1 := by
  rw [Session.memory, he]
  rfl

theorem keeps_replaced (s : Session) (id : ElementId) (e : Element) : s.Keeps (s.replaced id e) :=
  ⟨rfl, .refl _, fun _ _ h => h, fun _ => rfl⟩

/-- An element may come to keep other answers. -/
theorem Steady.replaced (h : s.Steady w) {x : Element} (he : s.elements.get? id = some e)
    (hbare : x.bare = e.bare) : (s.replaced id x).Steady w := by
  refine ⟨h.sound.carry_cache (s.keeps_replaced id x) (fun k => ?_) rfl rfl, h.quiet,
    h.of.grow (s.keeps_replaced id x)⟩
  refine (congrArg _ (s.elements.get?_set? x (Array.getElem?_eq_some_iff.1 he).1 k)).trans ?_
  split
  · rename_i heq
    rw [← heq, he, Option.map_some, Option.map_some, hbare]
  · rfl

end Session

namespace Twins

variable {id id' : ElementId}

/-- **Two elements come to keep corresponding answers.** -/
theorem updateElement_runs {f f' : Element → Element} (hid : T.Same s s' id id')
    (hbare : ∀ e, (f e).bare = e.bare) (hbare' : ∀ e, (f' e).bare = e.bare)
    (hnew : ∀ key e e' list list', s.Denotes key id →
      T.Memories s s' key (e.memory list) (e'.memory list') →
      T.Memories s s' key ((f e).memory list) ((f' e').memory list')) :
    T.Runs s s' (updateElement id f) (updateElement id' f') fun _ _ _ _ => True := by
  intro hs
  obtain ⟨e, e', he, he', -⟩ := hs.elements hid
  obtain ⟨key, key', hd, hd', hk⟩ := hid
  have hget := s.elements.get?_set? (f e) (Array.getElem?_eq_some_iff.1 he).1
  have hget' := s'.elements.get?_set? (f' e') (Array.getElem?_eq_some_iff.1 he').1
  have hl : Later s s' (s.replaced id (f e)) (s'.replaced id' (f' e')) :=
    ⟨(s.keeps_replaced id (f e)).lasts, (s'.keeps_replaced id' (f' e')).lasts⟩
  refine ⟨_, _, _, _, run_updateElement he, run_updateElement he', ?_, hl, .ok trivial⟩
  refine hs.remember (hs.left.replaced he (hbare e)) (hs.right.replaced he' (hbare' e')) hl
    (fun k hne => Session.memory_eq ((hget k).trans (if_neg hne.symm)) rfl)
    (fun k hne => Session.memory_eq ((hget' k).trans (if_neg hne.symm)) rfl) rfl rfl hd hd' hk ?_
  rw [Session.memory_of_get ((hget id).trans (if_pos rfl)),
    Session.memory_of_get ((hget' id').trans (if_pos rfl))]
  have hold := hs.memory key key' id id' hd hd' hk
  rw [Session.memory_of_get he, Session.memory_of_get he'] at hold
  exact (hnew key e e' _ _ hd hold).later hl

end Twins

end JavaAbi
