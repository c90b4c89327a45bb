import JavaAbi.Model.Session
import JavaAbi.Proofs.Courses

namespace JavaAbi

/-!
# Work in a session

The judgement of courses, for work that a breach can stop and for queries that can fail. What is
proved of both is that no breach stops them.

* `Course.Ends` — session work that ends without a breach;
* `Course.Answers` — a query that ends without a breach, with a promise for both outcomes.
-/

/-! ### Runs -/

section Runs

variable {α β : Type} {s t : Session}

theorem SessionM.run_bind {m : SessionM α} {f : α → SessionM β} {a : α}
    (h : m.run.run s = (.ok a, t)) : (m >>= f).run.run s = (f a).run.run t := by
  show (m.run >>= ExceptT.bindCont f).run s = _
  rw [StateT.run_bind, h]
  rfl

theorem SessionM.run_get_bind {f : Session → SessionM α} :
    (get >>= f).run.run s = (f s).run.run s := rfl

theorem Query.run_get_bind {f : Session → Query α} :
    (get >>= f).run.run.run s = (f s).run.run.run s := rfl

theorem Query.run_bind {q : Query α} {f : α → Query β} {r : Except ModelError α}
    (h : q.run.run.run s = (.ok r, t)) : (q >>= f).run.run.run s = match r with
      | .ok a => (f a).run.run.run t
      | .error e => (.ok (.error e), t) := by
  have hb : (q >>= f).run.run.run s = (ExceptT.bindCont f r).run.run t :=
    SessionM.run_bind (m := q.run) (f := ExceptT.bindCont f) h
  rw [hb]
  cases r <;> rfl

/-- Session work always has an answer. -/
theorem Query.run_lift_bind {m : SessionM α} {f : α → Query β} {a : α}
    (h : m.run.run s = (.ok a, t)) : (liftM m >>= f).run.run.run s = (f a).run.run.run t := by
  have hl : (liftM m : Query α).run.run.run s = (.ok (.ok a), t) :=
    SessionM.run_bind (m := m) (f := fun a => pure (Except.ok a)) h
  rw [Query.run_bind hl]

theorem Query.run_attempt_bind {q : Query α} {f : Except ModelError α → Query β}
    {r : Except ModelError α} (h : q.run.run.run s = (.ok r, t)) :
    (Query.attempt q >>= f).run.run.run s = (f r).run.run.run t :=
  Query.run_lift_bind (m := q.run) h

/-- Where no breach stops the work, there is nothing to undo. -/
theorem run_guarded (undo : SessionM Unit) {m : SessionM α} {a : α}
    (h : m.run.run s = (.ok a, t)) : (guarded undo m).run.run s = (.ok a, t) := by
  rw [guarded, ExceptT.run_tryCatch, StateT.run_bind, h]
  rfl

end Runs

namespace Course

variable {α β : Type} {C : Course Session} {s : Session}

/-- From a sound session, work ends without a breach, with an answer as promised. -/
def Ends (C : Course Session) (s : Session) (m : SessionM α) (post : α → Session → Prop) : Prop :=
  C.Yields s m.run fun r t => ∃ a, r = .ok a ∧ post a t

/-- From a sound session, a query ends without a breach, with an outcome as promised. -/
def Answers (C : Course Session) (s : Session) (q : Query α)
    (post : Except ModelError α → Session → Prop) : Prop :=
  C.Ends s q.run post

/-- The promise on answers, and the one on errors. -/
def outcome (ok : α → Session → Prop) (err : ModelError → Session → Prop) :
    Except ModelError α → Session → Prop
  | .ok a, t => ok a t
  | .error e, t => err e t

/-! ### Session work -/

section Ends

variable {m : SessionM α} {P : α → Session → Prop} {Q : β → Session → Prop}

theorem Ends.pure {a : α} (h : C.Sound s → P a s) : C.Ends s (pure a) P :=
  Yields.pure fun hs => ⟨a, rfl, h hs⟩

theorem Ends.bind {f : α → SessionM β} (h : C.Ends s m P)
    (hf : ∀ a t, C.Sound t → C.Grows s t → P a t → C.Ends t (f a) Q) : C.Ends s (m >>= f) Q := by
  refine Yields.bind (m := m.run) (f := ExceptT.bindCont f) h ?_
  rintro _ t ht hg ⟨a, rfl, ha⟩
  exact hf a t ht hg ha

theorem Ends.mono {P' : α → Session → Prop} (h : C.Ends s m P)
    (hm : ∀ a t, C.Sound t → C.Grows s t → P a t → P' a t) : C.Ends s m P' :=
  Yields.mono h fun _ t ht hg ⟨a, hr, ha⟩ => ⟨a, hr, hm a t ht hg ha⟩

/-- Two promises of the same work. -/
theorem Ends.and {Q : α → Session → Prop} (h : C.Ends s m P) (h' : C.Ends s m Q) :
    C.Ends s m fun a t => P a t ∧ Q a t := by
  intro hs
  obtain ⟨_, t, hrun, ht, hg, a, rfl, ha⟩ := h hs
  obtain ⟨_, u, hrun', -, -, b, rfl, hb⟩ := h' hs
  cases hrun.symm.trans hrun'
  exact ⟨_, t, hrun, ht, hg, a, rfl, ha, hb⟩

theorem Ends.sound (h : C.Sound s → C.Ends s m P) : C.Ends s m P := Yields.sound h

theorem Ends.read {f : Session → SessionM β} (h : C.Sound s → C.Ends s (f s) Q) :
    C.Ends s (get >>= f) Q := fun hs => h hs hs

/-- Work that is one change of the session. -/
theorem Ends.step {f : Session → α × Session} (hs : C.Sound s → C.Sound (f s).2)
    (hg : C.Sound s → C.Grows s (f s).2) (hp : C.Sound s → P (f s).1 (f s).2) :
    C.Ends s (modifyGet f) P := fun h =>
  ⟨.ok (f s).1, (f s).2, rfl, hs h, hg h, (f s).1, rfl, hp h⟩

end Ends

/-! ### Queries -/

section Answers

variable {m : SessionM α} {q : Query α} {P : α → Session → Prop}
  {R : Except ModelError α → Session → Prop} {Q : Except ModelError β → Session → Prop}

theorem Answers.pure {a : α} (h : C.Sound s → R (.ok a) s) : C.Answers s (pure a) R :=
  Ends.pure h

theorem Answers.throw {e : ModelError} (h : C.Sound s → R (.error e) s) :
    C.Answers s (throw e) R :=
  Ends.pure h

theorem Answers.bind {f : α → Query β} (h : C.Answers s q R)
    (hf : ∀ a t, C.Sound t → C.Grows s t → R (.ok a) t → C.Answers t (f a) Q)
    (he : ∀ e t, C.Sound t → C.Grows s t → R (.error e) t → Q (.error e) t) :
    C.Answers s (q >>= f) Q := by
  refine Ends.bind (m := q.run) h fun r t ht hg hr => ?_
  cases r with
  | ok a => exact hf a t ht hg hr
  | error e => exact Ends.pure fun _ => he e t ht hg hr

/-- A query after one that has an answer. -/
theorem Answers.bind_ok {f : α → Query β}
    (h : C.Answers s q fun r t => ∃ a, r = .ok a ∧ P a t)
    (hf : ∀ a t, C.Sound t → C.Grows s t → P a t → C.Answers t (f a) Q) :
    C.Answers s (q >>= f) Q := by
  refine h.bind ?_ ?_
  · rintro a t ht hg ⟨_, ⟨⟩, ha⟩
    exact hf a t ht hg ha
  · rintro _ _ _ _ ⟨_, ⟨⟩, _⟩

theorem Answers.mono {R' : Except ModelError α → Session → Prop} (h : C.Answers s q R)
    (hm : ∀ r t, C.Sound t → C.Grows s t → R r t → R' r t) : C.Answers s q R' :=
  Ends.mono h hm

theorem Answers.sound (h : C.Sound s → C.Answers s q R) : C.Answers s q R := Yields.sound h

theorem Answers.read {f : Session → Query β} (h : C.Sound s → C.Answers s (f s) Q) :
    C.Answers s (get >>= f) Q := fun hs => h hs hs

/-- Session work always has an answer. -/
theorem Answers.lift {f : α → Query β} (h : C.Ends s m P)
    (hf : ∀ a t, C.Sound t → C.Grows s t → P a t → C.Answers t (f a) Q) :
    C.Answers s (liftM m >>= f) Q := by
  refine Ends.bind (m := Except.ok <$> m) (P := fun r t => ∃ a, r = .ok a ∧ P a t) ?_ ?_
  · exact Ends.bind (m := m) h fun a _ _ _ ha => Ends.pure fun _ => ⟨a, rfl, ha⟩
  · rintro _ t ht hg ⟨a, rfl, ha⟩
    exact hf a t ht hg ha

theorem Answers.lift_last (h : C.Ends s m P) :
    C.Answers s (liftM m) fun r t => ∃ a, r = .ok a ∧ P a t :=
  Ends.bind (m := m) h fun a _ _ _ ha => Ends.pure fun _ => ⟨a, rfl, ha⟩

/-- An attempt always has an answer: the outcome of the query. -/
theorem Answers.attempt {f : Except ModelError α → Query β} (h : C.Answers s q R)
    (hf : ∀ r t, C.Sound t → C.Grows s t → R r t → C.Answers t (f r) Q) :
    C.Answers s (Query.attempt q >>= f) Q :=
  Answers.lift (m := q.run) h hf

theorem Answers.ofExcept {r : Except ModelError α} (h : C.Sound s → R r s) :
    C.Answers s (Query.ofExcept r) R :=
  Ends.pure h

end Answers

/-! ### Reading a session -/

/-- Work that answers without changing the session. -/
def Reads (s : Session) (m : SessionM α) (a : α) : Prop := m.run.run s = (.ok a, s)

section Reads

variable {m : SessionM α} {a : α} {P : α → Session → Prop} {Q : β → Session → Prop}

theorem Reads.pure (s : Session) (a : α) : Reads s (pure a) a := rfl

theorem Reads.get {f : Session → SessionM β} {b : β} (h : Reads s (f s) b) :
    Reads s (get >>= f) b := h

theorem Reads.bind {f : α → SessionM β} {b : β} (h : Reads s m a) (hf : Reads s (f a) b) :
    Reads s (m >>= f) b := by
  show (m.run >>= ExceptT.bindCont f).run s = (.ok b, s)
  rw [StateT.run_bind, h]
  exact hf

theorem Reads.queryBind {q : Query α} {f : α → Query β} {r : Except ModelError β}
    (h : Reads s q.run (.ok a)) (hf : Reads s (f a).run r) : Reads s (q >>= f).run r :=
  Reads.bind (m := q.run) (f := ExceptT.bindCont f) h hf

/-- Reading in a query. -/
theorem Reads.query {f : α → Query β} {r : Except ModelError β} (h : Reads s m a)
    (hf : Reads s (f a).run r) : Reads s (liftM m >>= f : Query β).run r := by
  have hl : Reads s (liftM m : Query α).run (.ok a) :=
    Reads.bind (m := m) (f := fun a => Pure.pure (Except.ok a)) h (.pure s _)
  exact hl.queryBind hf

theorem Reads.queryGet {f : Session → Query β} {r : Except ModelError β}
    (h : Reads s (f s).run r) :
    Reads s (MonadState.get >>= f : Query β).run r := h

/-- Leaving out members of a list. -/
theorem Reads.filterM {l : List α} {f : α → Query Bool} {p : α → Bool}
    (h : ∀ a ∈ l, Reads s (f a).run (.ok (p a))) : Reads s (l.filterM f).run (.ok (l.filter p)) := by
  have haux : ∀ acc, Reads s (l.filterAuxM f acc).run (.ok ((l.filter p).reverse ++ acc)) := by
    induction l with
    | nil => exact fun acc => .pure s _
    | cons a rest ih =>
      intro acc
      refine (h a List.mem_cons_self).queryBind ?_
      rw [List.filter_cons]
      have hrest := ih fun b hb => h b (List.mem_cons_of_mem _ hb)
      cases p a with
      | false => exact hrest acc
      | true =>
        rw [if_pos rfl, List.reverse_cons, List.append_assoc]
        exact hrest (a :: acc)
  refine (haux []).queryBind ?_
  rw [List.append_nil, List.reverse_reverse]
  exact .pure s _

/-- Reading first, when only the end matters. -/
theorem Reads.exists_after {f : α → SessionM β} (h : Reads s m a) (hf : ∃ b, Reads s (f a) b) :
    ∃ b, Reads s (m >>= f) b := by
  obtain ⟨b, hb⟩ := hf
  exact ⟨b, h.bind hb⟩

theorem Reads.exists_bind {f : α → SessionM β} (h : ∃ a, Reads s m a)
    (hf : ∀ a, ∃ b, Reads s (f a) b) : ∃ b, Reads s (m >>= f) b := by
  obtain ⟨a, ha⟩ := h
  exact ha.exists_after (hf a)

/-- Work for each of a list. -/
theorem Reads.mapM {l : List α} {f : α → SessionM β} (h : ∀ a ∈ l, ∃ b, Reads s (f a) b) :
    ∃ bs, Reads s (l.mapM f) bs := by
  induction l with
  | nil =>
    rw [List.mapM_nil]
    exact ⟨[], .pure s _⟩
  | cons a rest ih =>
    obtain ⟨b, hb⟩ := h a List.mem_cons_self
    obtain ⟨bs, hbs⟩ := ih fun c hc => h c (List.mem_cons_of_mem _ hc)
    rw [List.mapM_cons]
    exact ⟨b :: bs, hb.bind (hbs.bind (.pure s _))⟩

/-- Work for each of a list, of which the answers are known. -/
theorem Reads.mapM_map {l : List α} {f : α → SessionM β} {g : α → β}
    (h : ∀ a ∈ l, Reads s (f a) (g a)) : Reads s (l.mapM f) (l.map g) := by
  induction l with
  | nil =>
    rw [List.mapM_nil]
    exact .pure s _
  | cons a rest ih =>
    rw [List.mapM_cons]
    exact (h a List.mem_cons_self).bind
      ((ih fun c hc => h c (List.mem_cons_of_mem _ hc)).bind (.pure s _))

theorem Reads.ends (h : Reads s m a) : C.Ends s m fun b t => b = a ∧ t = s := fun hs =>
  ⟨.ok a, s, h, hs, C.refl s, a, rfl, rfl, rfl⟩

/-- Reading first. -/
theorem Ends.reads {f : α → SessionM β} (h : Reads s m a) (hf : C.Ends s (f a) Q) :
    C.Ends s (m >>= f) Q := by
  refine Ends.bind h.ends ?_
  rintro _ _ - - ⟨rfl, rfl⟩
  exact hf

theorem Answers.reads {f : α → Query β} {Q : Except ModelError β → Session → Prop}
    (h : Reads s m a) (hf : C.Answers s (f a) Q) : C.Answers s (liftM m >>= f) Q := by
  refine Answers.lift h.ends ?_
  rintro _ _ - - ⟨rfl, rfl⟩
  exact hf

end Reads

end Course

end JavaAbi
