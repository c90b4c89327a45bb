namespace JavaAbi

/-!
# Courses

What is proved of work on a state is of one form: from a sound state the work ends in a sound state
that has grown out of the first one, and its answer is as promised. What is sound and what growing
means is a course; the rules here hold for every course.

* `Course.Yields` — the judgement, for work that always answers;
* `Yields.bind`, `Yields.pure`, `Yields.step` — its rules.
-/

/-- Which states are sound, and how a state may change. -/
structure Course (σ : Type) where
  Sound : σ → Prop
  Grows : σ → σ → Prop
  refl : ∀ s, Grows s s
  trans : ∀ {s t u}, Grows s t → Grows t u → Grows s u

namespace Course

variable {σ α β : Type} {C : Course σ} {s : σ} {m : StateM σ α} {P : α → σ → Prop}
  {Q : β → σ → Prop}

/-- From a sound state, work ends in a sound state that has grown out of it, with an answer as
    promised. -/
def Yields (C : Course σ) (s : σ) (m : StateM σ α) (post : α → σ → Prop) : Prop :=
  C.Sound s → ∃ a t, m.run s = (a, t) ∧ C.Sound t ∧ C.Grows s t ∧ post a t

theorem Yields.pure {a : α} (h : C.Sound s → P a s) : C.Yields s (pure a) P := fun hs =>
  ⟨a, s, rfl, hs, C.refl s, h hs⟩

/-- Work after other work: what is promised of the first answer may be used for the second. -/
theorem Yields.bind {f : α → StateM σ β} (h : C.Yields s m P)
    (hf : ∀ a t, C.Sound t → C.Grows s t → P a t → C.Yields t (f a) Q) :
    C.Yields s (m >>= f) Q := by
  intro hs
  obtain ⟨a, t, hm, ht, hst, ha⟩ := h hs
  obtain ⟨b, u, hf, hu, htu, hb⟩ := hf a t ht hst ha ht
  refine ⟨b, u, ?_, hu, C.trans hst htu, hb⟩
  show (f (m.run s).1).run (m.run s).2 = (b, u)
  rw [hm]
  exact hf

theorem Yields.mono {P' : α → σ → Prop} (h : C.Yields s m P)
    (hm : ∀ a t, C.Sound t → C.Grows s t → P a t → P' a t) : C.Yields s m P' := by
  intro hs
  obtain ⟨a, t, hr, ht, hst, ha⟩ := h hs
  exact ⟨a, t, hr, ht, hst, hm a t ht hst ha⟩

/-- Work that is one change of the state. -/
theorem Yields.step {f : σ → α × σ} (hs : C.Sound s → C.Sound (f s).2)
    (hg : C.Sound s → C.Grows s (f s).2) (hp : C.Sound s → P (f s).1 (f s).2) :
    C.Yields s (modifyGet f) P := fun h =>
  ⟨(f s).1, (f s).2, rfl, hs h, hg h, hp h⟩

/-- Soundness may be assumed. -/
theorem Yields.sound (h : C.Sound s → C.Yields s m P) : C.Yields s m P := fun hs => h hs hs

end Course

end JavaAbi
