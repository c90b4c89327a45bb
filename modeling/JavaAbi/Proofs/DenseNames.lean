import JavaAbi.Names.Interner
import JavaAbi.Proofs.NameTables

namespace JavaAbi

/-!
# Dense names

A store numbers texts densely if a new text gets the next number and a known one keeps its own. That
settles every number, whatever the store is: two such stores give the same answers to the same steps,
refused ones included. One of them is the name table.

* `Interner.Dense` — what is relied on of a store;
* `NameTable.interner_dense` — the name table is such a store;
* `Interner.Alike` — stores that hold the same names;
* `Interner.Alike.run`, `Interner.Alike.runAll` — a step, and a program, keeps them alike.
-/

variable {σ τ : Type} {I : Interner σ} {J : Interner τ}

/-- A store numbers texts densely, and each of them once. -/
structure Interner.Dense (I : Interner σ) : Prop where
  find?_fresh : ∀ text, I.find? I.fresh text = if text = "" then some .empty else none
  resolve?_fresh : ∀ n, I.resolve? I.fresh n = if n = .empty then some "" else none
  size_fresh : I.size I.fresh = 1
  intern_known : ∀ s text n, I.find? s text = some n → I.intern s text = (n, s)
  intern_new : ∀ s text, I.find? s text = none → (I.intern s text).1 = ⟨I.size s⟩
  find?_new : ∀ s text, I.find? s text = none → ∀ other,
    I.find? (I.intern s text).2 other = if other = text then some ⟨I.size s⟩ else I.find? s other
  resolve?_new : ∀ s text, I.find? s text = none → ∀ n,
    I.resolve? (I.intern s text).2 n = if n = ⟨I.size s⟩ then some text else I.resolve? s n
  size_new : ∀ s text, I.find? s text = none → I.size (I.intern s text).2 = I.size s + 1

theorem NameTable.resolve?_push {t : NameTable} {text : String} (h : t.find? text = none)
    (n : Name) : (t.push text h).resolve? n = if n = ⟨t.size⟩ then some text else t.resolve? n := by
  obtain ⟨i⟩ := n
  simp [resolve?, push, Array.getElem?_push, size]

/-- **A name table numbers texts densely.** -/
theorem NameTable.interner_dense : NameTable.interner.Dense where
  find?_fresh text := by
    by_cases h : text = ""
    · simp [interner, NameTable.find?, fresh, h, Name.empty]
    · simp [interner, NameTable.find?, fresh, h, Ne.symm h]
  resolve?_fresh n := by
    obtain ⟨i⟩ := n
    cases i <;> simp [interner, NameTable.resolve?, fresh, Name.empty]
  size_fresh := rfl
  intern_known s text n h := intern_of_find? h
  intern_new s text h := by
    simp only [interner] at h ⊢
    rw [intern_of_find?_eq_none h]
  find?_new s text h other := by
    simp only [interner] at h ⊢
    rw [intern_of_find?_eq_none h]
    refine Option.ext fun n => ?_
    rw [find?_eq_some_iff, resolve?_push h]
    by_cases hother : other = text
    · subst hother
      by_cases hn : n = ⟨s.size⟩
      · simp [hn]
      · -- a new text had no name before
        have hno : s.resolve? n ≠ some other := fun hn' => by
          rw [find?_of_resolve? hn'] at h
          cases h
        simp [hn, hno, Ne.symm hn]
    · by_cases hn : n = ⟨s.size⟩
      · -- names of known texts are below the size
        have hno : s.find? other ≠ some n := fun hn' => by
          obtain ⟨hlt, -⟩ := Array.getElem?_eq_some_iff.1 (resolve?_of_find? hn')
          rw [hn] at hlt
          exact Nat.lt_irrefl _ hlt
        simp [hn, hother, Ne.symm hother, hn ▸ hno]
      · simp [hn, hother, find?_eq_some_iff]
  resolve?_new s text h n := by
    simp only [interner] at h ⊢
    rw [intern_of_find?_eq_none h]
    exact resolve?_push h n
  size_new s text h := by
    simp only [interner] at h ⊢
    rw [intern_of_find?_eq_none h]
    simp [NameTable.size, push]

/-- Two stores hold the same texts under the same names. -/
structure Interner.Alike (I : Interner σ) (J : Interner τ) (s : σ) (u : τ) : Prop where
  find? : ∀ text, I.find? s text = J.find? u text
  resolve? : ∀ n, I.resolve? s n = J.resolve? u n
  size : I.size s = J.size u

namespace Interner

theorem alike_fresh (hI : I.Dense) (hJ : J.Dense) : I.Alike J I.fresh J.fresh where
  find? text := by rw [hI.find?_fresh, hJ.find?_fresh]
  resolve? n := by rw [hI.resolve?_fresh, hJ.resolve?_fresh]
  size := by rw [hI.size_fresh, hJ.size_fresh]

namespace Alike

variable {s : σ} {u : τ}

/-- Dense stores give a text the same name. -/
theorem intern (hI : I.Dense) (hJ : J.Dense) (h : I.Alike J s u) (text : String) :
    (I.intern s text).1 = (J.intern u text).1 ∧
      I.Alike J (I.intern s text).2 (J.intern u text).2 := by
  cases hs : I.find? s text with
  | some n =>
    have hu : J.find? u text = some n := h.find? text ▸ hs
    rw [hI.intern_known s text n hs, hJ.intern_known u text n hu]
    exact ⟨rfl, h⟩
  | none =>
    have hu : J.find? u text = none := h.find? text ▸ hs
    refine ⟨by rw [hI.intern_new s text hs, hJ.intern_new u text hu, h.size], ?_, ?_, ?_⟩
    · intro other
      rw [hI.find?_new s text hs, hJ.find?_new u text hu, h.size, h.find?]
    · intro n
      rw [hI.resolve?_new s text hs, hJ.resolve?_new u text hu, h.size, h.resolve?]
    · rw [hI.size_new s text hs, hJ.size_new u text hu, h.size]

/-- Both refuse to join two names, or both join them. -/
theorem qualify? (hI : I.Dense) (hJ : J.Dense) (h : I.Alike J s u) (outer : Option Name)
    (simple : Name) :
    (I.qualify? s outer simple = none ∧ J.qualify? u outer simple = none) ∨
      ∃ n s' u', I.qualify? s outer simple = some (n, s') ∧
        J.qualify? u outer simple = some (n, u') ∧ I.Alike J s' u' := by
  unfold Interner.qualify?
  by_cases hempty : simple = .empty
  · simp [hempty]
  · simp only [if_neg hempty]
    cases outer with
    | none => exact .inr ⟨_, _, _, rfl, rfl, h⟩
    | some o =>
      by_cases ho : o = .empty
      · simp only [if_pos ho]
        exact .inr ⟨_, _, _, rfl, rfl, h⟩
      · simp only [if_neg ho, ← h.resolve?]
        cases I.resolve? s o with
        | none => exact .inl ⟨rfl, rfl⟩
        | some outerText =>
          cases I.resolve? s simple with
          | none => exact .inl ⟨rfl, rfl⟩
          | some simpleText =>
            obtain ⟨hname, hnext⟩ := h.intern hI hJ (outerText ++ "." ++ simpleText)
            exact .inr ⟨_, _, _, rfl, congrArg some (Prod.ext hname.symm rfl), hnext⟩

theorem qualifySegments (hI : I.Dense) (hJ : J.Dense) (h : I.Alike J s u) (outer : Option Name)
    (segments : List String) :
    (I.qualifySegments s outer segments).1 = (J.qualifySegments u outer segments).1 ∧
      I.Alike J (I.qualifySegments s outer segments).2 (J.qualifySegments u outer segments).2 := by
  induction segments generalizing s u outer with
  | nil => exact ⟨rfl, h⟩
  | cons text rest ih =>
    obtain ⟨hname, hnext⟩ := h.intern hI hJ text
    simp only [Interner.qualifySegments, ← hname]
    rcases hnext.qualify? hI hJ outer (I.intern s text).1 with
      ⟨hs, hu⟩ | ⟨n, s', u', hs, hu, hlater⟩
    · simp only [hs, hu]
      exact ⟨trivial, hnext⟩
    · simp only [hs, hu]
      exact ih hlater (some n)

/-- **Dense stores answer a step alike**, and stay alike. -/
theorem run (hI : I.Dense) (hJ : J.Dense) (h : I.Alike J s u) (step : NameStep) :
    (step.run I s).1 = (step.run J u).1 ∧ I.Alike J (step.run I s).2 (step.run J u).2 := by
  cases step with
  | intern text =>
    obtain ⟨hname, hnext⟩ := h.intern hI hJ text
    exact ⟨congrArg NameAnswer.name hname, hnext⟩
  | get text => exact ⟨congrArg NameAnswer.ofName? (h.find? text), h⟩
  | qualify outer simple =>
    simp only [NameStep.run]
    rcases h.qualify? hI hJ outer simple with ⟨hs, hu⟩ | ⟨n, s', u', hs, hu, hnext⟩
    · simp only [hs, hu]
      exact ⟨trivial, h⟩
    · simp only [hs, hu]
      exact ⟨trivial, hnext⟩
  | qualifyPath segments =>
    obtain ⟨hanswer, hnext⟩ := h.qualifySegments hI hJ none segments
    exact ⟨congrArg NameAnswer.ofAnswer? hanswer, hnext⟩

/-- **Dense stores answer steps alike**: the numbering is settled by what is relied on. -/
theorem runAll (hI : I.Dense) (hJ : J.Dense) (h : I.Alike J s u) (steps : List NameStep) :
    (NameStep.runAll I s steps).1 = (NameStep.runAll J u steps).1 ∧
      I.Alike J (NameStep.runAll I s steps).2 (NameStep.runAll J u steps).2 := by
  induction steps generalizing s u with
  | nil => exact ⟨rfl, h⟩
  | cons step rest ih =>
    obtain ⟨hanswer, hnext⟩ := h.run hI hJ step
    obtain ⟨hanswers, hlast⟩ := ih hnext
    exact ⟨by simp only [NameStep.runAll, hanswer, hanswers], hlast⟩

end Alike

end Interner

end JavaAbi
