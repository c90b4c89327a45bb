import JavaAbi.Model.Cache

namespace JavaAbi

/-!
# Slots of a cache

How the steps of a cache change its slots: each changes the slot of its own key only.
-/

namespace Cache

variable {κ ν : Type} [DecidableEq κ] {c : Cache κ ν} {k : κ}

theorem lookup_setSlot (k : κ) (x : Slot ν) (slots : List (κ × Slot ν)) (j : κ) :
    (setSlot k x slots).lookup j = if j = k then some x else slots.lookup j := by
  induction slots with
  | nil =>
    by_cases h : j = k
    · simp [setSlot, h]
    · have hb : (j == k) = false := by simpa using h
      simp [setSlot, List.lookup_cons, h, hb]
  | cons e rest ih =>
    obtain ⟨key, old⟩ := e
    rw [setSlot]
    split
    · rename_i he
      obtain rfl : key = k := he
      by_cases h : j = key
      · simp [h]
      · have hb : (j == key) = false := by simpa using h
        simp [List.lookup_cons, h, hb]
    · rename_i he
      by_cases hj : j = key
      · simp [hj, he]
      · have hb : (j == key) = false := by simpa using hj
        simp only [List.lookup_cons, hb]
        exact ih

@[simp] theorem slot?_finish (c : Cache κ ν) (k : κ) (v : ν) (j : κ) :
    (c.finish k v).slot? j = if j = k then some (.ready v) else c.slot? j :=
  lookup_setSlot k _ _ j

@[simp] theorem slot?_abandon (c : Cache κ ν) (k j : κ) :
    (c.abandon k).slot? j = if j = k then some .vacant else c.slot? j :=
  lookup_setSlot k _ _ j

/-- **What a request finds.** A stored value, a running construction, or nothing; in the last case
    the construction starts. -/
theorem request_eq (c : Cache κ ν) (k : κ) :
    (∃ v, c.slot? k = some (.ready v) ∧ (c.request k).1 = .found v ∧
      (c.request k).2.slot? = c.slot?) ∨
    (c.slot? k = some .building ∧ (c.request k).1 = .reentrant ∧
      (c.request k).2.slot? = c.slot?) ∨
    ((c.slot? k = none ∨ c.slot? k = some .vacant) ∧ (c.request k).1 = .construct ∧
      ∀ j, (c.request k).2.slot? j = if j = k then some .building else c.slot? j) := by
  unfold request
  cases h : c.slot? k with
  | none => exact .inr (.inr ⟨.inl rfl, rfl, fun j => lookup_setSlot k _ _ j⟩)
  | some x =>
    cases x with
    | ready v => exact .inl ⟨v, rfl, rfl, rfl⟩
    | building => exact .inr (.inl ⟨rfl, rfl, rfl⟩)
    | vacant => exact .inr (.inr ⟨.inr rfl, rfl, fun j => lookup_setSlot k _ _ j⟩)

end Cache

end JavaAbi
