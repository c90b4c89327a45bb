import Mathlib.Order.Basic
import JavaAbi.Text.LineTable

namespace JavaAbi

/-!
# Bisection

A sorted table is searched by halving the part in which the key may stand. The search finds the key
where it is, and else the place that parts the smaller entries from the greater ones.

* `Narrowed` — what is known of the part that is left, kept by each halving;
* `getElem?_of_bisect_found`, `parts_of_bisect_missing` — what the two answers say;
* `index_of_bisect` — hence the last entry that is not greater than the key.
-/

section Bisection

variable {table : Array UInt32} {key : UInt32} {base size : Nat}

/-- The part of a table in which a key is still looked for: what follows is greater, and the part
    starts with an entry that is not, unless it starts with the table. -/
structure Narrowed (table : Array UInt32) (key : UInt32) (base size : Nat) : Prop where
  within : base + size ≤ table.size
  above : ∀ (i : Nat) (entry : UInt32), base + size ≤ i → table[i]? = some entry → key < entry
  below : base = 0 ∨ ∀ entry : UInt32, table[base]? = some entry → entry ≤ key

theorem entry_lt (hsorted : table.toList.Pairwise (· < ·)) {i j : Nat} {x y : UInt32} (hij : i < j)
    (hx : table[i]? = some x) (hy : table[j]? = some y) : x < y := by
  rw [← Array.getElem?_toList] at hx hy
  obtain ⟨hi, rfl⟩ := List.getElem?_eq_some_iff.1 hx
  obtain ⟨hj, rfl⟩ := List.getElem?_eq_some_iff.1 hy
  exact List.pairwise_iff_getElem.1 hsorted i j hi hj hij

theorem narrowed_start (table : Array UInt32) (key : UInt32) :
    Narrowed table key 0 table.size where
  within := by omega
  above i entry hi hat := by
    rw [Array.getElem?_eq_none (by omega)] at hat
    cases hat
  below := .inl rfl

/-- Halving keeps the part that the key belongs to. -/
theorem Narrowed.bisectWithin (hsorted : table.toList.Pairwise (· < ·))
    (h : Narrowed table key base size) (hsize : 0 < size) :
    Narrowed table key (bisectWithin table key base size) 1 := by
  fun_induction JavaAbi.bisectWithin table key base size with
  | case1 base size hone =>
    obtain rfl : size = 1 := by omega
    exact h
  | case2 base size hmany half middle next ih =>
    have hwithin := h.within
    have hmiddle : middle < table.size := by omega
    refine ih ?_ (by omega)
    by_cases hgreater : key < table[middle]
    · have hnext : next = base := by simp [next, hmiddle, hgreater]
      refine ⟨by omega, fun i entry hi hentry => ?_, by rw [hnext]; exact h.below⟩
      -- what follows the middle is greater because the middle is
      rcases Nat.eq_or_lt_of_le (show middle ≤ i by omega) with rfl | hlt
      · rw [Array.getElem?_eq_getElem hmiddle] at hentry
        cases hentry
        exact hgreater
      · exact UInt32.lt_trans hgreater
          (entry_lt hsorted hlt (Array.getElem?_eq_getElem hmiddle) hentry)
    · have hnext : next = middle := by simp [next, hmiddle, hgreater]
      refine ⟨by omega, fun i entry hi hentry => h.above i entry (by omega) hentry, .inr ?_⟩
      intro entry hentry
      rw [hnext, Array.getElem?_eq_getElem hmiddle] at hentry
      cases hentry
      exact UInt32.not_lt.1 hgreater

/-- A word that is found stands there. -/
theorem getElem?_of_bisect_found {i : Nat} (h : bisect table key = .found i) :
    table[i]? = some key := by
  unfold bisect standingBy at h
  split at h
  · cases h
  · rename_i entry hentry
    split at h
    · rename_i heq
      cases h
      rw [hentry, heq]
    · split at h <;> cases h

/-- A word that is missing parts the table into the smaller and the greater entries. -/
theorem parts_of_bisect_missing {i : Nat} (hsorted : table.toList.Pairwise (· < ·))
    (h : bisect table key = .missing i) :
    i ≤ table.size ∧
      (∀ (j : Nat) (entry : UInt32), j < i → table[j]? = some entry → entry < key) ∧
      ∀ (j : Nat) (entry : UInt32), i ≤ j → table[j]? = some entry → key < entry := by
  rcases Nat.eq_zero_or_pos table.size with hempty | hpos
  · have hnone : ∀ j : Nat, table[j]? = none := fun j => Array.getElem?_eq_none (by omega)
    simp [bisect, standingBy, bisectWithin, hempty] at h
    simp [hnone, ← h]
  · have hnarrowed := (narrowed_start table key).bisectWithin hsorted hpos
    unfold bisect at h
    generalize bisectWithin table key 0 table.size = place at h hnarrowed
    have hplace : place < table.size := by have := hnarrowed.within; omega
    have hentry := Array.getElem?_eq_getElem hplace
    simp only [standingBy, hentry] at h
    by_cases heq : table[place] = key
    · simp [heq] at h
    by_cases hlt : table[place] < key
    · rw [if_neg heq, if_pos hlt] at h
      cases h
      refine ⟨hplace, fun j entry hj hat => ?_, hnarrowed.above⟩
      by_cases hlast : j = place
      · subst hlast
        rw [hentry] at hat
        cases hat
        exact hlt
      · exact UInt32.lt_trans (entry_lt hsorted (by omega) hat hentry) hlt
    · rw [if_neg heq, if_neg hlt] at h
      cases h
      -- the search ends at a greater entry only when there is none before it
      have hgreater : key < table[i] :=
        UInt32.lt_of_le_of_ne (UInt32.not_lt.1 hlt) fun h => heq h.symm
      have hfirst : i = 0 := by
        rcases hnarrowed.below with h0 | hle
        · exact h0
        · exact absurd (hle _ hentry) (UInt32.not_le.2 hgreater)
      refine ⟨by omega, fun j _ hj => by omega, fun j entry hj hat => ?_⟩
      by_cases hsame : j = i
      · subst hsame
        rw [hentry] at hat
        cases hat
        exact hgreater
      · exact UInt32.lt_trans hgreater (entry_lt hsorted (by omega) hentry hat)

/-- **The entry of a key** is the last one that is not greater. -/
theorem index_of_bisect {i : Nat} {entry : UInt32} (hsorted : table.toList.Pairwise (· < ·))
    (hat : table[i]? = some entry) (hle : entry ≤ key)
    (hnext : ∀ next : UInt32, table[i + 1]? = some next → key < next) :
    bisect table key = .found i ∨ bisect table key = .missing (i + 1) := by
  cases h : bisect table key with
  | found j =>
    left
    -- The key is an entry itself: one before the `i`-th is smaller than that, one behind it is
    -- greater than the key.
    have hj := getElem?_of_bisect_found h
    rcases Nat.lt_trichotomy j i with hlt | rfl | hgt
    · exact absurd hle (UInt32.not_le.2 (entry_lt hsorted hlt hj hat))
    · rfl
    · have hsize : j < table.size := (Array.getElem?_eq_some_iff.1 hj).1
      have hin := Array.getElem?_eq_getElem (show i + 1 < table.size by omega)
      have hgreater := hnext _ hin
      by_cases hsame : i + 1 = j
      · subst hsame
        rw [hj] at hin
        cases hin
        exact absurd hgreater (UInt32.lt_irrefl _)
      · exact absurd hgreater (UInt32.lt_asymm (entry_lt hsorted (by omega) hin hj))
  | missing j =>
    right
    -- The key lies between two entries, and the first of them is the `i`-th.
    obtain ⟨hsize, hbelow, habove⟩ := parts_of_bisect_missing hsorted h
    by_cases hlow : j ≤ i
    · exact absurd hle (UInt32.not_le.2 (habove i entry hlow hat))
    by_cases hhigh : i + 1 < j
    · have hin := Array.getElem?_eq_getElem (show i + 1 < table.size by omega)
      exact absurd (hnext _ hin) (UInt32.lt_asymm (hbelow _ _ hhigh hin))
    rw [show j = i + 1 by omega]

end Bisection

end JavaAbi
