namespace JavaAbi

/-!
# Dotted names

A canonical name is a text with segments between dots. `splitLastDot?` cuts at the last dot, and
`lastSegment` is what follows it, or the whole text.
-/

/-- The parts before and after the last dot. -/
def splitLastDot? : List Char → Option (List Char × List Char)
  | [] => none
  | c :: cs =>
    match splitLastDot? cs with
    | some (front, last) => some (c :: front, last)
    | none => if c = '.' then some ([], cs) else none

/-- What follows the last dot, or the whole text when it has none. -/
def lastSegment (cs : List Char) : List Char :=
  match splitLastDot? cs with
  | some (_, last) => last
  | none => cs

/-! ### Laws -/

theorem splitLastDot?_eq_none_iff {cs : List Char} : splitLastDot? cs = none ↔ '.' ∉ cs := by
  induction cs with
  | nil => simp [splitLastDot?]
  | cons c cs ih =>
    rw [splitLastDot?]
    cases h : splitLastDot? cs with
    | some p =>
      have : '.' ∈ cs := by
        by_cases hm : '.' ∈ cs
        · exact hm
        · rw [ih.2 hm] at h; cases h
      simp [this]
    | none =>
      have hm := ih.1 h
      by_cases hc : c = '.'
      · simp [hc]
      · simp [hc, hm, Ne.symm hc]

theorem splitLastDot?_append (front last : List Char) (h : '.' ∉ last) :
    splitLastDot? (front ++ '.' :: last) = some (front, last) := by
  induction front with
  | nil => simp [splitLastDot?, splitLastDot?_eq_none_iff.2 h]
  | cons c front ih => simp [splitLastDot?, ih]

theorem eq_append_of_splitLastDot? {cs front last : List Char}
    (h : splitLastDot? cs = some (front, last)) : cs = front ++ '.' :: last ∧ '.' ∉ last := by
  induction cs generalizing front last with
  | nil => cases h
  | cons c cs ih =>
    rw [splitLastDot?] at h
    cases hs : splitLastDot? cs with
    | some p =>
      obtain ⟨f, l⟩ := p
      rw [hs] at h
      cases h
      obtain ⟨rfl, hl⟩ := ih hs
      exact ⟨rfl, hl⟩
    | none =>
      rw [hs] at h
      by_cases hc : c = '.'
      · rw [if_pos hc] at h
        cases h
        exact ⟨by rw [hc]; rfl, splitLastDot?_eq_none_iff.1 hs⟩
      · rw [if_neg hc] at h
        cases h

end JavaAbi
