namespace JavaAbi

/-!
# Pieces of a text

`pieces` cuts a text at every occurrence of a character. Joining the pieces gives the text back.
-/

/-- What stands between the occurrences of `mark`, before the first and after the last. -/
def pieces (mark : Char) : List Char → List (List Char)
  | [] => [[]]
  | c :: cs =>
    if c = mark then [] :: pieces mark cs
    else
      match pieces mark cs with
      | [] => [[c]]
      | piece :: rest => (c :: piece) :: rest

/-! ### Laws -/

theorem pieces_ne_nil (mark : Char) (cs : List Char) : pieces mark cs ≠ [] := by
  cases cs with
  | nil => simp [pieces]
  | cons c cs =>
    rw [pieces]
    split
    · simp
    · split <;> simp

theorem intercalate_pieces (mark : Char) (cs : List Char) :
    [mark].intercalate (pieces mark cs) = cs := by
  induction cs with
  | nil => rfl
  | cons c cs ih =>
    rw [pieces]
    split
    · rename_i hc
      cases hp : pieces mark cs with
      | nil => exact absurd hp (pieces_ne_nil mark cs)
      | cons piece rest =>
        rw [hp] at ih
        simp [List.intercalate, List.intersperse, hc, ← ih]
    · split
      · rename_i hp
        exact absurd hp (pieces_ne_nil mark cs)
      · rename_i piece rest hp
        rw [hp] at ih
        cases rest with
        | nil => simpa [List.intercalate] using ih
        | cons next rest => simpa [List.intercalate, List.intersperse] using ih

theorem not_mem_of_mem_pieces {mark : Char} {cs piece : List Char}
    (h : piece ∈ pieces mark cs) : mark ∉ piece := by
  induction cs generalizing piece with
  | nil => simp [pieces] at h; simp [h]
  | cons c cs ih =>
    rw [pieces] at h
    split at h
    · rcases List.mem_cons.1 h with rfl | h
      · simp
      · exact ih h
    · rename_i hc
      split at h
      · rename_i hp
        exact absurd hp (pieces_ne_nil mark cs)
      · rename_i first rest hp
        rcases List.mem_cons.1 h with rfl | h
        · have := ih (hp ▸ List.mem_cons_self)
          simp [this, Ne.symm hc]
        · exact ih (hp ▸ List.mem_cons_of_mem _ h)

end JavaAbi
