namespace JavaAbi

/-!
# Byte offsets

Offsets into a text count the bytes of its UTF-8 form, while the text itself is a list of
characters. `dropBytes?` and `takeBytes?` cut at an offset when it lies between two characters of the
text, and `sliceBytes?` is the text between two offsets. `minus?` is the distance of two offsets.
-/

/-- Number of bytes of a text in UTF-8. -/
def byteLength (cs : List Char) : Nat := cs.foldr (fun c n => c.utf8Size + n) 0

/-- What follows the first `n` bytes; nothing when `n` lies inside a character or past the end. -/
def dropBytes? : Nat → List Char → Option (List Char)
  | 0, cs => some cs
  | _ + 1, [] => none
  | n + 1, c :: cs => if c.utf8Size ≤ n + 1 then dropBytes? (n + 1 - c.utf8Size) cs else none

/-- The first `n` bytes; nothing when `n` lies inside a character or past the end. -/
def takeBytes? : Nat → List Char → Option (List Char)
  | 0, _ => some []
  | _ + 1, [] => none
  | n + 1, c :: cs =>
    if c.utf8Size ≤ n + 1 then (takeBytes? (n + 1 - c.utf8Size) cs).map (c :: ·) else none

/-- The text from byte `start` to byte `stop`. -/
def sliceBytes? (start stop : Nat) (cs : List Char) : Option (List Char) :=
  if start ≤ stop then do takeBytes? (stop - start) (← dropBytes? start cs) else none

/-- The difference of two numbers, if it is not below zero. -/
def minus? (a b : Nat) : Option Nat := if b ≤ a then some (a - b) else none

/-! ### Laws -/

@[simp] theorem byteLength_nil : byteLength [] = 0 := rfl

@[simp] theorem byteLength_cons (c : Char) (cs : List Char) :
    byteLength (c :: cs) = c.utf8Size + byteLength cs := rfl

@[simp] theorem byteLength_append (as bs : List Char) :
    byteLength (as ++ bs) = byteLength as + byteLength bs := by
  induction as with
  | nil => simp
  | cons c as ih => rw [List.cons_append, byteLength_cons, byteLength_cons, ih, Nat.add_assoc]

theorem dropBytes?_append (as bs : List Char) :
    dropBytes? (byteLength as) (as ++ bs) = some bs := by
  induction as with
  | nil => simp [dropBytes?]
  | cons c as ih =>
    have hc : 0 < c.utf8Size := c.utf8Size_pos
    obtain ⟨m, hm⟩ : ∃ m, byteLength (c :: as) = m + 1 := ⟨byteLength (c :: as) - 1, by
      rw [byteLength_cons]; omega⟩
    rw [hm, List.cons_append, dropBytes?]
    rw [byteLength_cons] at hm
    have : m + 1 - c.utf8Size = byteLength as := by omega
    rw [if_pos (by omega), this, ih]

theorem takeBytes?_append (as bs : List Char) :
    takeBytes? (byteLength as) (as ++ bs) = some as := by
  induction as with
  | nil => simp [takeBytes?]
  | cons c as ih =>
    have hc : 0 < c.utf8Size := c.utf8Size_pos
    obtain ⟨m, hm⟩ : ∃ m, byteLength (c :: as) = m + 1 := ⟨byteLength (c :: as) - 1, by
      rw [byteLength_cons]; omega⟩
    rw [hm, List.cons_append, takeBytes?]
    rw [byteLength_cons] at hm
    have : m + 1 - c.utf8Size = byteLength as := by omega
    rw [if_pos (by omega), this, ih]
    rfl

/-- The slice between the ends of a middle part is that part. -/
theorem sliceBytes?_append (as bs cs : List Char) :
    sliceBytes? (byteLength as) (byteLength as + byteLength bs) (as ++ (bs ++ cs)) = some bs := by
  rw [sliceBytes?, if_pos (Nat.le_add_right ..), Nat.add_sub_cancel_left, dropBytes?_append]
  exact takeBytes?_append bs cs

end JavaAbi
