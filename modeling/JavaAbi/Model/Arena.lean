namespace JavaAbi

/-!
# Arenas

Storage that only grows: an item keeps the position it was given, so a position is a lasting
identity.
-/

/-- Items in the order in which they were added. -/
structure Arena (α : Type) where
  items : Array α := #[]
  deriving Inhabited

namespace Arena

variable {α : Type}

/-- Adds an item and answers its position. -/
def alloc (a : Arena α) (item : α) : Nat × Arena α := (a.items.size, ⟨a.items.push item⟩)

/-- The item at a position. -/
def get? (a : Arena α) (id : Nat) : Option α := a.items[id]?

/-- Replaces the item at a position that holds one. -/
def set? (a : Arena α) (id : Nat) (item : α) : Option (Arena α) :=
  if id < a.items.size then some ⟨a.items.setIfInBounds id item⟩ else none

/-- Number of items. -/
def size (a : Arena α) : Nat := a.items.size

/-- The items with their positions. -/
def entries (a : Arena α) : List (Nat × α) := a.items.toList.zipIdx.map Prod.swap

/-! ### Laws -/

@[simp] theorem size_alloc (a : Arena α) (x : α) : (a.alloc x).2.size = a.size + 1 := by
  simp [alloc, size]

@[simp] theorem get?_alloc_self (a : Arena α) (x : α) :
    (a.alloc x).2.get? (a.alloc x).1 = some x := by simp [alloc, get?]

theorem get?_alloc_of_lt (a : Arena α) (x : α) {id : Nat} (h : id < a.size) :
    (a.alloc x).2.get? id = a.get? id := by
  simp only [alloc, get?, size] at h ⊢
  rw [Array.getElem?_push_lt h, Array.getElem?_eq_getElem h]

theorem get?_set? (a : Arena α) {id : Nat} (x : α) (h : id < a.size) (k : Nat) :
    ((a.set? id x).getD a).get? k = if id = k then some x else a.get? k := by
  have hs : a.set? id x = some ⟨a.items.setIfInBounds id x⟩ := if_pos h
  rw [hs, Option.getD_some, get?, get?, Array.getElem?_setIfInBounds]
  split
  · exact if_pos h
  · rfl

end Arena

end JavaAbi
