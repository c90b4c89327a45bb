namespace JavaAbi

/-!
# Interned names

Every identifier, package path and qualified type name of a batch is held once, in a `NameTable`;
a `Name` is its position there, so that equal texts of one table are equal names.

* `NameTable.intern` — the name of a text, added at the end when it is new;
* `NameTable.resolve?` — the text of a name;
* `NameTable.qualify?`, `NameTable.qualifyPath` — dot-joined names.

Position 0 is the empty text: the name of the unnamed package and of nameless types.
-/

/-- The position of a text in the `NameTable` that issued it. -/
structure Name where
  index : Nat
  deriving DecidableEq, Inhabited, Repr

/-- The name of the empty text, the same in every table. -/
def Name.empty : Name := ⟨0⟩

/-- Distinct texts in the order in which they were first interned. -/
structure NameTable where
  texts : Array String
  first_empty : texts[0]? = some ""
  nodup : texts.toList.Nodup

namespace NameTable

/-- The table that holds the empty text only. -/
def fresh : NameTable where
  texts := #[""]
  first_empty := rfl
  nodup := by simp

instance : Inhabited NameTable := ⟨fresh⟩

/-- Number of texts held. -/
def size (t : NameTable) : Nat := t.texts.size

/-- Whether the table holds the empty text only. -/
def isFresh (t : NameTable) : Bool := t.size ≤ 1

/-- The name of a text that the table holds. -/
def find? (t : NameTable) (text : String) : Option Name :=
  (t.texts.findIdx? (· == text)).map Name.mk

/-- The text of a name; a name of another table may have none. -/
def resolve? (t : NameTable) (n : Name) : Option String := t.texts[n.index]?

/-- The text of a name that the table issued. -/
def text (t : NameTable) (n : Name) : String := (t.resolve? n).getD ""

/-! ### Interning -/

theorem mem_texts_of_find?_eq_none {t : NameTable} {s : String} (h : t.find? s = none) :
    s ∉ t.texts.toList := by
  simp only [find?, Option.map_eq_none_iff, Array.findIdx?_eq_none_iff] at h
  intro hs
  simpa using h s (by simpa using hs)

/-- The table with a text that it does not hold added at its end. -/
def push (t : NameTable) (s : String) (h : t.find? s = none) : NameTable where
  texts := t.texts.push s
  first_empty := by
    have := t.first_empty
    have h0 : 0 < t.texts.size := by
      rcases Nat.eq_zero_or_pos t.texts.size with h0 | h0
      · rw [Array.getElem?_eq_none (Nat.le_of_eq h0)] at this; cases this
      · exact h0
    rw [Array.getElem?_push_lt h0, ← this, Array.getElem?_eq_getElem h0]
  nodup := by
    rw [Array.toList_push, List.nodup_append]
    refine ⟨t.nodup, by simp, ?_⟩
    intro a ha b hb
    simp only [List.mem_singleton] at hb
    subst hb
    intro hab
    exact mem_texts_of_find?_eq_none h (hab ▸ ha)

/-- The name of a text, and the table that holds it: a new text goes to the end. -/
def intern (t : NameTable) (s : String) : Name × NameTable :=
  match h : t.find? s with
  | some n => (n, t)
  | none => (⟨t.size⟩, t.push s h)

/-- The names of several texts, interned from left to right. -/
def internAll (t : NameTable) : List String → List Name × NameTable
  | [] => ([], t)
  | s :: rest =>
    let (n, t) := t.intern s
    let (ns, t) := t.internAll rest
    (n :: ns, t)

/-! ### Growth -/

/-- A table agrees with another on every name that the other issued. -/
def Le (t u : NameTable) : Prop := ∀ n text, t.resolve? n = some text → u.resolve? n = some text

theorem Le.refl (t : NameTable) : t.Le t := fun _ _ h => h

theorem Le.trans {t u v : NameTable} (h : t.Le u) (h' : u.Le v) : t.Le v :=
  fun n text ht => h' n text (h n text ht)

theorem intern_of_find? {t : NameTable} {n : Name} {text : String} (h : t.find? text = some n) :
    t.intern text = (n, t) := by
  unfold intern
  split
  · rename_i m hm
    rw [h] at hm
    cases hm
    rfl
  · rename_i hm
    rw [h] at hm
    cases hm

theorem intern_of_find?_eq_none {t : NameTable} {text : String} (h : t.find? text = none) :
    t.intern text = (⟨t.size⟩, t.push text h) := by
  unfold intern
  split
  · rename_i m hm
    rw [h] at hm
    cases hm
  · rfl

theorem le_push {t : NameTable} {text : String} (h : t.find? text = none) :
    t.Le (t.push text h) := by
  intro n u hn
  obtain ⟨hlt, -⟩ := Array.getElem?_eq_some_iff.1 hn
  rw [← hn, resolve?, resolve?, push, Array.getElem?_push_lt hlt, Array.getElem?_eq_getElem hlt]

/-- **Tables only grow.** -/
theorem le_intern (t : NameTable) (text : String) : t.Le (t.intern text).2 := by
  cases hf : t.find? text with
  | none => rw [intern_of_find?_eq_none hf]; exact le_push hf
  | some n => rw [intern_of_find? hf]; exact Le.refl t

/-! ### Qualification -/

/-- The name of `simple` inside `outer`, dot-joined. Without an outer name, or with the empty one,
    it is `simple` itself; an empty `simple` cannot be qualified. -/
def qualify? (t : NameTable) (outer : Option Name) (simple : Name) : Option (Name × NameTable) :=
  if simple = .empty then none
  else
    match outer with
    | none => some (simple, t)
    | some o =>
      if o = .empty then some (simple, t)
      else do
        let o ← t.resolve? o
        let s ← t.resolve? simple
        return t.intern (o ++ "." ++ s)

/-- `qualify?` for callers that hold a non-empty simple name of this table. -/
def qualify (t : NameTable) (outer : Option Name) (simple : Name) : Name × NameTable :=
  (t.qualify? outer simple).getD (simple, t)

/-- Interns each segment of a path and qualifies from left to right. The path so far is `outer`.
    An empty segment stops the walk; the table keeps what was interned before it. -/
def qualifySegments (t : NameTable) (outer : Option Name) :
    List String → Option (Option Name) × NameTable
  | [] => (some outer, t)
  | s :: rest =>
    let (n, t) := t.intern s
    match t.qualify? outer n with
    | none => (none, t)
    | some (q, t) => t.qualifySegments (some q) rest

/-- The name of a dotted path given by its segments; an empty path has none. The outer `none` says
    that a segment was empty. -/
def qualifyPath (t : NameTable) (segments : List String) : Option (Option Name) × NameTable :=
  t.qualifySegments none segments

end NameTable

end JavaAbi
