import JavaAbi.Names

namespace JavaAbi

/-!
# Names and their texts

A table issues one name for each text, and tables that grow out of it agree with it.

* `NameTable.Issued`, `NameTable.Proper` — names of a table, and those of them that are not empty;
* `NameTable.resolve?_inj` — one name for each text;
* `NameTable.resolve?_intern` — interning gives the name of the text;
* `NameTable.qualify?_eq_some` — a name of the table and a non-empty one can always be joined;
* `NameTable.EndsIn` — what a joined name ends in.
-/

namespace NameTable

/-- A table has issued a name. -/
def Issued (t : NameTable) (n : Name) : Prop := ∃ text, t.resolve? n = some text

theorem Issued.le {t u : NameTable} {n : Name} (h : t.Issued n) (hle : t.Le u) : u.Issued n := by
  obtain ⟨text, ht⟩ := h
  exact ⟨text, hle n text ht⟩

/-- A table has issued a name, and the name is not the empty one. -/
def Proper (t : NameTable) (n : Name) : Prop := t.Issued n ∧ n ≠ .empty

theorem Proper.le {t u : NameTable} {n : Name} (h : t.Proper n) (hle : t.Le u) : u.Proper n :=
  ⟨h.1.le hle, h.2⟩

theorem text_eq {t : NameTable} {n : Name} {text : String} (h : t.resolve? n = some text) :
    t.text n = text := by rw [NameTable.text, h]; rfl

theorem Issued.resolve? {t : NameTable} {n : Name} (h : t.Issued n) :
    t.resolve? n = some (t.text n) := by
  obtain ⟨text, ht⟩ := h
  rw [text_eq ht, ht]

theorem text_le {t u : NameTable} {n : Name} (h : t.Issued n) (hle : t.Le u) :
    u.text n = t.text n := text_eq (hle n _ h.resolve?)

@[simp] theorem resolve?_empty (t : NameTable) : t.resolve? .empty = some "" := t.first_empty

@[simp] theorem text_empty (t : NameTable) : t.text .empty = "" := text_eq t.resolve?_empty

theorem issued_empty (t : NameTable) : t.Issued .empty := ⟨"", t.resolve?_empty⟩

/-! ### One name for each text -/

/-- **Names and texts of a table correspond.** Two names with one text are one name. -/
theorem resolve?_inj {t : NameTable} {n m : Name} {text : String} (hn : t.resolve? n = some text)
    (hm : t.resolve? m = some text) : n = m := by
  obtain ⟨i⟩ := n
  obtain ⟨j⟩ := m
  simp only [resolve?, ← Array.getElem?_toList] at hn hm
  obtain ⟨hi, -⟩ := List.getElem?_eq_some_iff.1 hn
  have hij : i = j := (List.getElem?_inj hi t.nodup).1 (hn.trans hm.symm)
  rw [hij]

theorem eq_of_text_eq {t : NameTable} {n m : Name} (hn : t.Issued n) (hm : t.Issued m)
    (h : t.text n = t.text m) : n = m :=
  resolve?_inj hn.resolve? (h ▸ hm.resolve?)

theorem text_ne_empty {t : NameTable} {n : Name} (hn : t.Issued n) (h : n ≠ .empty) :
    t.text n ≠ "" := fun h' =>
  h (resolve?_inj (h' ▸ hn.resolve?) t.resolve?_empty)

theorem resolve?_of_find? {t : NameTable} {n : Name} {text : String}
    (h : t.find? text = some n) : t.resolve? n = some text := by
  obtain ⟨i, hi, rfl⟩ := Option.map_eq_some_iff.1 h
  obtain ⟨hlt, heq, -⟩ := Array.findIdx?_eq_some_iff_getElem.1 hi
  rw [resolve?, Array.getElem?_eq_getElem hlt, eq_of_beq heq]

theorem find?_of_resolve? {t : NameTable} {n : Name} {text : String}
    (h : t.resolve? n = some text) : t.find? text = some n := by
  cases hf : t.find? text with
  | none =>
    have hmem : text ∈ t.texts.toList := Array.mem_toList_iff.2 (Array.mem_of_getElem? h)
    exact absurd hmem (mem_texts_of_find?_eq_none hf)
  | some m => rw [resolve?_inj (resolve?_of_find? hf) h]

theorem find?_eq_some_iff {t : NameTable} {n : Name} {text : String} :
    t.find? text = some n ↔ t.resolve? n = some text :=
  ⟨resolve?_of_find?, find?_of_resolve?⟩

/-! ### Interning -/

theorem intern_of_resolve? {t : NameTable} {n : Name} {text : String}
    (h : t.resolve? n = some text) : t.intern text = (n, t) :=
  intern_of_find? (find?_of_resolve? h)

/-- **Interning gives the name of the text.** -/
theorem resolve?_intern (t : NameTable) (text : String) :
    (t.intern text).2.resolve? (t.intern text).1 = some text := by
  cases hf : t.find? text with
  | none =>
    rw [intern_of_find?_eq_none hf]
    simp [resolve?, push, size]
  | some n => rw [intern_of_find? hf]; exact resolve?_of_find? hf

/-- The names of a table with one more text are its own, and the one of the text. -/
theorem resolve?_intern_inv (t : NameTable) {text other : String} {n : Name}
    (h : (t.intern text).2.resolve? n = some other) : t.resolve? n = some other ∨ other = text := by
  cases hf : t.find? text with
  | none =>
    rw [intern_of_find?_eq_none hf] at h
    simp only [resolve?, push, Array.getElem?_push] at h
    split at h
    · exact .inr (Option.some.inj h).symm
    · exact .inl h
  | some m =>
    rw [intern_of_find? hf] at h
    exact .inl h

theorem intern_ne_empty (t : NameTable) {text : String} (h : text ≠ "") :
    (t.intern text).1 ≠ .empty := by
  intro he
  have hr := t.resolve?_intern text
  rw [he, resolve?_empty] at hr
  exact h (Option.some.inj hr).symm

theorem proper_intern (t : NameTable) {text : String} (h : text ≠ "") :
    (t.intern text).2.Proper (t.intern text).1 :=
  ⟨⟨text, t.resolve?_intern text⟩, t.intern_ne_empty h⟩

/-! ### Qualification -/

/-- The text of `simple` inside `outer`. -/
def joined (outer : Option String) (simple : String) : String :=
  match outer with
  | none => simple
  | some o => if o = "" then simple else o ++ "." ++ simple

theorem joined_ne_empty (outer : Option String) {simple : String} (h : simple ≠ "") :
    joined outer simple ≠ "" := by
  unfold joined
  split
  · exact h
  · split
    · exact h
    · intro he
      simp only [String.append_eq_empty_iff] at he
      exact h he.2

/-- **Qualification is joining.** A non-empty name of the table can be qualified by any name of it;
    the answer is the name of the joined text. -/
theorem qualify?_eq_some {t : NameTable} {outer : Option Name} {simple : Name}
    (ho : ∀ o ∈ outer, t.Issued o) (hs : t.Issued simple) (hne : simple ≠ .empty) :
    ∃ n u, t.qualify? outer simple = some (n, u) ∧ t.Le u ∧
      u.resolve? n = some (joined (outer.map t.text) (t.text simple)) := by
  unfold qualify?
  rw [if_neg hne]
  cases outer with
  | none => exact ⟨simple, t, rfl, Le.refl t, hs.resolve?⟩
  | some o =>
    have hoi := ho o rfl
    by_cases hoe : o = .empty
    · simp only [hoe, if_true]
      refine ⟨simple, t, rfl, Le.refl t, ?_⟩
      simp [joined, hs.resolve?]
    · simp only [if_neg hoe, hoi.resolve?, hs.resolve?, Option.bind_eq_bind, Option.bind_some]
      refine ⟨_, _, rfl, le_intern t _, ?_⟩
      have hj : joined (some (t.text o)) (t.text simple) = t.text o ++ "." ++ t.text simple := by
        simp [joined, text_ne_empty hoi hoe]
      rw [Option.map_some, hj]
      exact t.resolve?_intern _

/-- A name of a table ends in another one, with a dot between what precedes it and it. -/
def EndsIn (t : NameTable) (n simple : Name) : Prop :=
  t.Issued n ∧ t.Issued simple ∧ ∃ outer, t.text n = joined outer (t.text simple)

theorem EndsIn.le {t u : NameTable} {n simple : Name} (h : t.EndsIn n simple) (hle : t.Le u) :
    u.EndsIn n simple := by
  obtain ⟨hn, hs, outer, htext⟩ := h
  exact ⟨hn.le hle, hs.le hle, outer, by rw [text_le hn hle, text_le hs hle, htext]⟩

theorem endsIn_of_joined {t u : NameTable} {n simple : Name} {outer : Option String}
    (hs : t.Issued simple) (hle : t.Le u)
    (hn : u.resolve? n = some (joined outer (t.text simple))) : u.EndsIn n simple :=
  ⟨⟨_, hn⟩, hs.le hle, outer, by rw [text_eq hn, text_le hs hle]⟩

end NameTable

end JavaAbi
