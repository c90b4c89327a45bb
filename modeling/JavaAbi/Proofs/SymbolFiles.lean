import Mathlib.Data.String.Basic
import JavaAbi.Proofs.JsonText
import JavaAbi.Symbols.Table

namespace JavaAbi

/-!
# Symbol files read back what they write

A table is a list in strictly increasing order of names, and that order makes it canonical: what
reading inserts one by one ends up where it was.

* `SymbolTable.find?_ofList` — a table knows the last descriptor inserted of each name, and no
  other name;
* `SymbolTable.sorted_ofList` — its descriptors are in strictly increasing order;
* `SymbolTable.ofList_of_sorted` — the descriptors of such a list, inserted again, are that list;
* `Descriptor.ofJson?_toJson` — a descriptor is read back from its record;
* `SymbolTable.file_roundTrip` — the whole file.
-/

/-! ### Tables -/

namespace SymbolTable

/-- Strictly increasing order of names. -/
def Sorted (ds : List Descriptor) : Prop :=
  ds.Pairwise (·.qualifiedName < ·.qualifiedName)

/-- Nothing but the new descriptor comes in. -/
theorem mem_insertInto {d e : Descriptor} {ds : List Descriptor} (h : e ∈ insertInto d ds) :
    e = d ∨ e ∈ ds := by
  induction ds with
  | nil => exact .inl (List.mem_singleton.mp h)
  | cons f ds ih =>
    rw [insertInto] at h
    split at h
    case isTrue => exact (List.mem_cons.mp h).imp_right (List.mem_cons_of_mem _)
    case isFalse =>
      split at h
      case isTrue => exact List.mem_cons.mp h
      case isFalse =>
        obtain rfl | h := List.mem_cons.mp h
        · exact .inr List.mem_cons_self
        · exact (ih h).imp_right (List.mem_cons_of_mem _)

/-- The order is kept. -/
theorem sorted_insertInto (d : Descriptor) {ds : List Descriptor} (h : Sorted ds) :
    Sorted (insertInto d ds) := by
  induction ds with
  | nil => exact List.pairwise_singleton _ _
  | cons e ds ih =>
    obtain ⟨hhead, htail⟩ := List.pairwise_cons.mp h
    rw [insertInto]
    split
    case isTrue heq => exact List.pairwise_cons.mpr ⟨fun f hf => heq ▸ hhead f hf, htail⟩
    case isFalse hne =>
      split
      case isTrue hlt =>
        refine List.pairwise_cons.mpr ⟨fun f hf => ?_, h⟩
        obtain rfl | hf := List.mem_cons.mp hf
        · exact hlt
        · exact lt_trans hlt (hhead f hf)
      case isFalse hlt =>
        refine List.pairwise_cons.mpr ⟨fun f hf => ?_, ih htail⟩
        obtain rfl | hf := mem_insertInto hf
        · exact lt_of_le_of_ne (not_lt.mp hlt) (Ne.symm hne)
        · exact hhead f hf

/-- A descriptor after all others goes to the end. -/
theorem insertInto_of_lt {d : Descriptor} {ds : List Descriptor}
    (h : ∀ e ∈ ds, e.qualifiedName < d.qualifiedName) : insertInto d ds = ds ++ [d] := by
  induction ds with
  | nil => rfl
  | cons e ds ih =>
    have he := h e List.mem_cons_self
    rw [insertInto, if_neg he.ne', if_neg he.asymm, ih fun f hf => h f (List.mem_cons_of_mem _ hf)]
    rfl

/-- A name is found where it was inserted last. -/
theorem find?_insert (t : SymbolTable) (d : Descriptor) (name : String) :
    (t.insert d).find? name = if d.qualifiedName = name then some d else t.find? name := by
  obtain ⟨ds⟩ := t
  show (insertInto d ds).find? (·.qualifiedName == name) = _
  induction ds with
  | nil => by_cases h : d.qualifiedName = name <;> simp [insertInto, find?, h]
  | cons e ds ih =>
    rw [insertInto]
    split
    case isTrue heq => by_cases h : d.qualifiedName = name <;> simp [find?, ← heq, h]
    case isFalse hne =>
      split
      case isTrue => by_cases h : d.qualifiedName = name <;> simp [find?, h]
      case isFalse =>
        by_cases he : e.qualifiedName = name
        · have hd : d.qualifiedName ≠ name := he ▸ hne
          simp [find?, he, hd]
        · simp [find?, he, ih]

theorem find?_foldl_insert (t : SymbolTable) (ds : List Descriptor) (name : String) :
    (ds.foldl insert t).find? name
      = (ds.reverse.find? (·.qualifiedName == name)).or (t.find? name) := by
  induction ds generalizing t with
  | nil => rfl
  | cons d ds ih =>
    rw [List.foldl_cons, ih, find?_insert, List.reverse_cons, List.find?_append, Option.or_assoc]
    by_cases h : d.qualifiedName = name <;> simp [h]

/-- A table knows the last descriptor of each name. -/
theorem find?_ofList (ds : List Descriptor) (name : String) :
    (ofList ds).find? name = ds.reverse.find? (·.qualifiedName == name) :=
  (find?_foldl_insert _ _ _).trans Option.or_none

/-- A table is in order. -/
theorem sorted_ofList (ds : List Descriptor) : Sorted (ofList ds).descriptors := by
  -- The fold starts at any table that is in order.
  suffices ∀ t : SymbolTable, Sorted t.descriptors → Sorted (ds.foldl insert t).descriptors from
    this {} .nil
  induction ds with
  | nil => exact fun t h => h
  | cons d ds ih => exact fun t h => ih _ (sorted_insertInto d h)

/-- What is in order is inserted at the end, one after the other. -/
theorem ofList_of_sorted {ds : List Descriptor} (h : Sorted ds) : ofList ds = ⟨ds⟩ := by
  -- The fold starts at what was inserted so far, and all of that comes before the rest.
  suffices ∀ front : List Descriptor, Sorted (front ++ ds) →
      ds.foldl insert ⟨front⟩ = ⟨front ++ ds⟩ from this [] h
  clear h
  induction ds with
  | nil => intro front _; rw [List.append_nil]; rfl
  | cons d ds ih =>
    intro front h
    have hfront : ∀ e ∈ front, e.qualifiedName < d.qualifiedName := fun e he =>
      (List.pairwise_append.mp h).2.2 e he d List.mem_cons_self
    have hinsert : insert ⟨front⟩ d = ⟨front ++ [d]⟩ :=
      congrArg SymbolTable.mk (insertInto_of_lt hfront)
    rw [List.append_cons] at h ⊢
    rw [List.foldl_cons, hinsert, ih _ h]

/-- The descriptors of a table are those that it knows. -/
theorem mem_ofList_iff (ds : List Descriptor) (d : Descriptor) :
    d ∈ (ofList ds).descriptors ↔ (ofList ds).find? d.qualifiedName = some d := by
  refine ⟨fun hd => ?_, fun hd => List.mem_of_find?_eq_some hd⟩
  obtain ⟨front, back, heq⟩ := List.append_of_mem hd
  have hsorted := sorted_ofList ds
  rw [heq] at hsorted
  -- Names before it are smaller, so the search does not stop at them.
  have hfront : ∀ e ∈ front, ¬(e.qualifiedName == d.qualifiedName) = true := fun e he =>
    by simpa using ((List.pairwise_append.mp hsorted).2.2 e he d List.mem_cons_self).ne
  rw [find?, heq, List.find?_append, List.find?_eq_none.mpr hfront]
  simp

end SymbolTable

/-! ### Reading what is written -/

namespace Json

theorem text?_ofText (text : String) : text? (.ofText text) = some text := by
  rw [ofText, text?, unescape?_escape, Option.map_some, String.ofList_toList]

theorem word?_ofText (text : String) : word? (.ofText text) = some text := text?_ofText text

/-- What is read item by item as it was written. -/
theorem mapM_read_write {α β : Type} {read : β → Option α} {write : α → β}
    (h : ∀ a, read (write a) = some a) (items : List α) :
    (items.map write).mapM read = some items := by
  induction items with
  | nil => rfl
  | cons a items ih =>
    rw [List.map_cons, List.mapM_cons, h, ih]
    rfl

/-- A list of values. -/
theorem list?_map {α : Type} {read : Json → Option α} {write : α → Json}
    (h : ∀ a, read (write a) = some a) (items : List α) :
    list? read (.array (items.map write)) = some items :=
  mapM_read_write h items

/-- The members of a record by name. -/
theorem members?_ofMembers (members : List (String × Json)) :
    members? (.ofMembers members) = some members := by
  refine mapM_read_write (fun m => ?_) members
  simp only [unescape?_escape, Option.bind_eq_bind, Option.bind_some, Option.pure_def,
    String.ofList_toList]

/-- A name that is written once has one value. -/
theorem filter_name {members : List (String × Json)} (hnodup : (members.map Prod.fst).Nodup)
    {m : String × Json} (hm : m ∈ members) : members.filter (·.1 == m.1) = [m] := by
  induction members with
  | nil => exact nomatch hm
  | cons n members ih =>
    obtain ⟨hn, hnodup⟩ := List.nodup_cons.mp hnodup
    obtain rfl | hm := List.mem_cons.mp hm
    · have hrest : ∀ n ∈ members, ¬(n.1 == m.1) = true := fun n hn' heq =>
        hn (List.mem_map.mpr ⟨n, hn', eq_of_beq heq⟩)
      rw [List.filter_cons, if_pos (beq_self_eq_true m.1), List.filter_eq_nil_iff.mpr hrest]
    · have hne : ¬(n.1 == m.1) = true := fun heq =>
        hn (List.mem_map.mpr ⟨m, hm, (eq_of_beq heq).symm⟩)
      rw [List.filter_cons, if_neg hne, ih hnodup hm]

/-- A record that has each of its fields once. -/
theorem fields?_ofMembers {names : List String} {members : List (String × Json)}
    (hnames : names = members.map Prod.fst) (hnodup : names.Nodup) :
    fields? names (.ofMembers members) = some (members.map fun m => some m.2) := by
  subst hnames
  suffices ∀ ms : List (String × Json), (∀ m ∈ ms, m ∈ members) →
      fieldsOfMembers? (ms.map Prod.fst) members = some (ms.map fun m => some m.2) by
    show (members? (.ofMembers members)).bind _ = _
    rw [members?_ofMembers]
    exact this members fun _ h => h
  intro ms hms
  induction ms with
  | nil => rfl
  | cons m ms ih =>
    have hrest := ih fun n hn => hms n (List.mem_cons_of_mem _ hn)
    rw [fieldsOfMembers?] at hrest
    rw [fieldsOfMembers?, List.map_cons, List.mapM_cons,
      filter_name hnodup (hms m List.mem_cons_self), hrest]
    rfl

/-- A text or none. -/
theorem nullable?_text (text : Option String) :
    nullable? text? ((text.map Json.ofText).getD .null) = some text := by
  cases text with
  | none => rfl
  | some text => exact congrArg (·.map some) (text?_ofText text)

end Json

/-- A descriptor is written without a number. -/
theorem Descriptor.written_toJson (d : Descriptor) : d.toJson.Written := by
  refine .ofMembers fun m hm => ?_
  have hsuper : ((d.superclass.map Json.ofText).getD .null).Written := by
    cases d.superclass with
    | none => exact .null
    | some text => exact .ofText text
  simp only [List.mem_cons, List.not_mem_nil, or_false] at hm
  rcases hm with rfl | rfl | rfl | rfl | rfl | rfl | rfl
  · exact .ofText _
  · exact .ofText _
  · exact .ofText _
  · exact .map (fun _ => .ofText _) _
  · exact .map (fun _ => .ofText _) _
  · exact hsuper
  · exact .map (fun _ => .ofText _) _

/-- A descriptor is read back from its record. -/
theorem Descriptor.ofJson?_toJson (d : Descriptor) : ofJson? d.toJson = some d := by
  rw [ofJson?, toJson, Json.fields?_ofMembers (by rfl) (by decide)]
  have hkind : (do DeclKind.ofWord? (← Json.word? (.ofText d.kind.word))) = some d.kind := by
    rw [Json.word?_ofText]
    exact DeclKind.ofWord?_word d.kind
  have hmodifiers : Json.list? (fun j => do Modifier.ofKeyword? (← j.word?))
      (.array (d.modifiers.map fun m => .ofText m.keyword)) = some d.modifiers := by
    refine Json.list?_map (fun m => ?_) d.modifiers
    rw [Json.word?_ofText]
    exact Modifier.ofKeyword?_keyword m
  simp only [Option.bind_eq_bind, Option.bind_some, List.map_cons, List.map_nil, Json.required?,
    Json.optional?, Json.text?_ofText, Json.nullable?_text, Json.list?_map Json.text?_ofText]
  simp only [Option.bind_eq_bind] at hkind hmodifiers
  rw [hkind, hmodifiers]
  rfl

/-! ### The file -/

namespace SymbolTable

/-- The file of a table is the record of its descriptors, in the order of the table. -/
theorem parse?_toJsonText (t : SymbolTable) :
    Json.parse? t.toJsonText
      = some (.ofMembers [("symbols", .array (t.descriptors.map Descriptor.toJson))]) := by
  refine Json.parse?_pretty (.ofMembers fun m hm => ?_)
  rw [List.mem_singleton.mp hm]
  exact .map Descriptor.written_toJson _

/-- The table that a record of descriptors gives. -/
theorem ofJson?_ofMembers (ds : List Descriptor) :
    ofJson? (.ofMembers [("symbols", .array (ds.map Descriptor.toJson))]) = some (ofList ds) := by
  rw [ofJson?, Json.fields?_ofMembers (by rfl) (by decide)]
  simp only [Option.bind_eq_bind, Option.bind_some, List.map_cons, List.map_nil, Json.optional?,
    Json.list?_map Descriptor.ofJson?_toJson]
  rfl

/-- **Symbol files read back what they write.** The table of any descriptors, inserted in any
    order, is the table that its file is read as; it knows the last descriptor inserted of each
    name and no other name; and its file is the record of the descriptors that it knows, in strictly
    increasing order of their names. -/
theorem file_roundTrip (ds : List Descriptor) :
    ofJsonText? (ofList ds).toJsonText = some (ofList ds) ∧
    (∀ name, (ofList ds).find? name = ds.reverse.find? (·.qualifiedName == name)) ∧
    ∃ listed : List Descriptor,
      Json.parse? (ofList ds).toJsonText
        = some (.ofMembers [("symbols", .array (listed.map Descriptor.toJson))]) ∧
      listed.Pairwise (·.qualifiedName < ·.qualifiedName) ∧
      ∀ d, d ∈ listed ↔ (ofList ds).find? d.qualifiedName = some d := by
  refine ⟨?_, find?_ofList ds, _, parse?_toJsonText _, sorted_ofList ds, mem_ofList_iff ds⟩
  rw [ofJsonText?, parse?_toJsonText]
  exact (ofJson?_ofMembers _).trans (congrArg some (ofList_of_sorted (sorted_ofList ds)))

end SymbolTable

end JavaAbi
