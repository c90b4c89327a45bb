import JavaAbi.Json.Printer
import JavaAbi.Json.Reader

namespace JavaAbi.Json

/-!
# What the JSON reader makes of the printer's text

The printer puts blanks between the marks of a value, the reader steps over blanks before a mark:
whatever the depth at which a value is printed, and whatever follows it, the reader gives back the
value and what follows.

* `unescape?_escape`, `Reader.inside?_escape` — a text inside of quotes, character by character;
* `Written` — the values of texts, words, lists and records, that is, those without a number;
* `Reader.value?_prettyAt` — the reader on a printed value, with as much fuel as the text is long;
* `parse?_pretty` — a printed value is read back.
-/

/-! ### Escapes -/

/-- A digit is read as the number that it writes. -/
theorem hexValue?_digitChar : ∀ n < 16, hexValue? (Nat.digitChar n) = some n := by decide

/-- What an escaped character may be: a letter after a backslash, the code of a control character,
    or itself. -/
theorem escapeChar_cases (c : Char) :
    (∃ letter, escapeChar c = ['\\', letter] ∧ simpleEscape? letter = some c ∧ letter ≠ 'u') ∨
    (∃ a b, escapeChar c = ['\\', 'u', '0', '0', a, b] ∧ hex4? '0' '0' a b = some c.toNat ∧
      c.toNat < 0x20) ∨
    (escapeChar c = [c] ∧ c ≠ '"' ∧ c ≠ '\\' ∧ ¬c.toNat < 0x20) := by
  unfold escapeChar
  split
  case h_8 hquote hslash _ _ _ _ _ =>
    split
    case isTrue hc =>
      -- A control character is below 32, so the two last of its four digits are enough.
      have hhigh := hexValue?_digitChar (c.toNat / 16) (by omega)
      have hlow := hexValue?_digitChar (c.toNat % 16) (by omega)
      have hzero : hexValue? '0' = some 0 := by decide
      refine .inr (.inl ⟨_, _, rfl, ?_, hc⟩)
      simp only [hex4?, hzero, hhigh, hlow, Option.bind_eq_bind, Option.bind_some, Option.pure_def]
      congr 1
      omega
    case isFalse hc => exact .inr (.inr ⟨rfl, hquote, hslash, hc⟩)
  all_goals exact .inl ⟨_, rfl, by decide, by decide⟩

/-- An escaped character denotes the character. -/
theorem unescape?_escapeChar (c : Char) (rest : List Char) :
    unescape? (escapeChar c ++ rest) = (unescape? rest).map (c :: ·) := by
  obtain ⟨letter, heq, hletter, hu⟩ | ⟨a, b, heq, hcode, hc⟩ | ⟨heq, hquote, hslash, hc⟩ :=
    escapeChar_cases c
  · rw [heq, List.cons_append, List.singleton_append, unescape?]
    · rw [hletter]
      cases unescape? rest <;> rfl
    · exact fun _ _ _ _ _ h => absurd h hu
  · rw [heq]
    show unescape? ('\\' :: 'u' :: '0' :: '0' :: a :: b :: rest) = _
    rw [unescape?, hcode]
    -- The code is of a control character, so it is no half of a surrogate pair.
    simp only [show ¬(0xdc00 ≤ c.toNat ∧ c.toNat ≤ 0xdfff) by omega,
      show ¬(0xd800 ≤ c.toNat ∧ c.toNat ≤ 0xdbff) by omega, ite_false, Char.ofNat_toNat]
  · rw [heq, List.singleton_append, unescape?]
    · simp only [hquote, hslash, hc, or_self, ite_false]
    all_goals exact fun _ _ => by intros; contradiction

/-- An escaped text denotes the text. -/
theorem unescape?_escape (text : List Char) : unescape? (escape text) = some text := by
  induction text with
  | nil => rfl
  | cons c text ih =>
    rw [escape, List.flatMap_cons, unescape?_escapeChar, ← escape, ih]
    rfl

/-- The closing quote is not among the escaped characters. -/
theorem Reader.inside?_escapeChar (c : Char) (rest : List Char) :
    inside? (escapeChar c ++ rest)
      = (inside? rest).map fun (text, rest) => (escapeChar c ++ text, rest) := by
  obtain ⟨letter, heq, hletter, hu⟩ | ⟨a, b, heq, hcode, hc⟩ | ⟨heq, hquote, hslash, hc⟩ :=
    escapeChar_cases c
  · rw [heq, List.cons_append, List.singleton_append, inside?]
    · rw [hletter]
      rfl
    · exact fun _ _ _ _ _ h => absurd h hu
  · rw [heq]
    show inside? ('\\' :: 'u' :: '0' :: '0' :: a :: b :: rest) = _
    rw [inside?, hcode]
    rfl
  · rw [heq, List.singleton_append, inside?]
    · simp only [hslash, hc, or_self, ite_false, List.singleton_append]
    · exact hquote
    all_goals exact fun _ _ => by intros; contradiction

/-- An escaped text goes as far as the closing quote. -/
theorem Reader.inside?_escape (text rest : List Char) :
    inside? (escape text ++ '"' :: rest) = some (escape text, rest) := by
  induction text with
  | nil => rfl
  | cons c text ih =>
    rw [escape, List.flatMap_cons, List.append_assoc, inside?_escapeChar, ← escape, ih]
    rfl

/-! ### Values without numbers -/

/-- The values that texts, words, lists and records are written as. -/
inductive Written : Json → Prop where
  | null : Written .null
  | bool (value : Bool) : Written (.bool value)
  | text (text : List Char) : Written (.string (escape text))
  | array {items : List Json} (each : ∀ item ∈ items, Written item) : Written (.array items)
  | object {members : List (List Char × Json)} (names : ∀ m ∈ members, ∃ text, m.1 = escape text)
      (each : ∀ m ∈ members, Written m.2) : Written (.object members)

/-- The value of a text. -/
theorem Written.ofText (text : String) : Written (.ofText text) := .text text.toList

/-- The list of several values. -/
theorem Written.map {α : Type} {write : α → Json} (hwrite : ∀ a, Written (write a))
    (items : List α) : Written (.array (items.map write)) := by
  refine .array fun item hitem => ?_
  obtain ⟨a, -, rfl⟩ := List.mem_map.mp hitem
  exact hwrite a

/-- The record of several values. -/
theorem Written.ofMembers {members : List (String × Json)} (each : ∀ m ∈ members, Written m.2) :
    Written (.ofMembers members) := by
  refine .object (fun m hm => ?_) fun m hm => ?_ <;> obtain ⟨n, hn, rfl⟩ := List.mem_map.mp hm
  · exact ⟨_, rfl⟩
  · exact each n hn

/-! ### Blanks -/

namespace Reader

/-- A text of blanks. -/
def Blank (cs : List Char) : Prop := ∀ c ∈ cs, isSpace c = true

theorem blank_nil : Blank [] := fun _ h => nomatch h

theorem blank_newline (depth : Nat) : Blank (newline depth) := by
  intro c hc
  obtain rfl | hc := List.mem_cons.mp hc
  · rfl
  · rw [List.eq_of_mem_replicate hc]
    rfl

/-- Blanks in front are stepped over. -/
theorem skipSpace_append {blanks : List Char} (h : Blank blanks) (cs : List Char) :
    skipSpace (blanks ++ cs) = skipSpace cs :=
  List.dropWhile_append_of_pos h

/-- Nothing is stepped over before a mark. -/
theorem skipSpace_cons {c : Char} (h : isSpace c = false) (cs : List Char) :
    skipSpace (c :: cs) = c :: cs :=
  List.dropWhile_cons_of_neg (by simp [h])

theorem value?_blank {blanks : List Char} (h : Blank blanks) (fuel : Nat) (cs : List Char) :
    value? fuel (blanks ++ cs) = value? fuel cs := by
  cases fuel with
  | zero => rw [value?, value?]
  | succ fuel => rw [value?, value?, skipSpace_append h]

/-! ### Printed values -/

/-- The mark that a printed value starts with. -/
theorem prettyAt_head {j : Json} (hj : Written j) (depth : Nat) :
    ∃ c cs, prettyAt depth j = c :: cs ∧ isSpace c = false ∧ c ≠ ']' := by
  cases hj with
  | null => exact ⟨'n', _, rfl, rfl, by decide⟩
  | bool value => cases value <;> exact ⟨_, _, rfl, rfl, by decide⟩
  | text text => exact ⟨'"', _, rfl, rfl, by decide⟩
  | @array items each => cases items <;> exact ⟨'[', _, rfl, rfl, by decide⟩
  | @object members names each => cases members <;> exact ⟨'{', _, rfl, rfl, by decide⟩

/-- The reader gives a value back whenever it is printed and enough fuel is there. -/
def ReadsBack (j : Json) : Prop :=
  ∀ (depth fuel : Nat) (rest : List Char), (prettyAt depth j).length ≤ fuel →
    value? fuel (prettyAt depth j ++ rest) = some (j, rest)

/-- The items of a printed array, from the first one on. -/
theorem items?_pretty {blanks : List Char} (hblanks : Blank blanks) (depth : Nat) {item : Json}
    {items : List Json} (hitem : ReadsBack item) (hitems : ∀ j ∈ items, ReadsBack j) {fuel : Nat}
    (hfuel : (prettyAt (depth + 1) item).length + (prettyItems depth items).length < fuel)
    (rest : List Char) :
    items? fuel (blanks ++ (prettyAt (depth + 1) item
      ++ (prettyItems depth items ++ (newline depth ++ ']' :: rest))))
      = some (item :: items, rest) := by
  induction items generalizing item blanks fuel with
  | nil =>
    obtain ⟨fuel, rfl⟩ := Nat.exists_eq_add_one_of_ne_zero (Nat.ne_zero_of_lt hfuel)
    rw [items?, value?_blank hblanks, hitem _ _ _ (by omega), prettyItems, List.nil_append]
    simp only [Option.bind_eq_bind, Option.bind_some, skipSpace_append (blank_newline depth)]
    rfl
  | cons next items ih =>
    obtain ⟨fuel, rfl⟩ := Nat.exists_eq_add_one_of_ne_zero (Nat.ne_zero_of_lt hfuel)
    simp only [prettyItems, List.length_append, List.length_cons] at hfuel
    -- What follows the comma is a line break and the items that are left.
    have hnext := ih (blank_newline (depth + 1)) (hitems next List.mem_cons_self)
      (fun j hj => hitems j (List.mem_cons_of_mem _ hj)) (show _ < fuel by omega)
    rw [items?, value?_blank hblanks, hitem _ _ _ (by omega), prettyItems]
    simp only [Option.bind_eq_bind, Option.bind_some, List.cons_append, List.append_assoc,
      skipSpace_cons (show isSpace ',' = false from rfl), hnext]
    rfl

/-- The members of a printed object, from the first one on. -/
theorem members?_pretty {blanks : List Char} (hblanks : Blank blanks) (depth : Nat)
    (name : List Char) {value : Json} {members : List (List Char × Json)}
    (hvalue : ReadsBack value) (hmembers : ∀ m ∈ members, ReadsBack m.2)
    (hnames : ∀ m ∈ members, ∃ text, m.1 = escape text) {fuel : Nat}
    (hfuel : (prettyAt (depth + 1) value).length + (prettyMembers depth members).length < fuel)
    (rest : List Char) :
    members? fuel (blanks ++ '"' :: (escape name ++ '"' :: ':' :: ' ' ::
      (prettyAt (depth + 1) value
        ++ (prettyMembers depth members ++ (newline depth ++ '}' :: rest)))))
      = some ((escape name, value) :: members, rest) := by
  have hspace : Blank [' '] := fun c hc => by rw [List.mem_singleton.mp hc]; rfl
  induction members generalizing name value blanks fuel with
  | nil =>
    obtain ⟨fuel, rfl⟩ := Nat.exists_eq_add_one_of_ne_zero (Nat.ne_zero_of_lt hfuel)
    have hread := (value?_blank hspace fuel _).trans (hvalue (depth + 1) fuel
      (newline depth ++ '}' :: rest) (by omega))
    rw [List.singleton_append] at hread
    rw [members?, skipSpace_append hblanks, skipSpace_cons rfl]
    simp only [Option.bind_eq_bind, Option.bind_some, inside?_escape, prettyMembers,
      List.nil_append, skipSpace_cons (show isSpace ':' = false from rfl), hread,
      skipSpace_append (blank_newline depth)]
    rfl
  | cons next members ih =>
    obtain ⟨fuel, rfl⟩ := Nat.exists_eq_add_one_of_ne_zero (Nat.ne_zero_of_lt hfuel)
    obtain ⟨text, hname⟩ := hnames next List.mem_cons_self
    obtain ⟨nextName, nextValue⟩ := next
    obtain rfl : nextName = escape text := hname
    simp only [prettyMembers, List.length_append, List.length_cons] at hfuel
    have hread := (value?_blank hspace fuel _).trans (hvalue (depth + 1) fuel
      (prettyMembers depth ((escape text, nextValue) :: members) ++ (newline depth ++ '}' :: rest))
      (by omega))
    rw [List.singleton_append] at hread
    have hnextValue : ReadsBack nextValue := hmembers _ List.mem_cons_self
    -- The other members stand on lines of their own, behind a comma.
    have hnext := ih (blank_newline (depth + 1)) text hnextValue
      (fun m hm => hmembers m (List.mem_cons_of_mem _ hm))
      (fun m hm => hnames m (List.mem_cons_of_mem _ hm)) (show _ < fuel by omega)
    rw [members?, skipSpace_append hblanks, skipSpace_cons rfl]
    simp only [Option.bind_eq_bind, Option.bind_some, inside?_escape,
      skipSpace_cons (show isSpace ':' = false from rfl), hread]
    simp only [prettyMembers, List.cons_append, List.append_assoc, List.nil_append,
      skipSpace_cons (show isSpace ',' = false from rfl), hnext]
    rfl

/-- An array that does not close at once is read as its items. -/
theorem value?_items {c : Char} (hspace : isSpace c = false) (hbracket : c ≠ ']')
    {blanks : List Char} (hblanks : Blank blanks) (fuel : Nat) (cs : List Char) :
    value? (fuel + 1) ('[' :: (blanks ++ c :: cs))
      = (items? fuel (c :: cs)).map fun (items, rest) => (.array items, rest) := by
  rw [value?, skipSpace_cons rfl]
  simp only [skipSpace_append hblanks, skipSpace_cons hspace]
  split
  case h_1 h => exact absurd (List.cons.inj h).1 hbracket
  case h_2 => rfl

/-- An object that does not close at once is read as its members. -/
theorem value?_members {blanks : List Char} (hblanks : Blank blanks) (fuel : Nat)
    (cs : List Char) :
    value? (fuel + 1) ('{' :: (blanks ++ '"' :: cs))
      = (members? fuel ('"' :: cs)).map fun (members, rest) => (.object members, rest) := by
  rw [value?, skipSpace_cons rfl]
  simp only [skipSpace_append hblanks, skipSpace_cons (show isSpace '"' = false from rfl)]
  rfl

/-- A written value is read back whenever it is printed. -/
theorem value?_prettyAt {j : Json} (hj : Written j) : ReadsBack j := by
  induction hj with
  | null =>
    intro depth fuel rest hfuel
    obtain ⟨fuel, rfl⟩ := Nat.exists_eq_add_one_of_ne_zero (Nat.ne_zero_of_lt hfuel)
    rfl
  | bool value =>
    intro depth fuel rest hfuel
    cases value <;>
    · obtain ⟨fuel, rfl⟩ := Nat.exists_eq_add_one_of_ne_zero (Nat.ne_zero_of_lt hfuel)
      rfl
  | text text =>
    intro depth fuel rest hfuel
    obtain ⟨fuel, rfl⟩ := Nat.exists_eq_add_one_of_ne_zero (Nat.ne_zero_of_lt hfuel)
    rw [prettyAt, value?, List.cons_append, List.append_assoc, skipSpace_cons rfl]
    simp only [List.singleton_append, inside?_escape, Option.map_some]
  | @array items each ih =>
    intro depth fuel rest hfuel
    cases items with
    | nil =>
      obtain ⟨fuel, rfl⟩ := Nat.exists_eq_add_one_of_ne_zero (Nat.ne_zero_of_lt hfuel)
      rfl
    | cons item items =>
      obtain ⟨fuel, rfl⟩ := Nat.exists_eq_add_one_of_ne_zero (Nat.ne_zero_of_lt hfuel)
      simp only [prettyAt, List.length_append, List.length_cons] at hfuel
      obtain ⟨c, cs, hhead, hc, hbracket⟩ :=
        prettyAt_head (each item List.mem_cons_self) (depth + 1)
      -- The reader has stepped over the line break already when it asks for the first item.
      have hitems := items?_pretty blank_nil depth (ih item List.mem_cons_self)
        (fun j hj => ih j (List.mem_cons_of_mem _ hj)) (show _ < fuel by omega) rest
      rw [List.nil_append, hhead, List.cons_append] at hitems
      have hread := value?_items hc hbracket (blank_newline (depth + 1)) fuel
        (cs ++ (prettyItems depth items ++ (newline depth ++ ']' :: rest)))
      rw [hitems] at hread
      rw [prettyAt, hhead]
      simpa only [List.cons_append, List.append_assoc, List.nil_append, Option.map_some] using hread
  | @object members names each ih =>
    intro depth fuel rest hfuel
    cases members with
    | nil =>
      obtain ⟨fuel, rfl⟩ := Nat.exists_eq_add_one_of_ne_zero (Nat.ne_zero_of_lt hfuel)
      rfl
    | cons first members =>
      obtain ⟨fuel, rfl⟩ := Nat.exists_eq_add_one_of_ne_zero (Nat.ne_zero_of_lt hfuel)
      obtain ⟨text, hname⟩ := names first List.mem_cons_self
      obtain ⟨name, value⟩ := first
      obtain rfl : name = escape text := hname
      simp only [prettyAt, List.length_append, List.length_cons] at hfuel
      have hvalue : ReadsBack value := ih _ List.mem_cons_self
      have hmembers := members?_pretty blank_nil depth text hvalue
        (fun m hm => ih m (List.mem_cons_of_mem _ hm))
        (fun m hm => names m (List.mem_cons_of_mem _ hm)) (show _ < fuel by omega) rest
      have hread := value?_members (blank_newline (depth + 1)) fuel (escape text ++ '"' :: ':' ::
        ' ' :: (prettyAt (depth + 1) value ++
          (prettyMembers depth members ++ (newline depth ++ '}' :: rest))))
      rw [← List.nil_append ('"' :: _), hmembers] at hread
      rw [prettyAt]
      simpa only [List.cons_append, List.append_assoc, List.nil_append, Option.map_some] using hread

end Reader

/-- What is printed of a value is read as that value. -/
theorem parse?_pretty {j : Json} (hj : Written j) : parse? j.pretty = some j := by
  have hread := Reader.value?_prettyAt hj 0 ((prettyAt 0 j).length + 1) [] (by omega)
  rw [List.append_nil] at hread
  rw [parse?, pretty, String.toList_ofList, hread]
  rfl

end JavaAbi.Json
