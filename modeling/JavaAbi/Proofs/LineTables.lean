import Mathlib.Data.List.DropRight
import JavaAbi.Proofs.Bisection
import JavaAbi.Proofs.CaretRows

namespace JavaAbi

/-!
# Places from the line table

The table of a file cuts its bytes where its lines start. An offset is told by what stands before its
line, so each answer is one sum or difference of lengths, and the text below 32 bits leaves all of
them in range. What the table answers is then what the text itself gives, read byte by byte.

* `LineAt` — a text cut at the line of an offset;
* `SourceFile.lineStarts_line` — the two entries of the table around an offset;
* `SourceFile.lineCol?_line`, `SourceFile.lineText?_line` — the answers of the table, each step of
  them in range;
* `SourceFile.lineCol_of_le`, `SourceFile.bytes_lineText` — lines and columns as counts of bytes;
* `SourceFile.lines_exact` — line, column and text of every offset.
-/

/-! ### Bytes of a text -/

/-- The bytes of a text. -/
def encoded (cs : List Char) : List UInt8 := cs.flatMap String.utf8EncodeChar

@[simp] theorem encoded_nil : encoded [] = [] := rfl

@[simp] theorem encoded_append (as bs : List Char) :
    encoded (as ++ bs) = encoded as ++ encoded bs := List.flatMap_append

@[simp] theorem encoded_cons (c : Char) (cs : List Char) :
    encoded (c :: cs) = String.utf8EncodeChar c ++ encoded cs := rfl

@[simp] theorem length_encoded (cs : List Char) : (encoded cs).length = byteLength cs := by
  induction cs with
  | nil => rfl
  | cons c cs ih => simp [ih]

theorem toList_toUTF8 (text : String) : text.toUTF8.data.toList = encoded text.toList := by
  have h : text.toUTF8 = (encoded text.toList).toByteArray := String.utf8Encode_toList.symm
  rw [h]
  simp

/-- A byte below 128 is a character of its own. -/
theorem toNat_of_mem_utf8EncodeChar {c : Char} {b : UInt8} (hb : b.toNat < 128)
    (h : b ∈ String.utf8EncodeChar c) : c.toNat = b.toNat := by
  have hval : c.toNat = c.val.toNat := rfl
  simp only [String.utf8EncodeChar] at h
  repeat' split at h
  all_goals
    simp only [List.mem_cons, List.not_mem_nil, or_false, ← UInt8.toNat_inj, UInt8.toNat_ofNat',
      Nat.reducePow] at h
    omega

@[simp] theorem utf8Size_lineFeed : '\n'.utf8Size = 1 := rfl

theorem utf8EncodeChar_lineFeed : String.utf8EncodeChar '\n' = [SourceFile.lineFeed] := rfl

theorem lineFeed_not_mem_encoded {cs : List Char} (h : '\n' ∉ cs) :
    SourceFile.lineFeed ∉ encoded cs := by
  intro hmem
  obtain ⟨c, hc, hbyte⟩ := List.mem_flatMap.1 hmem
  have hcode := toNat_of_mem_utf8EncodeChar (by decide) hbyte
  have : c = '\n' := Char.toNat_inj.1 hcode
  exact h (this ▸ hc)

/-! ### The line of an offset -/

/-- An offset of a text cuts it into the lines before its line, the line without its end, and the
    rest. Offsets past the end belong to the last line. -/
structure LineAt (cs : List Char) (offset : Nat) (before line rest : List Char) : Prop where
  whole : cs = before ++ (line ++ rest)
  starts : before = [] ∨ ∃ more, before = more ++ ['\n']
  inside : '\n' ∉ line
  stops : rest = [] ∨ ∃ more, rest = '\n' :: more
  le : byteLength before ≤ offset
  within : rest = [] ∨ offset ≤ byteLength before + byteLength line

namespace LineAt

variable {cs before line rest : List Char} {offset : Nat}

/-- A line feed in front is a line of its own. -/
theorem cons_feed (h : LineAt cs offset before line rest) :
    LineAt ('\n' :: cs) (offset + 1) ('\n' :: before) line rest where
  whole := congrArg ('\n' :: ·) h.whole
  starts := by
    rcases h.starts with rfl | ⟨more, rfl⟩
    · exact .inr ⟨[], rfl⟩
    · exact .inr ⟨'\n' :: more, rfl⟩
  inside := h.inside
  stops := h.stops
  le := by
    have hle := h.le
    rw [byteLength_cons, utf8Size_lineFeed]
    omega
  within := h.within.imp_right fun hwithin => by
    rw [byteLength_cons, utf8Size_lineFeed]
    omega

/-- Another character in front belongs to the first line. -/
theorem cons_first {c : Char} (hfeed : c ≠ '\n') (h : LineAt cs (offset - c.utf8Size) [] line rest) :
    LineAt (c :: cs) offset [] (c :: line) rest where
  whole := congrArg (c :: ·) h.whole
  starts := .inl rfl
  inside := by simp [Ne.symm hfeed, h.inside]
  stops := h.stops
  le := Nat.zero_le _
  within := h.within.imp_right fun hwithin => by
    rw [byteLength_nil] at hwithin
    rw [byteLength_nil, byteLength_cons]
    omega

/-- It leaves a later line as it is. -/
theorem cons_later {c : Char} {more : List Char}
    (h : LineAt cs (offset - c.utf8Size) (more ++ ['\n']) line rest) :
    LineAt (c :: cs) offset (c :: (more ++ ['\n'])) line rest where
  whole := congrArg (c :: ·) h.whole
  starts := .inr ⟨c :: more, rfl⟩
  inside := h.inside
  stops := h.stops
  le := by
    -- the offset is behind a line feed, so behind the character before it too
    have hle := h.le
    simp only [byteLength_cons, byteLength_append, utf8Size_lineFeed] at hle ⊢
    omega
  within := h.within.imp_right fun hwithin => by
    rw [byteLength_cons]
    omega

end LineAt

/-- **Every offset has a line.** -/
theorem exists_lineAt (cs : List Char) (offset : Nat) :
    ∃ before line rest, LineAt cs offset before line rest := by
  induction cs generalizing offset with
  | nil => exact ⟨[], [], [], rfl, .inl rfl, by simp, .inl rfl, Nat.zero_le _, .inl rfl⟩
  | cons c cs ih =>
    by_cases hfeed : c = '\n'
    · subst hfeed
      cases offset with
      | zero =>
        exact ⟨[], [], '\n' :: cs, rfl, .inl rfl, by simp, .inr ⟨cs, rfl⟩, Nat.zero_le _,
          .inr (Nat.zero_le _)⟩
      | succ offset =>
        obtain ⟨before, line, rest, h⟩ := ih offset
        exact ⟨_, _, _, h.cons_feed⟩
    · obtain ⟨before, line, rest, h⟩ := ih (offset - c.utf8Size)
      rcases h.starts with rfl | ⟨more, rfl⟩
      · exact ⟨_, _, _, h.cons_first hfeed⟩
      · exact ⟨_, _, _, h.cons_later⟩

/-- Within a line, and past the end of the last one, the point stays where it is. -/
theorem linePoint_within {line : List Char} (hinside : '\n' ∉ line) {rest : List Char}
    {offset pos : Nat} (h : rest = [] ∨ offset ≤ pos + byteLength line) (here : LinePoint) :
    linePoint offset pos here (line ++ rest) = here := by
  induction line generalizing pos with
  | nil =>
    cases rest with
    | nil => rfl
    | cons c more =>
      have hle : offset ≤ pos := by simpa using h
      exact if_pos hle
  | cons c line ih =>
    have hfeed : c ≠ '\n' := fun heq => hinside (heq ▸ List.mem_cons_self)
    rw [List.cons_append, linePoint]
    by_cases hle : offset ≤ pos
    · rw [if_pos hle]
    · rw [if_neg hle, if_neg hfeed]
      refine ih (fun hmem => hinside (List.mem_cons_of_mem _ hmem)) (h.imp_right fun hend => ?_)
      rw [byteLength_cons] at hend
      omega

namespace SourceFile

variable {f : SourceFile} {before line rest : List Char}

theorem pointAt_line {offset : Nat} (h : LineAt f.content.toList offset before line rest) :
    f.pointAt offset = ⟨before.count '\n' + 1, byteLength before, line ++ rest⟩ := by
  have hle := h.le
  rw [pointAt, h.whole]
  rcases h.starts with rfl | ⟨more, rfl⟩
  · exact linePoint_within h.inside (by simpa using h.within) _
  · rw [List.append_assoc, List.singleton_append,
      linePoint_lines more (line ++ rest) _ (by rw [Nat.zero_add]; exact hle),
      Nat.zero_add, linePoint_within h.inside h.within, List.count_append, Nat.add_comm 1]
    rfl

theorem lineCol_line {offset : Nat} (h : LineAt f.content.toList offset before line rest) :
    f.lineCol offset = (before.count '\n' + 1, offset - byteLength before + 1) := by
  rw [lineCol, pointAt_line h]

theorem lineText_line {offset : Nat} (h : LineAt f.content.toList offset before line rest) :
    f.lineText offset = String.ofList (line.rdropWhile (· = '\x0d')) := by
  have hline : (line ++ rest).takeWhile (· ≠ '\n') = line := by
    have hall : ∀ c ∈ line, c ≠ '\n' := fun c hc heq => h.inside (heq ▸ hc)
    rw [List.takeWhile_append_of_pos (by simpa using hall)]
    rcases h.stops with rfl | ⟨more, rfl⟩ <;> simp
  rw [lineText, pointAt_line h]
  simp only [hline]
  rfl

/-! ### The table of a file -/

/-- The offsets after the line feeds of a text that starts at `pos`. -/
def feedEnds (pos : Nat) (bs : List UInt8) : List Nat :=
  ((bs.zipIdx pos).filter (·.1 = lineFeed)).map (·.2 + 1)

theorem feedEnds_cons (pos : Nat) (b : UInt8) (bs : List UInt8) :
    feedEnds pos (b :: bs) =
      if b = lineFeed then (pos + 1) :: feedEnds (pos + 1) bs else feedEnds (pos + 1) bs := by
  by_cases hb : b = lineFeed <;> simp [feedEnds, hb]

theorem feedEnds_append (pos : Nat) (as bs : List UInt8) :
    feedEnds pos (as ++ bs) = feedEnds pos as ++ feedEnds (pos + as.length) bs := by
  simp [feedEnds, List.zipIdx_append]

theorem length_feedEnds (pos : Nat) (bs : List UInt8) :
    (feedEnds pos bs).length = bs.count lineFeed := by
  induction bs generalizing pos with
  | nil => rfl
  | cons b bs ih => by_cases hb : b = lineFeed <;> simp [feedEnds_cons, hb, ih]

theorem feedEnds_of_not_mem {pos : Nat} {bs : List UInt8} (h : lineFeed ∉ bs) :
    feedEnds pos bs = [] := by
  rw [← List.length_eq_zero_iff, length_feedEnds, List.count_eq_zero.2 h]

theorem mem_feedEnds {pos n : Nat} {bs : List UInt8} (h : n ∈ feedEnds pos bs) :
    pos < n ∧ n ≤ pos + bs.length := by
  induction bs generalizing pos with
  | nil => simp [feedEnds] at h
  | cons b bs ih =>
    rw [feedEnds_cons] at h
    rw [List.length_cons]
    split at h
    · rcases List.mem_cons.1 h with rfl | h
      · omega
      · have := ih h
        omega
    · have := ih h
      omega

theorem feedEnds_sorted (pos : Nat) (bs : List UInt8) : (feedEnds pos bs).Pairwise (· < ·) := by
  induction bs generalizing pos with
  | nil => simp [feedEnds]
  | cons b bs ih =>
    rw [feedEnds_cons]
    split
    · exact List.pairwise_cons.2 ⟨fun n hn => (mem_feedEnds hn).1, ih (pos + 1)⟩
    · exact ih (pos + 1)

theorem toList_lineStarts (f : SourceFile) :
    f.lineStarts.toList = (0 :: feedEnds 0 f.bytes).map UInt32.ofNat := by
  simp [lineStarts, feedEnds]

/-- **The table of a short text is sorted.** -/
theorem lineStarts_sorted (h : f.bytes.length < UInt32.size) :
    f.lineStarts.toList.Pairwise (· < ·) := by
  have hsorted : (0 :: feedEnds 0 f.bytes).Pairwise (· < ·) :=
    List.pairwise_cons.2 ⟨fun n hn => (mem_feedEnds hn).1, feedEnds_sorted 0 f.bytes⟩
  have hsmall : ∀ n ∈ 0 :: feedEnds 0 f.bytes, n < UInt32.size := by
    intro n hn
    rcases List.mem_cons.1 hn with rfl | hn
    · decide
    · have := (mem_feedEnds hn).2
      omega
  rw [toList_lineStarts, List.pairwise_map]
  refine hsorted.imp_of_mem fun {a b} ha hb hlt => ?_
  rw [UInt32.lt_iff_toNat_lt, UInt32.toNat_ofNat_of_lt' (hsmall a ha),
    UInt32.toNat_ofNat_of_lt' (hsmall b hb)]
  exact hlt

theorem count_encoded (cs : List Char) : (encoded cs).count lineFeed = cs.count '\n' := by
  induction cs with
  | nil => rfl
  | cons c cs ih =>
    rw [encoded_cons, List.count_append, ih]
    by_cases hfeed : c = '\n'
    · subst hfeed
      rw [utf8EncodeChar_lineFeed, List.count_cons_self]
      simp [Nat.add_comm]
    · have hnone : lineFeed ∉ String.utf8EncodeChar c := by
        have hline : '\n' ∉ [c] := by simpa using Ne.symm hfeed
        simpa using lineFeed_not_mem_encoded hline
      rw [List.count_eq_zero.2 hnone, List.count_cons_of_ne hfeed, Nat.zero_add]

theorem bytes_line {offset : Nat} (h : LineAt f.content.toList offset before line rest) :
    f.bytes = encoded before ++ (encoded line ++ encoded rest) := by
  rw [bytes, toList_toUTF8, h.whole, encoded_append, encoded_append]

/-- The table up to the start of a line. -/
theorem feedEnds_before (hstarts : before = [] ∨ ∃ more, before = more ++ ['\n']) :
    ∃ front : List Nat, front.length = before.count '\n' ∧
      0 :: feedEnds 0 (encoded before) = front ++ [byteLength before] := by
  rcases hstarts with rfl | ⟨more, rfl⟩
  · exact ⟨[], rfl, rfl⟩
  · refine ⟨0 :: feedEnds 0 (encoded more), ?_, ?_⟩
    · simp [length_feedEnds, count_encoded]
    · have hlast : encoded ['\n'] = [lineFeed] := rfl
      rw [encoded_append, hlast, feedEnds_append, feedEnds_cons, if_pos rfl]
      simp [feedEnds]

/-- The offsets at which lines start, with those up to the line of an offset in front. -/
theorem feedEnds_line {offset : Nat} (h : LineAt f.content.toList offset before line rest) :
    ∃ front : List Nat, front.length = before.count '\n' ∧ 0 :: feedEnds 0 f.bytes =
      front ++ byteLength before :: feedEnds (byteLength before + byteLength line) (encoded rest) := by
  obtain ⟨front, hlength, hfront⟩ := feedEnds_before h.starts
  refine ⟨front, hlength, ?_⟩
  rw [bytes_line h, feedEnds_append, feedEnds_append,
    feedEnds_of_not_mem (lineFeed_not_mem_encoded h.inside), ← List.cons_append, hfront]
  simp

/-- **The entries around an offset**: the start of its line, and the start of the next if any. -/
theorem lineStarts_line {offset : Nat} (h : LineAt f.content.toList offset before line rest) :
    f.lineStarts[before.count '\n']? = some (UInt32.ofNat (byteLength before)) ∧
      f.lineStarts[before.count '\n' + 1]? =
        if rest = [] then none
        else some (UInt32.ofNat (byteLength before + byteLength line + 1)) := by
  obtain ⟨front, hlength, htable⟩ := feedEnds_line h
  rw [← hlength, ← Array.getElem?_toList, ← Array.getElem?_toList, toList_lineStarts, htable]
  refine ⟨by simp, ?_⟩
  rcases h.stops with rfl | ⟨more, rfl⟩
  · simp [feedEnds]
  · simp [utf8EncodeChar_lineFeed, feedEnds_cons]

/-! ### Answers of the table -/

section Answers

variable {offset : UInt32}

theorem byteLength_le_of_line {offset : Nat} (h : LineAt f.content.toList offset before line rest) :
    byteLength before + byteLength line ≤ f.bytes.length ∧
      (rest ≠ [] → byteLength before + byteLength line < f.bytes.length) := by
  have hbytes := congrArg List.length (bytes_line h)
  simp only [List.length_append, length_encoded] at hbytes
  refine ⟨by omega, fun hne => ?_⟩
  obtain ⟨more, rfl⟩ := h.stops.resolve_left hne
  rw [byteLength_cons, utf8Size_lineFeed] at hbytes
  omega

/-- No more line feeds than bytes. -/
theorem count_le_of_line {offset : Nat} (h : LineAt f.content.toList offset before line rest) :
    before.count '\n' ≤ f.bytes.length := by
  rw [← count_encoded, bytes_line h]
  exact Nat.le_trans List.count_le_length (by simp)

theorem lineIndex?_line (hsize : f.bytes.length < UInt32.size - 1)
    (h : LineAt f.content.toList offset.toNat before line rest) :
    f.lineIndex? offset = some (before.count '\n') := by
  obtain ⟨hin, hlast⟩ := byteLength_le_of_line h
  obtain ⟨hstart, hnext⟩ := lineStarts_line h
  have hle : UInt32.ofNat (byteLength before) ≤ offset := by
    rw [UInt32.le_iff_toNat_le, UInt32.toNat_ofNat_of_lt' (by omega)]
    exact h.le
  have hlt : ∀ next : UInt32, f.lineStarts[before.count '\n' + 1]? = some next → offset < next := by
    intro next hat
    rw [hnext] at hat
    split at hat
    · cases hat
    · rename_i hrest
      cases hat
      have hwithin := h.within.resolve_left hrest
      rw [UInt32.lt_iff_toNat_lt, UInt32.toNat_ofNat_of_lt' (by have := hlast hrest; omega)]
      omega
  rcases index_of_bisect (lineStarts_sorted (by omega)) hstart hle hlt with hfound | hmissing
  · rw [lineIndex?, hfound]
  · simp [lineIndex?, hmissing, minus?]

/-- **Line and column from the table.** -/
theorem lineCol?_line (hsize : f.bytes.length < UInt32.size - 1)
    (hoffset : offset.toNat < UInt32.size - 1)
    (h : LineAt f.content.toList offset.toNat before line rest) :
    f.lineCol? offset = some (UInt32.ofNat (before.count '\n' + 1),
      UInt32.ofNat (offset.toNat - byteLength before + 1)) := by
  have hin := (byteLength_le_of_line h).1
  have hcount := count_le_of_line h
  have hindex : (UInt32.ofNat (before.count '\n')).toNat = before.count '\n' :=
    UInt32.toNat_ofNat_of_lt' (by omega)
  have hstart : (UInt32.ofNat (byteLength before)).toNat = byteLength before :=
    UInt32.toNat_ofNat_of_lt' (by omega)
  simp only [lineCol?, lineIndex?_line hsize h, (lineStarts_line h).1, Option.bind_eq_bind,
    Option.bind_some, hindex, hstart, minus?, word?, if_pos h.le]
  rw [if_pos (by omega), Option.bind_some, if_pos (by omega)]
  rfl

/-- **The text of a line from the table.** -/
theorem lineText?_line (hsize : f.bytes.length < UInt32.size - 1)
    (hoffset : offset.toNat < UInt32.size - 1)
    (h : LineAt f.content.toList offset.toNat before line rest) :
    f.lineText? offset = some (String.ofList (line.rdropWhile (· = '\x0d'))) := by
  obtain ⟨hin, hlast⟩ := byteLength_le_of_line h
  have hcount := count_le_of_line h
  -- All numbers are small enough not to wrap.
  have hindex : (UInt32.ofNat (before.count '\n' + 1)).toNat = before.count '\n' + 1 :=
    UInt32.toNat_ofNat_of_lt' (by omega)
  have hstart : (UInt32.ofNat (byteLength before)).toNat = byteLength before :=
    UInt32.toNat_ofNat_of_lt' (by omega)
  have hslice : sliceBytes? (byteLength before) (byteLength before + byteLength line)
      f.content.toList = some line := by
    rw [h.whole]
    exact sliceBytes?_append before line rest
  simp only [lineText?, lineCol?_line hsize hoffset h, Option.bind_eq_bind, Option.bind_some,
    hindex, minus?, if_pos (Nat.le_add_left 1 _), Nat.add_sub_cancel, (lineStarts_line h).1,
    (lineStarts_line h).2, hstart]
  by_cases hrest : rest = []
  · -- the last line goes on to the end of the text
    have hend : f.content.utf8ByteSize = byteLength before + byteLength line := by
      rw [← byteLength_eq_utf8ByteSize, h.whole, hrest]
      simp
    rw [if_pos hrest, hend, hslice]
    rfl
  · have hnext : (UInt32.ofNat (byteLength before + byteLength line + 1)).toNat =
        byteLength before + byteLength line + 1 :=
      UInt32.toNat_ofNat_of_lt' (by have := hlast hrest; omega)
    simp only [if_neg hrest, hnext, if_pos (Nat.le_add_left 1 _), Nat.add_sub_cancel,
      Option.bind_some, hslice]
    rfl

end Answers

/-! ### Bytes around an offset -/

/-- The byte of a carriage return. -/
def carriageReturn : UInt8 := 13

theorem take_bytes_line {offset : Nat} (h : LineAt f.content.toList offset before line rest) :
    f.bytes.take offset =
      encoded before ++ (encoded line).take (offset - byteLength before) := by
  have hrest : (encoded rest).take (offset - byteLength before - byteLength line) = [] := by
    rcases h.within with rfl | hwithin
    · simp
    · rw [show offset - byteLength before - byteLength line = 0 by omega, List.take_zero]
  rw [bytes_line h, List.take_append, List.take_append, length_encoded, length_encoded, hrest,
    List.append_nil, List.take_of_length_le (by rw [length_encoded]; exact h.le)]

theorem count_take_bytes {offset : Nat} (h : LineAt f.content.toList offset before line rest) :
    (f.bytes.take offset).count lineFeed = before.count '\n' := by
  have hnone : lineFeed ∉ (encoded line).take (offset - byteLength before) := fun hmem =>
    lineFeed_not_mem_encoded h.inside (List.mem_of_mem_take hmem)
  rw [take_bytes_line h, List.count_append, List.count_eq_zero.2 hnone, count_encoded,
    Nat.add_zero]

/-- The bytes after the last line feed before an offset. -/
theorem rtakeWhile_take_bytes {offset : Nat}
    (h : LineAt f.content.toList offset before line rest) :
    (f.bytes.take offset).rtakeWhile (· ≠ lineFeed) =
      (encoded line).take (offset - byteLength before) := by
  have hinside : ∀ b ∈ (encoded line).take (offset - byteLength before), b ≠ lineFeed :=
    fun b hb heq => lineFeed_not_mem_encoded h.inside (heq ▸ List.mem_of_mem_take hb)
  rw [take_bytes_line h, List.rtakeWhile, List.reverse_append,
    List.takeWhile_append_of_pos (by simpa using hinside)]
  have hstop : (encoded before).reverse.takeWhile (· ≠ lineFeed) = [] := by
    rcases h.starts with rfl | ⟨more, rfl⟩
    · rfl
    · have hlast : encoded ['\n'] = [lineFeed] := rfl
      simp [hlast]
  rw [hstop, List.append_nil, List.reverse_reverse]

/-- What is kept of a text without the carriage returns at its end is kept of its bytes. -/
theorem encoded_rdropWhile (cs : List Char) :
    encoded (cs.rdropWhile (· = '\x0d')) = (encoded cs).rdropWhile (· = carriageReturn) := by
  induction cs using List.reverseRecOn with
  | nil => rfl
  | append_singleton cs c ih =>
    by_cases hc : c = '\x0d'
    · subst hc
      have hlast : encoded ['\x0d'] = [carriageReturn] := rfl
      rw [List.rdropWhile_concat_pos _ _ _ (by simp), encoded_append, hlast,
        List.rdropWhile_concat_pos _ _ _ (by simp), ih]
    · -- the last byte of another character is no carriage return
      obtain ⟨front, last, hfront⟩ : ∃ front last, String.utf8EncodeChar c = front ++ [last] :=
        ⟨_, _, (List.dropLast_concat_getLast String.utf8EncodeChar_ne_nil).symm⟩
      have hne : last ≠ carriageReturn := by
        intro heq
        have hmem : carriageReturn ∈ String.utf8EncodeChar c := by simp [hfront, heq]
        exact hc (Char.toNat_inj.1 (toNat_of_mem_utf8EncodeChar (by decide) hmem))
      rw [List.rdropWhile_concat_neg _ _ _ (by simpa using hc), encoded_append, encoded_cons,
        encoded_nil, List.append_nil, hfront, ← List.append_assoc,
        List.rdropWhile_concat_neg _ _ _ (by simpa using hne)]

/-- The bytes of the line that starts where the lines before it end. -/
theorem takeWhile_drop_bytes {offset : Nat}
    (h : LineAt f.content.toList offset before line rest) :
    (f.bytes.drop (byteLength before)).takeWhile (· ≠ lineFeed) = encoded line := by
  have hinside : ∀ b ∈ encoded line, b ≠ lineFeed := fun b hb heq =>
    lineFeed_not_mem_encoded h.inside (heq ▸ hb)
  rw [bytes_line h, List.drop_left' (length_encoded before),
    List.takeWhile_append_of_pos (by simpa using hinside)]
  rcases h.stops with rfl | ⟨more, rfl⟩
  · simp
  · simp [utf8EncodeChar_lineFeed]

/-! ### Exact lines and columns -/

/-- Line and column count line feeds and bytes. -/
theorem lineCol_of_le {offset : Nat} (hle : offset ≤ f.bytes.length) :
    f.lineCol offset = (1 + (f.bytes.take offset).count lineFeed,
      1 + ((f.bytes.take offset).rtakeWhile (· ≠ lineFeed)).length) := by
  obtain ⟨before, line, rest, h⟩ := exists_lineAt f.content.toList offset
  have hin : offset - byteLength before ≤ byteLength line := by
    have hwithin := h.within
    have hbytes := congrArg List.length (bytes_line h)
    simp only [List.length_append, length_encoded] at hbytes
    rcases hwithin with rfl | hwithin
    · rw [byteLength_nil] at hbytes
      omega
    · omega
  rw [lineCol_line h, count_take_bytes h, rtakeWhile_take_bytes h, List.length_take,
    length_encoded, Nat.min_eq_left hin, Nat.add_comm, Nat.add_comm 1 (offset - _)]

/-- The text of a line is what stands between its start and the next line feed. -/
theorem bytes_lineText {offset : Nat} (hle : offset ≤ f.bytes.length) :
    (f.lineText offset).toUTF8.data.toList =
      ((f.bytes.drop (offset - ((f.bytes.take offset).rtakeWhile (· ≠ lineFeed)).length)).takeWhile
        (· ≠ lineFeed)).rdropWhile (· = carriageReturn) := by
  obtain ⟨before, line, rest, h⟩ := exists_lineAt f.content.toList offset
  have hcolumn := congrArg Prod.snd ((lineCol_line h).symm.trans (lineCol_of_le hle))
  have hstart : offset - ((f.bytes.take offset).rtakeWhile (· ≠ lineFeed)).length =
      byteLength before := by
    have hbefore := h.le
    simp only at hcolumn
    omega
  rw [hstart, takeWhile_drop_bytes h, ← encoded_rdropWhile, lineText_line h, toList_toUTF8,
    String.toList_ofList]

/-- **Places follow offsets.** -/
theorem lineCol_lt (f : SourceFile) {a b : Nat} (hlt : a < b) :
    Prod.Lex (· < ·) (· < ·) (f.lineCol a) (f.lineCol b) := by
  obtain ⟨beforeA, lineA, restA, ha⟩ := exists_lineAt f.content.toList a
  obtain ⟨beforeB, lineB, restB, hb⟩ := exists_lineAt f.content.toList b
  have hcount : beforeA.count '\n' ≤ beforeB.count '\n' := by
    rw [← count_take_bytes ha, ← count_take_bytes hb]
    exact (List.take_sublist_take_left (Nat.le_of_lt hlt)).count_le _
  rw [lineCol_line ha, lineCol_line hb]
  rcases Nat.eq_or_lt_of_le hcount with hsame | hless
  · -- on one line the offsets are counted from one start
    obtain ⟨frontA, hlengthA, htableA⟩ := feedEnds_line ha
    obtain ⟨frontB, hlengthB, htableB⟩ := feedEnds_line hb
    have hparts := List.append_inj (htableA.symm.trans htableB) (by omega)
    have hstart : byteLength beforeA = byteLength beforeB := (List.cons.inj hparts.2).1
    rw [hsame, hstart]
    refine .right _ ?_
    have hle := ha.le
    omega
  · exact .left _ _ (by omega)

/-- Within 32 bits the table answers what the text says. -/
theorem answers_of_lt (hsize : f.bytes.length < UInt32.size - 1) {offset : UInt32}
    (hoffset : offset.toNat < UInt32.size - 1) :
    (∃ line column, f.lineCol? offset = some (line, column) ∧
      (line.toNat, column.toNat) = f.lineCol offset.toNat) ∧
    f.lineText? offset = some (f.lineText offset.toNat) := by
  obtain ⟨before, line, rest, h⟩ := exists_lineAt f.content.toList offset.toNat
  have hcount := count_le_of_line h
  refine ⟨⟨_, _, lineCol?_line hsize hoffset h, ?_⟩, ?_⟩
  · rw [lineCol_line h, UInt32.toNat_ofNat_of_lt' (by omega), UInt32.toNat_ofNat_of_lt' (by omega)]
  · rw [lineText?_line hsize hoffset h, lineText_line h]

/-- The places that the table answers follow the offsets. -/
theorem lineCol?_lt (hsize : f.bytes.length < UInt32.size - 1) {a b : UInt32}
    (ha : a.toNat < UInt32.size - 1) (hb : b.toNat < UInt32.size - 1) (hlt : a < b) :
    ∃ p q, f.lineCol? a = some p ∧ f.lineCol? b = some q ∧ Prod.Lex (· < ·) (· < ·) p q := by
  obtain ⟨line, column, hcol, hplace⟩ := (answers_of_lt hsize ha).1
  obtain ⟨line', column', hcol', hplace'⟩ := (answers_of_lt hsize hb).1
  refine ⟨_, _, hcol, hcol', ?_⟩
  have hlex := f.lineCol_lt (UInt32.lt_iff_toNat_lt.1 hlt)
  rw [← hplace, ← hplace', Prod.lex_def] at hlex
  rw [Prod.lex_def]
  simpa [UInt32.lt_iff_toNat_lt, ← UInt32.toNat_inj] using hlex

/-- Offsets of one place are one. -/
theorem lineCol?_inj (hsize : f.bytes.length < UInt32.size - 1) {a b : UInt32}
    (ha : a.toNat < UInt32.size - 1) (hb : b.toNat < UInt32.size - 1)
    (heq : f.lineCol? a = f.lineCol? b) : a = b := by
  -- an answer that two offsets share would be smaller than itself
  have hirrefl : ∀ p : UInt32 × UInt32, ¬Prod.Lex (· < ·) (· < ·) p p := by simp [Prod.lex_def]
  by_contra hne
  rcases UInt32.lt_or_lt_of_ne hne with hlt | hgt
  · obtain ⟨p, q, hp, hq, hlex⟩ := lineCol?_lt hsize ha hb hlt
    obtain rfl : p = q := Option.some.inj (hp.symm.trans (heq.trans hq))
    exact absurd hlex (hirrefl p)
  · obtain ⟨p, q, hp, hq, hlex⟩ := lineCol?_lt hsize hb ha hgt
    obtain rfl : p = q := Option.some.inj (hp.symm.trans (heq.symm.trans hq))
    exact absurd hlex (hirrefl p)

/-- **Lines and columns are exact.** In a text of less than `2 ^ 32 - 1` bytes, an offset up to its
    end has as its line one more than the line feeds before it, and as its column one more than the
    bytes since the last of them; the text of its line is what follows that line feed, up to the next
    one, without carriage returns at its end. Different offsets have different places, in their
    order. And below `2 ^ 32 - 1` every offset has a place and a line, those that the text itself
    gives, even past its end. -/
theorem lines_exact (f : SourceFile) (hsize : f.bytes.length < UInt32.size - 1) :
    (∀ offset : UInt32, offset.toNat ≤ f.bytes.length →
      let upTo := f.bytes.take offset.toNat
      let since := upTo.rtakeWhile (· ≠ lineFeed)
      (∃ line column, f.lineCol? offset = some (line, column) ∧
        line.toNat = 1 + upTo.count lineFeed ∧ column.toNat = 1 + since.length) ∧
      ∃ text, f.lineText? offset = some text ∧ text.toUTF8.data.toList =
        ((f.bytes.drop (offset.toNat - since.length)).takeWhile (· ≠ lineFeed)).rdropWhile
          (· = carriageReturn)) ∧
    (∀ a b : UInt32, a.toNat < UInt32.size - 1 → b.toNat < UInt32.size - 1 →
      (f.lineCol? a = f.lineCol? b → a = b) ∧
      (a < b → ∃ p q, f.lineCol? a = some p ∧ f.lineCol? b = some q ∧
        Prod.Lex (· < ·) (· < ·) p q)) ∧
    ∀ offset : UInt32, offset.toNat < UInt32.size - 1 →
      (∃ line column, f.lineCol? offset = some (line, column) ∧
        (line.toNat, column.toNat) = f.lineCol offset.toNat) ∧
      f.lineText? offset = some (f.lineText offset.toNat) := by
  refine ⟨fun offset hle => ?_, fun a b ha hb => ⟨lineCol?_inj hsize ha hb, lineCol?_lt hsize ha hb⟩,
    fun offset h => answers_of_lt hsize h⟩
  have hsmall : offset.toNat < UInt32.size - 1 := by omega
  obtain ⟨⟨line, column, hcol, hplace⟩, htext⟩ := answers_of_lt hsize hsmall
  rw [lineCol_of_le hle, Prod.mk.injEq] at hplace
  exact ⟨⟨line, column, hcol, hplace.1, hplace.2⟩, _, htext, bytes_lineText hle⟩

/-- Two lines, the first with a character of two bytes and a carriage return at its end: an offset
    inside the character, one in the second line, and one past the end. -/
theorem lines_exact_twoLines :
    let f : SourceFile := ⟨"A.java", "é\r\nab"⟩
    f.bytes.length < UInt32.size - 1 ∧
      f.lineCol? 1 = some (1, 2) ∧ f.lineText? 1 = some "é" ∧
      f.lineCol? 5 = some (2, 2) ∧ f.lineText? 5 = some "ab" ∧
      (∃ p q, f.lineCol? 1 = some p ∧ f.lineCol? 5 = some q ∧ Prod.Lex (· < ·) (· < ·) p q) ∧
      ∃ line column, f.lineCol? 4294967294 = some (line, column) ∧
        (line.toNat, column.toNat) = f.lineCol 4294967294 := by
  intro f
  have hsize : f.bytes.length < UInt32.size - 1 := by decide +kernel
  obtain ⟨-, hordered, hanswers⟩ := lines_exact f hsize
  exact ⟨hsize, by decide +kernel, by decide +kernel, by decide +kernel, by decide +kernel,
    (hordered 1 5 (by decide) (by decide)).2 (by decide),
    (hanswers 4294967294 (by decide)).1⟩

end SourceFile

end JavaAbi
