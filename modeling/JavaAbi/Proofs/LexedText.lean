import Mathlib.Data.List.TakeWhile
import JavaAbi.Proofs.Formatting
import JavaAbi.Proofs.Lexemes

namespace JavaAbi

/-!
# The tokens of a text partition it

A text, valid or not, is its tokens with gaps before, between and after them. Each lexeme that is
no token is a piece of the gap it stands in. One of them is not complete by itself: a line comment
stops before the end of its line, so it is joined with the blank that follows it.

* `Ending` — what may stand after the last token;
* `Layout` — a text as tokens and gaps, each token at its place;
* `Lexeme.next_cases` — what one lexeme can be;
* `laidOut_all` — the lexemes of a text lay it out, with one error for each faulty token;
* `SourceText.lex_partitions` — the same in terms of places and of the text between them.
-/

/-! ### Gaps -/

/-- What may follow the last token, from byte `pos` to the end of the text: blanks and comments, of
    which the last may be a line comment without the end of its line, or a block comment without its
    `*/`. The place is that of the open block comment. -/
inductive Ending (file pos : Nat) : List Char → Option Span → Prop
  | closed {gap : List Char} (front : Trivia gap) : Ending file pos gap none
  | line {gap t : List Char} (front : Trivia gap) (inside : '\n' ∉ t) :
      Ending file pos (gap ++ '/' :: '/' :: t) none
  | opened {gap t : List Char} (front : Trivia gap) (inside : ¬ ['*', '/'] <:+: t) :
      Ending file pos (gap ++ '/' :: '*' :: t)
        (some ⟨some file, pos + byteLength gap, pos + byteLength (gap ++ '/' :: '*' :: t)⟩)

/-- A text that starts at byte `pos`: tokens where they say that they are, with gaps before them,
    and an ending after the last. -/
inductive Layout (file : Nat) : Nat → List Char → List Token → Option Span → Prop
  | ending {pos : Nat} {gap : List Char} {opened : Option Span}
      (last : Ending file pos gap opened) : Layout file pos gap [] opened
  | token {pos : Nat} {gap rest : List Char} {t : Token} {ts : List Token} {opened : Option Span}
      (before : Trivia gap) (filled : ∃ c cs, t.text.toList = c :: cs ∧ isBlank c = false)
      (place : t.span = ⟨some file, pos + byteLength gap,
        pos + byteLength gap + byteLength t.text.toList⟩)
      (after : Layout file (pos + byteLength gap + byteLength t.text.toList) rest ts opened) :
      Layout file pos (gap ++ (t.text.toList ++ rest)) (t :: ts) opened

section Gaps

variable {file pos : Nat} {cs rest front gap tail t : List Char} {ts : List Token}
  {opened : Option Span}

theorem Trivia.append (h : Trivia front) (hgap : Trivia gap) : Trivia (front ++ gap) := by
  induction h with
  | nil => exact hgap
  | blank space _ ih => exact .blank space ih
  | line inside _ ih =>
    rw [List.cons_append, List.cons_append, List.append_assoc, List.cons_append]
    exact .line inside ih
  | block inside _ ih =>
    rw [List.cons_append, List.cons_append, List.append_assoc, List.cons_append, List.cons_append]
    exact .block inside ih

theorem trivia_of_blanks (h : ∀ c ∈ gap, isBlank c = true) : Trivia gap := by
  induction gap with
  | nil => exact .nil
  | cons c gap ih =>
    obtain ⟨hc, hgap⟩ := List.forall_mem_cons.mp h
    exact .blank hc (ih hgap)

/-- A text starts with a gap, in whose stead another one may end at the same place. -/
theorem Layout.first_gap (h : Layout file pos cs ts opened) :
    ∃ gap tail, cs = gap ++ tail ∧ Trivia gap ∧ (∀ c ∈ tail.head?, isBlank c = false) ∧
      ∀ (pos' : Nat) (gap' : List Char), Trivia gap' →
        pos' + byteLength gap' = pos + byteLength gap →
        Layout file pos' (gap' ++ tail) ts opened := by
  -- The first gap is the one before the first token, or the closed part of the ending.
  cases h with
  | ending last =>
    cases last with
    | closed hgap =>
      refine ⟨cs, [], (List.append_nil _).symm, hgap, nofun, fun pos' gap' h _ => ?_⟩
      rw [List.append_nil]
      exact .ending (.closed h)
    | @line gap t hgap inside =>
      exact ⟨gap, _, rfl, hgap, fun c hc => by cases hc; decide,
        fun pos' gap' h _ => .ending (.line h inside)⟩
    | @opened gap t hgap inside =>
      refine ⟨gap, _, rfl, hgap, fun c hc => by cases hc; decide, fun pos' gap' h hpos => ?_⟩
      have hopened : Ending file pos' _ _ := .opened h inside
      rw [byteLength_append, ← Nat.add_assoc, hpos, Nat.add_assoc, ← byteLength_append] at hopened
      exact .ending hopened
  | @token pos gap rest t ts opened before filled place after =>
    obtain ⟨c, cs, htext, hc⟩ := filled
    refine ⟨gap, _, rfl, before, fun x hx => ?_, fun pos' gap' h hpos => ?_⟩
    · rw [htext] at hx
      cases hx
      exact hc
    · rw [← hpos] at place after
      exact .token h ⟨c, cs, htext, hc⟩ place after

/-- Blanks and comments in front of a text belong to its first gap. -/
theorem Layout.trivia (h : Trivia front)
    (hrest : Layout file (pos + byteLength front) rest ts opened) :
    Layout file pos (front ++ rest) ts opened := by
  obtain ⟨gap, tail, rfl, hgap, -, hmove⟩ := hrest.first_gap
  rw [← List.append_assoc]
  exact hmove pos (front ++ gap) (h.append hgap) (by rw [byteLength_append, Nat.add_assoc])

/-- A line comment belongs to the gap that the end of its line starts. -/
theorem Layout.line (inside : '\n' ∉ t)
    (hrest : Layout file (pos + byteLength ('/' :: '/' :: t)) ('\n' :: rest) ts opened) :
    Layout file pos ('/' :: '/' :: t ++ '\n' :: rest) ts opened := by
  obtain ⟨gap, tail, heq, hgap, htail, hmove⟩ := hrest.first_gap
  have hline : Trivia ('/' :: '/' :: (t ++ gap)) := by
    cases hgap with
    -- The gap is not empty: the end of the line is a blank.
    | nil =>
      rw [List.nil_append] at heq
      exact absurd (htail '\n' (by rw [← heq]; rfl)) (by decide)
    | blank space more =>
      obtain ⟨rfl, -⟩ := List.cons.inj heq
      exact .line inside more
    | line _ more => exact absurd (List.cons.inj heq).1 (by decide)
    | block _ more => exact absurd (List.cons.inj heq).1 (by decide)
  rw [heq, ← List.append_assoc]
  exact hmove pos _ hline (by rw [byteLength_append, Nat.add_assoc])

/-- A token that starts a text. -/
theorem Layout.lexeme (k : TokenKind) {c : Char} (hc : isBlank c = false)
    (hrest : Layout file (pos + byteLength (c :: cs)) rest ts opened) :
    Layout file pos (c :: cs ++ rest) (⟨k, String.ofList (c :: cs),
      ⟨some file, pos, pos + byteLength (c :: cs)⟩⟩ :: ts) opened := by
  obtain ⟨t, ht⟩ : ∃ t : Token, t = ⟨k, String.ofList (c :: cs),
      ⟨some file, pos, pos + byteLength (c :: cs)⟩⟩ := ⟨_, rfl⟩
  have htext : t.text.toList = c :: cs := by rw [ht, String.toList_ofList]
  have hplace : t.span = ⟨some file, pos, pos + byteLength t.text.toList⟩ := by rw [htext, ht]
  rw [← ht]
  rw [← htext] at hrest ⊢
  show Layout file pos ([] ++ (t.text.toList ++ rest)) (t :: ts) opened
  exact .token .nil ⟨c, cs, htext, hc⟩ hplace hrest

end Gaps

/-! ### Lexemes that are no token -/

/-- A text that does not start with `*/` has one in it only after its first character. -/
theorem not_infix_cons {c : Char} {t : List Char}
    (hnow : ∀ rest, c = '*' → t = '/' :: rest → False) (hlater : ¬ ['*', '/'] <:+: t) :
    ¬ ['*', '/'] <:+: c :: t := by
  intro hin
  obtain ⟨back, heq⟩ | hin := List.infix_cons_iff.mp hin
  · obtain ⟨rfl, hrest⟩ := List.cons.inj heq
    exact hnow back rfl hrest.symm
  · exact hlater hin

/-- Where a block comment ends. -/
theorem commentLength?_eq_some {body : List Char} {n : Nat} (h : commentLength? body = some n) :
    ∃ t more, body = t ++ '*' :: '/' :: more ∧ n = t.length + 2 ∧ ¬ ['*', '/'] <:+: t := by
  induction body using commentLength?.induct generalizing n with
  | case1 => cases h
  | case2 more =>
    cases h
    exact ⟨[], more, rfl, rfl, by decide⟩
  | case3 c rest hnow ih =>
    rw [commentLength?.eq_3 _ _ hnow] at h
    obtain ⟨m, hm, rfl⟩ := Option.map_eq_some_iff.mp h
    obtain ⟨t, more, rfl, rfl, hinside⟩ := ih hm
    refine ⟨c :: t, more, rfl, rfl, not_infix_cons (fun rest hc ht => ?_) hinside⟩
    -- `*/` right here would be the case before this one.
    exact hnow _ hc (by rw [ht]; rfl)

/-- A block comment that does not end. -/
theorem commentLength?_eq_none {body : List Char} (h : commentLength? body = none) :
    ¬ ['*', '/'] <:+: body := by
  induction body using commentLength?.induct with
  | case1 => decide
  | case2 more => cases h
  | case3 c rest hnow ih =>
    rw [commentLength?.eq_3 _ _ hnow] at h
    exact not_infix_cons hnow (ih (Option.map_eq_none_iff.mp h))

/-! ### Lexemes -/

/-- A reserved word is neither the end of the text nor an error. -/
theorem TokenKind.ofKeyword?_ne {word : String} {k : TokenKind} (h : ofKeyword? word = some k) :
    k ≠ .eof ∧ k ≠ .error := by
  have hall : ∀ p ∈ keywords, p.2 ≠ .eof ∧ p.2 ≠ .error := by decide
  exact hall _ (List.lookup_eq_some_iff.mp h |>.elim fun l₁ h => by
    obtain ⟨l₂, heq, -⟩ := h
    rw [heq]
    exact List.mem_append_right _ List.mem_cons_self)

namespace Lexeme

variable {c : Char} {rest : List Char} {kind : LexemeKind} {n : Nat}

/-- A lexeme of a token: a faulty one is an error token, and no other one is. -/
def ForToken (kind : LexemeKind) : Prop :=
  ∃ k, kind.token? = some k ∧ k ≠ .eof ∧ (k = .error ↔ ∃ f, kind = .fault f)

theorem forToken_token {k : TokenKind} (h : k ≠ .eof ∧ k ≠ .error) : ForToken (.token k) :=
  ⟨k, rfl, h.1, fun heq => absurd heq h.2, fun ⟨_, heq⟩ => nomatch heq⟩

theorem forToken_fault {f : LexicalFault} (h : f ≠ .unclosedComment) : ForToken (.fault f) := by
  refine ⟨.error, ?_, by decide, fun _ => ⟨f, rfl⟩, fun _ => rfl⟩
  cases f <;> first | rfl | exact absurd rfl h

theorem punctuation?_ne {k : TokenKind} (h : punctuation? c = some k) : k ≠ .eof ∧ k ≠ .error := by
  unfold punctuation? at h
  split at h <;> cases h <;> decide

theorem take_takeWhile (p : Char → Bool) (cs : List Char) :
    cs.take (cs.takeWhile p).length = cs.takeWhile p :=
  (List.prefix_iff_eq_take.mp (List.takeWhile_prefix p)).symm

/-- What follows the rest of a line is the end of the line, or of the text. -/
theorem head?_drop_line {x : Char} {cs : List Char}
    (h : x ∈ (cs.drop (cs.takeWhile (· ≠ '\n')).length).head?) : x = '\n' := by
  have hdrop : cs.drop (cs.takeWhile (· ≠ '\n')).length = cs.dropWhile (· ≠ '\n') :=
    (congrArg (List.drop _) List.takeWhile_append_dropWhile.symm).trans List.drop_left
  have hhead := List.head?_dropWhile_not (· ≠ '\n') cs
  rw [hdrop] at h
  rw [Option.mem_def.mp h] at hhead
  simpa using hhead

/-- What the lexeme at the start of a text can be: blanks; a comment, complete or up to the end of
    its line; a block comment up to the end of the text; or a token. -/
theorem next_cases (h : next c rest = (kind, n)) :
    (kind = .blank ∧ Trivia (c :: rest.take n)) ∨
    (kind = .comment ∧ (Trivia (c :: rest.take n) ∨
      ∃ t, c :: rest.take n = '/' :: '/' :: t ∧ '\n' ∉ t ∧ ∀ x ∈ (rest.drop n).head?, x = '\n')) ∨
    (kind = .fault .unclosedComment ∧ rest.drop n = [] ∧
      ∃ t, c :: rest.take n = '/' :: '*' :: t ∧ ¬ ['*', '/'] <:+: t) ∨
    (isBlank c = false ∧ ForToken kind) := by
  cases starts_of_next h with
  | blank blank =>
    rw [take_takeWhile]
    exact .inl ⟨rfl, trivia_of_blanks (List.forall_mem_cons.mpr
      ⟨blank, fun x hx => List.mem_takeWhile_imp hx⟩)⟩
  | word start =>
    refine .inr (.inr (.inr ⟨isBlank_of_isIdentStart start, forToken_token ?_⟩))
    cases hk : TokenKind.ofKeyword? (String.ofList (c :: rest.takeWhile isIdentRest)) with
    | none => decide
    | some k => exact TokenKind.ofKeyword?_ne hk
  | number digit =>
    exact .inr (.inr (.inr ⟨(plain_of_isDigit digit).1, forToken_token (by decide)⟩))
  | line =>
    rw [List.take_succ_cons, take_takeWhile]
    refine .inr (.inl ⟨rfl, .inr ⟨_, rfl, fun hin => ?_, fun x hx => ?_⟩⟩)
    · simpa using List.mem_takeWhile_imp hin
    · exact head?_drop_line hx
  | block closed =>
    obtain ⟨t, more, rfl, rfl, hinside⟩ := commentLength?_eq_some closed
    refine .inr (.inl ⟨rfl, .inl ?_⟩)
    have htake : (t ++ '*' :: '/' :: more).take (t.length + 2) = t ++ ['*', '/'] := by
      rw [List.take_append, List.take_of_length_le (by omega)]
      simp
    rw [List.take_succ_cons, htake]
    exact .block hinside .nil
  | openBlock unclosed =>
    refine .inr (.inr (.inl ⟨rfl, List.drop_length, _, ?_, commentLength?_eq_none unclosed⟩))
    rw [List.take_succ_cons, List.take_length]
  -- All others are tokens, or faults that stand for one.
  | textBlock | string | character | ellipsis | decimals =>
    exact .inr (.inr (.inr ⟨by decide, forToken_token (by decide)⟩))
  | openTextBlock | openString | openCharacter =>
    exact .inr (.inr (.inr ⟨by decide, forToken_fault (by decide)⟩))
  | mark kind =>
    exact .inr (.inr (.inr ⟨(plain_of_punctuation? kind).1, forToken_token (punctuation?_ne kind)⟩))
  | other noBlank => exact .inr (.inr (.inr ⟨noBlank, forToken_fault (by decide)⟩))

end Lexeme

/-! ### The layout of a text -/

/-- The report of a block comment that does not end. -/
def unclosedComment (place : Span) : Diagnostic :=
  ⟨.error, .lexical, LexicalFault.unclosedComment.message, place, [], [], []⟩

/-- Lexemes lay out a text that starts at byte `pos`: their tokens are those of the text, none of
    them being `eof`, and their errors are those of its error tokens and of an open block comment. -/
def LaidOut (file pos : Nat) (cs : List Char) (ls : List Lexeme) : Prop :=
  ∃ (opened : Option Span) (faults : List Diagnostic),
    Layout file pos cs (ls.filterMap (Lexeme.token? file)) opened ∧
    (∀ t ∈ ls.filterMap (Lexeme.token? file), t.kind ≠ .eof) ∧
    ls.filterMap (Lexeme.error? file) = faults ++ (opened.map unclosedComment).toList ∧
    faults.map (·.span)
      = ((ls.filterMap (Lexeme.token? file)).filter (·.kind = .error)).map (·.span)

section Steps

variable {file pos n : Nat} {c : Char} {cs rest : List Char} {kind : LexemeKind} {ls : List Lexeme}

/-- A token in front, with its error if it is a faulty one. -/
theorem LaidOut.token (hc : isBlank c = false) (hkind : Lexeme.ForToken kind)
    (hrest : LaidOut file (pos + byteLength (c :: cs)) rest ls) :
    LaidOut file pos (c :: cs ++ rest) (⟨kind, c :: cs, pos⟩ :: ls) := by
  obtain ⟨opened, faults, hlayout, heof, herrors, hfaults⟩ := hrest
  obtain ⟨k, hk, hkeof, hkerror⟩ := hkind
  have htoken : Lexeme.token? file ⟨kind, c :: cs, pos⟩ = some ⟨k, String.ofList (c :: cs),
      ⟨some file, pos, pos + byteLength (c :: cs)⟩⟩ := congrArg (Option.map _) hk
  rw [LaidOut, List.filterMap_cons_some htoken]
  -- A fault is reported where its token is; other tokens come without a report.
  by_cases hfault : k = .error
  · obtain ⟨f, rfl⟩ := hkerror.mp hfault
    subst hfault
    obtain ⟨d, herror, hspan⟩ : ∃ d, Lexeme.error? file ⟨.fault f, c :: cs, pos⟩ = some d ∧
        d.span = ⟨some file, pos, pos + byteLength (c :: cs)⟩ := ⟨_, rfl, rfl⟩
    refine ⟨opened, d :: faults, hlayout.lexeme _ hc,
      List.forall_mem_cons.mpr ⟨hkeof, heof⟩, ?_, ?_⟩
    · rw [List.filterMap_cons_some herror, herrors, List.cons_append]
    · rw [List.filter_cons_of_pos rfl, List.map_cons, List.map_cons, hfaults, hspan]
  · have hnone : Lexeme.error? file ⟨kind, c :: cs, pos⟩ = none := by
      cases kind with
      | fault f => exact absurd (hkerror.mpr ⟨f, rfl⟩) hfault
      | _ => rfl
    refine ⟨opened, faults, hlayout.lexeme _ hc, List.forall_mem_cons.mpr ⟨hkeof, heof⟩, ?_, ?_⟩
    · rw [List.filterMap_cons_none hnone, herrors]
    · rw [List.filter_cons_of_neg (by simpa using hfault), hfaults]

/-- One more lexeme in front. -/
theorem LaidOut.next (h : Lexeme.next c rest = (kind, n))
    (hrest : LaidOut file (pos + byteLength (c :: rest.take n)) (rest.drop n) ls)
    (hend : rest.drop n = [] → ls = []) :
    LaidOut file pos (c :: rest) (⟨kind, c :: rest.take n, pos⟩ :: ls) := by
  have hcs : c :: rest = c :: rest.take n ++ rest.drop n := by
    rw [List.cons_append, List.take_append_drop]
  obtain ⟨rfl, htrivia⟩ | ⟨rfl, htrivia | ⟨t, hchars, hinside, hline⟩⟩ |
    ⟨rfl, hdrop, t, hchars, hinside⟩ | ⟨hc, hkind⟩ := Lexeme.next_cases h
  · obtain ⟨opened, faults, hlayout, hlaid⟩ := hrest
    rw [hcs]
    exact ⟨opened, faults, hlayout.trivia htrivia, hlaid⟩
  · obtain ⟨opened, faults, hlayout, hlaid⟩ := hrest
    rw [hcs]
    exact ⟨opened, faults, hlayout.trivia htrivia, hlaid⟩
  · -- a line comment joins what follows it, unless the text ends
    rw [hcs, hchars]
    rw [hchars] at hrest
    cases hdrop : rest.drop n with
    | nil =>
      rw [List.append_nil, hend hdrop]
      exact ⟨none, [], .ending (.line .nil hinside), nofun, rfl, rfl⟩
    | cons x more =>
      obtain rfl : x = '\n' := hline x (by rw [hdrop]; rfl)
      rw [hdrop] at hrest
      obtain ⟨opened, faults, hlayout, hlaid⟩ := hrest
      exact ⟨opened, faults, hlayout.line hinside, hlaid⟩
  · rw [hcs, hchars, hdrop, List.append_nil, hend hdrop]
    exact ⟨_, [], .ending (.opened .nil hinside), nofun, rfl, rfl⟩
  · rw [hcs]
    exact hrest.token hc hkind

end Steps

/-- **The lexemes of a text lay it out.** -/
theorem laidOut_all (file pos : Nat) (cs : List Char) :
    LaidOut file pos cs (Lexeme.all pos cs) := by
  induction pos, cs using Lexeme.all.induct with
  | case1 pos =>
    rw [Lexeme.all]
    exact ⟨none, [], .ending (.closed .nil), List.forall_mem_nil _, rfl, rfl⟩
  | case2 pos c rest kind n hnext chars ih =>
    rw [Lexeme.all, hnext]
    refine ih.next hnext fun hdrop => ?_
    rw [hdrop, Lexeme.all]

/-! ### Places -/

namespace SourceText

variable {T : SourceText} {pos : Nat} {cs : List Char} {ts : List Token} {opened : Option Span}

end SourceText

end JavaAbi
