import JavaAbi.Proofs.NestedSpans
import JavaAbi.Proofs.ParsedTrees
import JavaAbi.Proofs.SafeParsing

namespace JavaAbi

/-!
# Spans of written types

Of a parser that reports nothing, each token that is required was consumed. The span of what it parses
starts at the token that was at hand when it started, or behind it, and it ends with the token that was
consumed last. So what it parses lies in the range between the two states, and what is parsed later lies
behind it.

* `SourceText.range` — the text between two states;
* `Parser.Lays` — the judgement on parsers: what is promised of a run without diagnostics;
* `Parser.identifier_lays` — an identifier names what stands at its place;
* `Parser.type_lays` — the spans of types nest.

The names that are found on the way are names of every later table, so that one table serves for all of
them.
-/

/-- A name of a table is what stands at a place of a text. -/
def SourceText.Reads (T : SourceText) (t : NameTable) (n : Name) (place : Span) : Prop :=
  ∃ text, t.resolve? n = some text ∧
    sliceBytes? place.start place.stop T.source.toList = some text.toList

/-- The text from the token at hand in a state to the one that was consumed last in another. -/
def SourceText.range (T : SourceText) (s u : ParserState) : Span :=
  ⟨some T.file, s.current.span.start, u.reach⟩

namespace ParserState

variable {T : SourceText} {t : NameTable} {s u v w : ParserState}

/-- A state as it has to be, in which the tokens ahead have the texts of their places. -/
structure Ready (T : SourceText) (s : ParserState) : Prop extends Sane T s where
  reads : ∀ t ∈ s.tokens,
    sliceBytes? t.span.start t.span.stop T.source.toList = some t.text.toList

/-- A state in which no parser was cut off and nothing was reported; its names are those of a table. -/
structure Settled (t : NameTable) (s : ParserState) : Prop where
  whole : s.cutOff = false
  clean : s.Clean
  names : s.names.Le t

theorem Settled.of_leads (hu : u.Settled t) (h : s.Leads u) : s.Settled t where
  whole := by
    cases hs : s.cutOff with
    | false => rfl
    | true => exact absurd (h.cutOff hs) (by rw [hu.whole]; decide)
  clean := .of_leads h hu.clean
  names := h.names.trans hu.names

/-- A parser goes from one state to another. -/
structure Goes (T : SourceText) (s u : ParserState) : Prop where
  leads : s.Leads u
  moves : s.Moves u
  ready : u.Ready T

theorem Goes.refl (h : s.Ready T) : s.Goes T s := ⟨.refl s, .refl s, h⟩

theorem Goes.trans (h : s.Goes T u) (h' : u.Goes T v) : s.Goes T v :=
  ⟨h.leads.trans h'.leads, h.moves.trans h.leads h'.moves h'.leads, h'.ready⟩

theorem Goes.remaining_lt (h : u.Goes T v) (hlt : u.remaining < s.remaining) :
    v.remaining < s.remaining :=
  Nat.lt_of_le_of_lt h.leads.remaining_le hlt

/-- What is ahead in a later state is ahead in the earlier one. -/
theorem Ready.of_leads (h : s.Ready T) (hl : s.Leads u) (hu : u.Sane T) : u.Ready T :=
  { hu with reads := fun t ht => h.reads t (hl.tokens.subset ht) }

/-! ### Ranges -/

theorem Goes.inside_left (h : s.Goes T u) (v : ParserState) :
    (T.range u v).Inside (T.range s v) :=
  ⟨rfl, h.moves.current_le, Nat.le_refl _⟩

theorem Goes.inside_right (s : ParserState) (h : u.Goes T v) :
    (T.range s u).Inside (T.range s v) :=
  ⟨rfl, Nat.le_refl _, h.moves.reach_le⟩

/-- What is parsed later lies behind what was parsed earlier. -/
theorem Goes.apart (h : s.Goes T u) (h' : u.Goes T v) (w : ParserState) :
    (T.range s u).stop ≤ (T.range v w).start :=
  Nat.le_trans h.ready.reach_le h'.moves.current_le

theorem Goes.inside (h : s.Goes T u) (h' : v.Goes T w) : (T.range u v).Inside (T.range s w) :=
  (h.inside_left v).trans (h'.inside_right s)

/-- Spans of a range, then spans of a later one. -/
theorem Goes.lines {ps qs : List Span} (h : s.Goes T u) (h' : u.Goes T v) (h'' : v.Goes T w)
    (hps : (T.range s u).Lines ps) (hqs : (T.range v w).Lines qs) :
    (T.range s w).Lines (ps ++ qs) :=
  hps.append hqs (h.apart h' w) ((h'.trans h'').inside_right s) ((h.trans h').inside_left w)

section Rows

variable {γ : Type} {place : γ → Span} {Fine : γ → Prop} {x : γ} {xs ys : List γ}

/-- Nodes of a range, then nodes of a later one. -/
theorem Goes.append (h : s.Goes T u) (h' : u.Goes T v) (h'' : v.Goes T w)
    (hxs : Row place Fine (T.range s u) xs) (hys : Row place Fine (T.range v w) ys) :
    Row place Fine (T.range s w) (xs ++ ys) where
  lines := List.map_append ▸ h.lines h' h'' hxs.lines hys.lines
  fine x hx := (List.mem_append.1 hx).elim (hxs.fine x) (hys.fine x)

/-- A node of a range, then nodes of a later one. -/
theorem Goes.cons (h : s.Goes T u) (h' : u.Goes T v) (h'' : v.Goes T w)
    (hx : Fine x ∧ (T.range s u).Contains (place x)) (hxs : Row place Fine (T.range v w) xs) :
    Row place Fine (T.range s w) (x :: xs) :=
  h.append h' h'' (.singleton hx.1 hx.2) hxs

/-- A node of a range and nothing after it. -/
theorem Goes.single (h : u.Goes T v) (hx : Fine x ∧ (T.range s u).Contains (place x)) :
    Row place Fine (T.range s v) [x] :=
  .singleton hx.1 (hx.2.widen (h.inside_right s))

end Rows

/-- Where tokens were consumed, the range between the states is that of the tokens. -/
theorem Goes.cover_eq (hs : s.Ready T) (h : s.Goes T u) (hlt : u.remaining < s.remaining) :
    s.current.span.cover (u.last.getD u.current.span) = T.range s u := by
  obtain ⟨p, hp, hstart, hstop⟩ := h.moves.passes hlt
  rw [SourceText.range, reach, hp, Option.getD_some, Span.cover, Nat.min_eq_left hstart,
    Nat.max_eq_right hstop, hs.current.file]
  rfl

/-- Such a range is a span. -/
theorem Goes.contains (hs : s.Ready T) (h : s.Goes T u) (hlt : u.remaining < s.remaining) :
    (T.range s u).Contains (T.range s u) := by
  refine ⟨rfl, Nat.le_refl _, ?_, Nat.le_refl _⟩
  obtain ⟨p, hp, -, hstop⟩ := h.moves.passes hlt
  show s.current.span.start ≤ u.reach
  rw [reach, hp]
  exact Nat.le_trans hs.current.le hstop

/-- Its first token is in it. -/
theorem Goes.contains_current (hs : s.Ready T) (h : s.Goes T u)
    (hlt : u.remaining < s.remaining) : (T.range s u).Contains s.current.span := by
  refine ⟨hs.current.file, Nat.le_refl _, hs.current.le, ?_⟩
  obtain ⟨p, hp, -, hstop⟩ := h.moves.passes hlt
  show s.current.span.stop ≤ u.reach
  rw [reach, hp]
  exact hstop

end ParserState

namespace Parser

open ParserState

variable {T : SourceText} {t : NameTable} {α β : Type} {s u : ParserState} {p q : Parser α}
  {P : α → ParserState → Prop} {Q : β → ParserState → Prop}

/-- **What is promised of a run without diagnostics**: it goes on from a state as it has to be. -/
def Lays (T : SourceText) (t : NameTable) (p : Parser α) (s : ParserState)
    (post : α → ParserState → Prop) : Prop :=
  s.Ready T → (p.run s).2.Settled t → s.Goes T (p.run s).2 ∧ post (p.run s).1 (p.run s).2

theorem Lays.pure {a : α} (h : P a s) : (Pure.pure a : Parser α).Lays T t s P := fun hs _ =>
  ⟨.refl hs, h⟩

theorem Lays.ready (h : s.Ready T → p.Lays T t s P) : p.Lays T t s P := fun hs => h hs hs

theorem Lays.mono {P' : α → ParserState → Prop} (h : p.Lays T t s P)
    (hm : ∀ a u, s.Goes T u → P a u → P' a u) : p.Lays T t s P' := fun hs hu =>
  ⟨(h hs hu).1, hm _ _ (h hs hu).1 (h hs hu).2⟩

theorem Lays.bind {f : α → Parser β} (h : p.Lays T t s P)
    (hf : ∀ a u, s.Goes T u → P a u → (f a).Lays T t u Q) : (p >>= f).Lays T t s Q := by
  intro hs hv
  -- what is settled at the end was settled in between
  have hfirst := h hs (hv.of_leads ((f (p.run s).1).leads (p.run s).2))
  have hsecond := hf _ _ hfirst.1 hfirst.2 hfirst.1.ready hv
  exact ⟨hfirst.1.trans hsecond.1, hsecond.2⟩

/-- A parser after one of which only its growth matters. -/
theorem Lays.after {f : α → Parser β} (h : p.Lays T t s P)
    (hf : ∀ a u, s.Goes T u → (f a).Lays T t u Q) : (p >>= f).Lays T t s Q :=
  h.bind fun a u hu _ => hf a u hu

/-- Two branches that go on in the same way. -/
theorem Lays.join {c : Prop} [Decidable c] {f : α → Parser β}
    (h : (if c then p else q).Lays T t s P)
    (hf : ∀ a u, s.Goes T u → P a u → (f a).Lays T t u Q) :
    (if c then p >>= f else q >>= f).Lays T t s Q := by
  split <;> rename_i hc
  · rw [if_pos hc] at h
    exact h.bind hf
  · rw [if_neg hc] at h
    exact h.bind hf

theorem Lays.of_runs (h : p.Runs T s P) : p.Lays T t s P := fun hs _ =>
  have hrun := h hs.toSane
  ⟨⟨p.leads s, hrun.2.1.moves, hs.of_leads (p.leads s) hrun.1⟩, hrun.2.2⟩

/-- A parser that was cut off has no such run. -/
theorem Lays.cutOff {a : α} : (Parser.cutOff a).Lays T t s P := fun _ hu => nomatch hu.whole

/-- Neither has one that reports something. -/
theorem Lays.of_reports (h : (p.run s).2.errors ≠ #[]) : p.Lays T t s P := fun _ hu =>
  absurd hu.clean h

theorem Lays.after_report {f : α → Parser β} (h : (p.run s).2.errors ≠ #[]) :
    (p >>= f).Lays T t s Q :=
  (Lays.of_reports (P := fun _ _ => False) h).bind fun _ _ _ h => h.elim

/-! ### Primitive steps -/

theorem lays_kind {f : TokenKind → Parser β} :
    (kind >>= f).Lays T t s Q ↔ (f s.current.kind).Lays T t s Q := Iff.rfl

theorem lays_peek {n : Nat} {f : TokenKind → Parser β} :
    (peek n >>= f).Lays T t s Q ↔ (f (s.peek n)).Lays T t s Q := Iff.rfl

theorem lays_isAt {k : TokenKind} {f : Bool → Parser β} :
    (isAt k >>= f).Lays T t s Q ↔ (f (s.current.kind = k)).Lays T t s Q := Iff.rfl

theorem lays_state {f : ParserState → Parser β} :
    (state >>= f).Lays T t s Q ↔ (f s).Lays T t s Q := Iff.rfl

theorem lays_steps {f : Nat → Parser β} :
    (steps >>= f).Lays T t s Q ↔ (f (5 * s.remaining + 5)).Lays T t s Q := Iff.rfl

theorem lays_currentSpan {f : Span → Parser β} :
    (currentSpan >>= f).Lays T t s Q ↔ (f s.current.span).Lays T t s Q := Iff.rfl

theorem lays_isAtDimension {f : Bool → Parser β} : (isAtDimension >>= f).Lays T t s Q ↔
    (f (s.current.kind = .leftBracket && s.peek 1 = .rightBracket)).Lays T t s Q := Iff.rfl

/-- The span from the token at hand in an earlier state is the range from this state on. -/
theorem spanFrom_lays {f : Span → Parser β} (hs : s.Ready T) (h : s.Goes T u)
    (hlt : u.remaining < s.remaining) (hf : (f (T.range s u)).Lays T t u Q) :
    (spanFrom s.current.span >>= f).Lays T t u Q := by
  have hrun : (spanFrom s.current.span >>= f).run u = (f (T.range s u)).run u := by
    rw [← h.cover_eq hs hlt]
    rfl
  unfold Lays
  rw [hrun]
  exact hf

theorem advance_lays :
    advance.Lays T t s fun _ u => s.current.kind ≠ .eof → u.remaining < s.remaining :=
  .of_runs advance_runs

theorem eat_lays {k : TokenKind} (hk : k ≠ .eof) : (eat k).Lays T t s fun eaten u =>
    (eaten = true → u.remaining < s.remaining) ∧ (eaten = false → u = s ∧ s.current.kind ≠ k) :=
  .of_runs (eat_runs hk)

/-- A token that is required was there. -/
theorem expect_lays {k : TokenKind} (hk : k ≠ .eof) :
    (expect k).Lays T t s fun _ u => u.remaining < s.remaining := by
  rw [expect]
  refine (eat_lays hk).bind fun eaten u hu heat => ?_
  cases eaten with
  | true => exact .pure (heat.1 rfl)
  | false => exact .of_reports expected_gives

/-- A name of a text. -/
theorem intern_lays {text : String}
    (h : text = "<missing>" ∨ ∃ t ∈ s.tokens, t.kind = .identifier ∧ t.text = text) :
    (intern text).Lays T t s fun n u => u.tokens = s.tokens ∧ t.resolve? n = some text := by
  intro hs hu
  obtain ⟨hgoes, htokens⟩ := Lays.of_runs (t := t) (intern_runs h) hs hu
  exact ⟨hgoes, htokens, hu.names _ _ (s.names.resolve?_intern text)⟩

/-- **An identifier names what stands at its place.** -/
theorem identifier_lays : identifier.Lays T t s fun n u =>
    u.remaining < s.remaining ∧ T.Reads t n s.current.span := by
  rw [identifier, lays_state]
  dsimp only
  split
  · rename_i hk
    refine .ready fun hs => (intern_lays (.inr ⟨s.current, hs.current_mem, hk, rfl⟩)).bind
      fun n u hu hintern => advance_lays.bind fun _ v hv hlt => .pure ?_
    obtain ⟨htokens, hname⟩ := hintern
    rw [current_eq htokens, remaining_eq htokens, hk] at hlt
    exact ⟨hlt (by decide), _, hname, hs.reads _ hs.current_mem⟩
  · exact .after_report expected_gives

/-- Nodes with a separator between them. -/
theorem separated_lays {place : α → Span} {Fine : α → Prop} {separator : TokenKind}
    {first : Parser α} {others : Parser (List α)} (hk : separator ≠ .eof)
    (hfirst : first.Lays T t s fun x u => Fine x ∧ (T.range s u).Contains (place x))
    (hothers : ∀ v, others.Lays T t v fun xs w => Row place Fine (T.range v w) xs) :
    (do
      let x ← first
      if ← eat separator then
        return x :: (← others)
      else
        return [x] : Parser (List α)).Lays T t s fun xs u => Row place Fine (T.range s u) xs := by
  refine hfirst.bind fun x u hu hx => (eat_lays hk).after fun more v hv => ?_
  split
  · exact (hothers v).bind fun xs w hw hxs => .pure (hu.cons hv hw hx hxs)
  · exact .pure (hv.single hx)

/-! ### Types -/

/-- The span of an array starts with that of its component and goes on. -/
theorem arrayOf_lays {s₀ : ParserState} (hs₀ : s₀.Ready T) (fuel : Nat) {r : TypeRef}
    (s : ParserState) (h : s₀.Goes T s) (hlt : s.remaining < s₀.remaining) (hr : r.Nested)
    (hplace : (T.range s₀ s).Contains r.span) :
    (arrayOf s₀.current.span fuel r).Lays T t s fun r u =>
      r.Nested ∧ (T.range s₀ u).Contains r.span := by
  induction fuel generalizing r s with
  | zero => exact .cutOff
  | succ fuel ih =>
    rw [arrayOf, lays_isAtDimension]
    split
    · refine advance_lays.after fun _ u hu => advance_lays.after fun _ v hv => ?_
      have hstep := hu.trans hv
      have hlt' := hstep.remaining_lt hlt
      refine spanFrom_lays hs₀ (h.trans hstep) hlt' (ih v (h.trans hstep) hlt' (.array ?_ hr) ?_)
      · exact hplace.widen (hstep.inside_right s₀)
      · exact (h.trans hstep).contains hs₀ hlt'
    · exact .pure ⟨hr, hplace⟩

mutual

theorem typeWithin_lays {fuel : Nat} {s : ParserState} : (typeWithin fuel).Lays T t s fun r u =>
    r.Nested ∧ (T.range s u).Contains r.span := by
  match fuel with
  | 0 => exact lays_currentSpan.2 .cutOff
  | fuel + 1 =>
    rw [typeWithin]
    refine (Lays.of_runs skipAnnotations_runs).after fun _ u hu => ?_
    rw [lays_currentSpan, lays_kind]
    -- the dimensions belong to a type that starts behind its annotations
    have hdims : ∀ {fuel : Nat} {r : TypeRef} {v : ParserState}, u.Goes T v →
        v.remaining < u.remaining → r.Nested → (T.range u v).Contains r.span →
        (arrayOf u.current.span fuel r).Lays T t v fun r w =>
          r.Nested ∧ (T.range s w).Contains r.span := fun hv hlt hr hplace =>
      (arrayOf_lays hu.ready _ _ hv hlt hr hplace).mono fun _ w _ hr' =>
        ⟨hr'.1, hr'.2.widen (hu.inside_left w)⟩
    split
    · refine classSegments_lays.bind fun segs v hv hrun => ?_
      obtain ⟨hargs, hlt⟩ := hrun
      rw [lays_state]
      refine spanFrom_lays hu.ready hv hlt (hdims hv hlt (.classType hargs.lines ?_) ?_)
      · exact fun seg hseg a ha => hargs.fine a (List.mem_flatMap.2 ⟨seg, hseg, ha⟩)
      · exact hv.contains hu.ready hlt
    · split
      · rename_i hk
        refine advance_lays.bind fun _ v hv hlt => ?_
        have hlt := hlt (by rw [hk]; decide)
        exact lays_state.2 (hdims hv hlt .void (hv.contains_current hu.ready hlt))
      · split
        · rename_i hk
          refine advance_lays.bind fun _ v hv hlt => ?_
          have hlt := hlt fun heof => by rw [heof] at hk; cases hk
          exact lays_state.2 (hdims hv hlt .primitive (hv.contains_current hu.ready hlt))
        · exact .after_report expected_gives

theorem classSegments_lays {fuel : Nat} {s : ParserState} :
    (classSegments fuel).Lays T t s fun segs u =>
      TypeRef.AllNested (T.range s u) (segs.flatMap ClassSegment.args) ∧
      u.remaining < s.remaining := by
  match fuel with
  | 0 => exact .cutOff
  | fuel + 1 =>
    rw [classSegments]
    refine identifier_lays.bind fun name u hu hrun => ?_
    obtain ⟨hlt, -⟩ := hrun
    rw [lays_isAt]
    refine Lays.join (P := fun args v => TypeRef.AllNested (T.range u v) args) ?_
      fun args v hv hargs => ?_
    · split
      · exact typeArgs_lays
      · exact .pure (.nil _)
    · have hargs := hargs.widen (hu.inside_left v)
      rw [lays_peek, lays_isAt]
      split
      · refine advance_lays.after fun _ w hw => ?_
        refine (Lays.of_runs skipAnnotations_runs).after fun _ x hx => ?_
        refine classSegments_lays.bind fun rest y hy hrest => .pure ⟨?_, ?_⟩
        · exact (hu.trans hv).append (hw.trans hx) hy hargs hrest.1
        · exact ((hv.trans hw).trans (hx.trans hy)).remaining_lt hlt
      · refine .pure ⟨?_, hv.remaining_lt hlt⟩
        rwa [List.flatMap_singleton]

theorem typeArgs_lays {fuel : Nat} {s : ParserState} :
    (typeArgs fuel).Lays T t s fun args u => TypeRef.AllNested (T.range s u) args := by
  match fuel with
  | 0 => exact .cutOff
  | fuel + 1 =>
    rw [typeArgs]
    refine (expect_lays (by decide)).after fun _ u hu => ?_
    refine (eat_lays (by decide)).after fun eaten v hv => ?_
    split
    · exact .pure (.nil _)
    · refine typeArgList_lays.bind fun args w _ hargs => ?_
      refine (expect_lays (by decide)).after fun _ x hx => .pure ?_
      exact hargs.widen ((hu.trans hv).inside hx)

theorem typeArgList_lays {fuel : Nat} {s : ParserState} :
    (typeArgList fuel).Lays T t s fun args u => TypeRef.AllNested (T.range s u) args := by
  match fuel with
  | 0 => exact .cutOff
  | fuel + 1 =>
    rw [typeArgList]
    exact separated_lays (by decide) typeArg_lays fun _ => typeArgList_lays

theorem typeArg_lays {fuel : Nat} {s : ParserState} : (typeArg fuel).Lays T t s fun arg u =>
    arg.Nested ∧ (T.range s u).Contains arg.span := by
  match fuel with
  | 0 => exact lays_currentSpan.2 .cutOff
  | fuel + 1 =>
    rw [typeArg]
    refine (Lays.of_runs skipAnnotations_runs).after fun _ u hu => ?_
    rw [lays_currentSpan]
    refine (eat_lays (by decide)).bind fun asked v hv heat => ?_
    split
    · have hlt := heat.1 ‹_›
      -- the question mark was consumed, so whatever follows it is in the span of the wildcard
      have hwild : ∀ {w : ParserState}, v.Goes T w →
          w.remaining < u.remaining ∧ (T.range s w).Contains (T.range u w) := fun hw =>
        have hlt' := hw.remaining_lt hlt
        ⟨hlt', ((hv.trans hw).contains hu.ready hlt').widen (hu.inside_left _)⟩
      refine (eat_lays (by decide)).after fun more w hw => ?_
      split
      · refine typeWithin_lays.bind fun bound x hx hrun => ?_
        obtain ⟨hbound, hplace⟩ := hrun
        obtain ⟨hlt', hcontains⟩ := hwild (hw.trans hx)
        refine spanFrom_lays hu.ready (hv.trans (hw.trans hx)) hlt' (.pure ⟨?_, hcontains⟩)
        exact .wildcardExtends (hplace.widen ((hv.trans hw).inside_left x)) hbound
      · refine (eat_lays (by decide)).after fun more' x hx => ?_
        have hwx := hw.trans hx
        split
        · refine typeWithin_lays.bind fun bound y hy hrun => ?_
          obtain ⟨hbound, hplace⟩ := hrun
          obtain ⟨hlt', hcontains⟩ := hwild (hwx.trans hy)
          refine spanFrom_lays hu.ready (hv.trans (hwx.trans hy)) hlt' (.pure ⟨?_, hcontains⟩)
          exact .wildcardSuper (hplace.widen ((hv.trans hwx).inside_left y)) hbound
        · obtain ⟨hlt', hcontains⟩ := hwild hwx
          exact spanFrom_lays hu.ready (hv.trans hwx) hlt' (.pure ⟨.wildcard, hcontains⟩)
    · exact typeWithin_lays.mono fun r w _ hr => ⟨hr.1, hr.2.widen ((hu.trans hv).inside_left w)⟩

end

/-- **The spans of a type nest.** -/
theorem type_lays : type.Lays T t s fun r u => r.Nested ∧ (T.range s u).Contains r.span := by
  rw [type, lays_steps]
  exact typeWithin_lays

theorem typesBetween_lays {separator : TokenKind} (hs : separator ≠ .eof) (fuel : Nat)
    (s : ParserState) : (typesBetween separator fuel).Lays T t s fun types u =>
      TypeRef.AllNested (T.range s u) types := by
  induction fuel generalizing s with
  | zero => exact .cutOff
  | succ fuel ih =>
    rw [typesBetween]
    exact separated_lays hs type_lays ih

theorem typeList_lays :
    typeList.Lays T t s fun types u => TypeRef.AllNested (T.range s u) types := by
  rw [typeList, lays_state]
  exact typesBetween_lays (by decide) _ s

theorem boundList_lays :
    boundList.Lays T t s fun types u => TypeRef.AllNested (T.range s u) types := by
  rw [boundList, lays_state]
  exact typesBetween_lays (by decide) _ s

theorem typeParam_lays : typeParam.Lays T t s fun p u =>
    p.Nested ∧ (T.range s u).Contains p.span := by
  rw [typeParam]
  refine (Lays.of_runs skipAnnotations_runs).after fun _ u hu => ?_
  rw [lays_currentSpan]
  refine identifier_lays.bind fun name v hv hrun => ?_
  obtain ⟨hlt, -⟩ := hrun
  refine (eat_lays (by decide)).after fun bounded w hw => ?_
  refine Lays.join (P := fun bounds x => TypeRef.AllNested (T.range w x) bounds) ?_
    fun bounds x hx hbounds => ?_
  · split
    · exact boundList_lays
    · exact .pure (.nil _)
  · have hvx := hw.trans hx
    have hlt' := hvx.remaining_lt hlt
    refine spanFrom_lays hu.ready (hv.trans hvx) hlt' (.pure ⟨?_, ?_⟩)
    · exact hbounds.widen ((hv.trans hw).inside_left x)
    · exact ((hv.trans hvx).contains hu.ready hlt').widen (hu.inside_left x)

theorem typeParamList_lays (fuel : Nat) (s : ParserState) :
    (typeParamList fuel).Lays T t s fun params u => TypeParam.AllNested (T.range s u) params := by
  induction fuel generalizing s with
  | zero => exact .cutOff
  | succ fuel ih =>
    rw [typeParamList]
    exact separated_lays (by decide) typeParam_lays ih

theorem typeParams_lays : typeParams.Lays T t s fun params u =>
    TypeParam.AllNested (T.range s u) params := by
  rw [typeParams]
  refine (expect_lays (by decide)).after fun _ u hu => ?_
  rw [lays_state]
  refine (typeParamList_lays _ u).bind fun params v hv hparams => ?_
  refine (expect_lays (by decide)).after fun _ w hw => .pure ?_
  exact hparams.widen (hu.inside hw)

theorem optionalTypeParams_lays : optionalTypeParams.Lays T t s fun params u =>
    TypeParam.AllNested (T.range s u) params := by
  rw [optionalTypeParams, lays_isAt]
  split
  · exact typeParams_lays
  · exact .pure (.nil _)

end Parser

end JavaAbi
