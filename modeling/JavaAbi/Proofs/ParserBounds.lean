import JavaAbi.Proofs.Lexemes
import JavaAbi.Proofs.ParsedTypes

namespace JavaAbi

/-!
# The parser comes to an end

Whatever the tokens, each loop of the parser makes progress, so that none is cut off by its bound, and
every place in a written type is a span of the file. No text is interned but those of identifiers, and
no token stands before one that was consumed earlier.

* `ParserState.Sane` — the invariant: not cut off, `eof` ahead, all places in the file and in order;
* `ParserState.Interns` — what may be interned on the way from one state to another;
* `ParserState.Moves` — how far it is from one state to another;
* `Parser.Runs` — a parser keeps the invariant, and what holds of its answer;
* `Parser.type_runs` — the parser of types.
-/

/-! ### Places of written types -/

/-- All places in a written type are spans of a file. -/
inductive TypeRef.Placed (T : SourceText) : TypeRef → Prop
  | primitive {p : PrimitiveType} {span : Span} (place : T.Holds span) : Placed T (.primitive p span)
  | void {span : Span} (place : T.Holds span) : Placed T (.void span)
  | classType {segments : List ClassSegment} {span : Span} (place : T.Holds span)
      (args : ∀ seg ∈ segments, ∀ a ∈ seg.args, Placed T a) : Placed T (.classType segments span)
  | array {component : TypeRef} {span : Span} (place : T.Holds span)
      (inner : Placed T component) : Placed T (.array component span)
  | wildcard {span : Span} (place : T.Holds span) : Placed T (.wildcard span)
  | wildcardExtends {bound : TypeRef} {span : Span} (place : T.Holds span)
      (inner : Placed T bound) : Placed T (.wildcardExtends bound span)
  | wildcardSuper {bound : TypeRef} {span : Span} (place : T.Holds span)
      (inner : Placed T bound) : Placed T (.wildcardSuper bound span)
  | error {span : Span} (place : T.Holds span) : Placed T (.error span)

/-- All places in a type parameter are spans of a file. -/
structure TypeParam.Placed (T : SourceText) (p : TypeParam) : Prop where
  bounds : ∀ b ∈ p.bounds, b.Placed T
  place : T.Holds p.span

/-! ### The invariant -/

namespace ParserState

/-- A state as it has to be: no parser was cut off, `eof` is ahead, all places are spans of the file,
    and the tokens stand one after the other, behind the token consumed last. -/
structure Sane (T : SourceText) (s : ParserState) : Prop where
  whole : s.cutOff = false
  ends : ∃ t ∈ s.tokens, t.kind = .eof
  tokens : ∀ t ∈ s.tokens, T.Holds t.span
  last : ∀ p ∈ s.last, T.Holds p
  errors : ∀ d ∈ s.errors.toList, T.Holds d.span
  ordered : s.tokens.Pairwise fun t u => t.span.stop ≤ u.span.start
  behind : ∀ p ∈ s.last, ∀ t ∈ s.tokens, p.stop ≤ t.span.start

/-- Where the token consumed last ends. -/
def reach (s : ParserState) : Nat := (s.last.map Span.stop).getD 0

/-- How far a state is behind another. Where tokens were consumed, the last of them does not stand
    before the first. -/
structure Moves (s u : ParserState) : Prop where
  current_le : s.current.span.start ≤ u.current.span.start
  reach_le : s.reach ≤ u.reach
  stands : u.remaining = s.remaining → u.last = s.last
  passes : u.remaining < s.remaining → ∃ p, u.last = some p ∧ s.current.span.start ≤ p.start ∧
    s.current.span.stop ≤ p.stop

variable {T : SourceText} {s : ParserState}

theorem Sane.remaining_pos (h : s.Sane T) : 0 < s.remaining := by
  obtain ⟨t, ht, -⟩ := h.ends
  exact List.length_pos_of_mem ht

/-- The token at hand is one of the file. -/
theorem Sane.current_mem (h : s.Sane T) : s.current ∈ s.tokens := by
  have hpos := h.remaining_pos
  unfold ParserState.current
  cases htokens : s.tokens with
  | nil =>
    rw [remaining, htokens] at hpos
    exact absurd hpos (Nat.lt_irrefl 0)
  | cons t rest => exact List.mem_cons_self

theorem Sane.current (h : s.Sane T) : T.Holds s.current.span := h.tokens _ h.current_mem

theorem Sane.advance (h : s.Sane T) : s.advance.Sane T := by
  have hl := s.leads_advance
  obtain ⟨t, ht, hk⟩ := h.ends
  refine
    { whole := ?_
      ends := ⟨t, hl.ends t ht hk, hk⟩
      tokens := fun u hu => h.tokens u (hl.tokens.subset hu)
      last := ?_
      errors := ?_
      ordered := h.ordered.sublist hl.tokens.sublist
      behind := ?_ }
  -- Nothing changes at the last token; any other becomes the one that was read last.
  all_goals unfold ParserState.advance; split
  · exact h.whole
  · split <;> exact h.whole
  · exact h.last
  · rename_i u rest htokens
    split
    · exact h.last
    · rintro p hp
      obtain rfl := Option.some.inj hp
      exact h.tokens u (htokens ▸ List.mem_cons_self)
  · exact h.errors
  · split <;> exact h.errors
  · exact h.behind
  · rename_i u rest htokens
    split
    · exact h.behind
    · rintro p hp
      obtain rfl := Option.some.inj hp
      exact (List.pairwise_cons.1 (htokens ▸ h.ordered)).1

/-- The token consumed last ends before the one at hand. -/
theorem Sane.reach_le (h : s.Sane T) : s.reach ≤ s.current.span.start := by
  unfold reach
  cases hlast : s.last with
  | none => exact Nat.zero_le _
  | some p => exact h.behind p hlast _ h.current_mem

theorem Leads.current_eq {u : ParserState} (h : s.Leads u) (hr : s.remaining ≤ u.remaining) :
    u.tokens = s.tokens := h.tokens.eq_of_length_le hr

theorem Moves.refl (s : ParserState) : s.Moves s where
  current_le := Nat.le_refl _
  reach_le := Nat.le_refl _
  stands _ := rfl
  passes h := absurd h (Nat.lt_irrefl _)

/-- A state with the same tokens and the same last one. -/
theorem Moves.of_eq {u : ParserState} (ht : u.tokens = s.tokens) (hl : u.last = s.last) :
    s.Moves u where
  current_le := Nat.le_of_eq (by rw [ParserState.current, ParserState.current, ht])
  reach_le := Nat.le_of_eq (by rw [reach, reach, hl])
  stands _ := hl
  passes h := absurd h (by rw [remaining, remaining, ht]; exact Nat.lt_irrefl _)

theorem Moves.trans {u v : ParserState} (h : s.Moves u) (hl : s.Leads u) (h' : u.Moves v)
    (hl' : u.Leads v) : s.Moves v := by
  have hle := hl.remaining_le
  have hle' := hl'.remaining_le
  refine ⟨Nat.le_trans h.current_le h'.current_le, Nat.le_trans h.reach_le h'.reach_le,
    fun hv => ?_, fun hv => ?_⟩
  · exact (h'.stands (by omega)).trans (h.stands (by omega))
  · by_cases hu : s.remaining ≤ u.remaining
    · have hcurrent : u.current = s.current := by
        rw [ParserState.current, ParserState.current, hl.current_eq hu]
      rw [← hcurrent]
      exact h'.passes (by omega)
    · obtain ⟨p, hp, hstart, hstop⟩ := h.passes (by omega)
      by_cases hsame : v.remaining = u.remaining
      · exact ⟨p, (h'.stands hsame).trans hp, hstart, hstop⟩
      · obtain ⟨q, hq, hstart', -⟩ := h'.passes (by omega)
        have hreach := h'.reach_le
        rw [reach, reach, hp, hq] at hreach
        exact ⟨q, hq, Nat.le_trans h.current_le hstart', Nat.le_trans hstop hreach⟩

theorem Sane.moves_advance (h : s.Sane T) : s.Moves s.advance := by
  have hreach := h.reach_le
  have hle := h.current.le
  have hordered := h.ordered
  have hends := h.advance.current_mem
  unfold ParserState.advance at hends ⊢
  split at hends
  · exact .refl s
  · rename_i t rest htokens
    have hcurrent : s.current = t := by rw [ParserState.current, htokens]; rfl
    split at hends
    · rw [if_pos ‹_›]
      exact .refl s
    · rw [if_neg ‹_›]
      rw [htokens, List.pairwise_cons] at hordered
      rw [hcurrent] at hreach hle
      refine ⟨?_, Nat.le_trans hreach hle, fun hsame => ?_, fun _ => ⟨t.span, rfl, ?_, ?_⟩⟩
      · rw [hcurrent]
        exact Nat.le_trans hle (hordered.1 _ hends)
      · simp only [remaining, htokens, List.length_cons] at hsame
        omega
      · exact Nat.le_of_eq (by rw [hcurrent])
      · exact Nat.le_of_eq (by rw [hcurrent])

/-- What is interned on the way from one state to another is the text of an identifier ahead, or the
    placeholder for one that is missing. -/
def Interns (s u : ParserState) : Prop :=
  ∀ n text, u.names.resolve? n = some text → s.names.resolve? n = some text ∨
    text = "<missing>" ∨ ∃ t ∈ s.tokens, t.kind = .identifier ∧ t.text = text

theorem Interns.of_names {u : ParserState} (h : u.names = s.names) : s.Interns u :=
  fun _ _ hn => .inl (h ▸ hn)

theorem Interns.trans {u v : ParserState} (h : s.Interns u) (hl : s.Leads u) (h' : u.Interns v) :
    s.Interns v := by
  intro n text hn
  rcases h' n text hn with hn | hmissing | ⟨t, ht, hk⟩
  · exact h n text hn
  · exact .inr (.inl hmissing)
  · exact .inr (.inr ⟨t, hl.tokens.subset ht, hk⟩)

/-- One text is interned. -/
theorem Interns.intern {text : String}
    (h : text = "<missing>" ∨ ∃ t ∈ s.tokens, t.kind = .identifier ∧ t.text = text) :
    s.Interns { s with names := (s.names.intern text).2 } := by
  intro n other hn
  rcases s.names.resolve?_intern_inv hn with hold | rfl
  · exact .inl hold
  · exact .inr h

/-- The way of a parser from one state to another. -/
structure Walks (s u : ParserState) : Prop where
  interns : s.Interns u
  moves : s.Moves u

/-- A state that differs in what was found or noted only. -/
theorem Walks.of_eq {u : ParserState} (hn : u.names = s.names) (ht : u.tokens = s.tokens)
    (hl : u.last = s.last) : s.Walks u :=
  ⟨.of_names hn, .of_eq ht hl⟩

theorem Walks.trans {u v : ParserState} (h : s.Walks u) (hl : s.Leads u) (h' : u.Walks v)
    (hl' : u.Leads v) : s.Walks v :=
  ⟨h.interns.trans hl h'.interns, h.moves.trans hl h'.moves hl'⟩

theorem Sane.walks_advance (h : s.Sane T) : s.Walks s.advance :=
  ⟨.of_names s.names_advance, h.moves_advance⟩

end ParserState

namespace Parser

variable {T : SourceText} {α β : Type} {s : ParserState} {p q : Parser α}
  {P : α → ParserState → Prop} {Q : β → ParserState → Prop}

/-- A parser keeps a state as it has to be, interns what it may and moves on, and what holds then of
    its answer. -/
def Runs (T : SourceText) (p : Parser α) (s : ParserState) (post : α → ParserState → Prop) : Prop :=
  s.Sane T → p.Gives s fun a u => u.Sane T ∧ s.Walks u ∧ post a u

theorem Runs.pure {a : α} (h : P a s) : (Pure.pure a : Parser α).Runs T s P := fun hs =>
  ⟨hs, .of_eq rfl rfl rfl, h⟩

theorem Runs.mono {P' : α → ParserState → Prop} (h : p.Runs T s P)
    (hm : ∀ a u, s.Leads u → P a u → P' a u) : p.Runs T s P' := fun hs =>
  (h hs).mono fun a u hu ha => ⟨ha.1, ha.2.1, hm a u hu ha.2.2⟩

theorem Runs.bind {f : α → Parser β} (h : p.Runs T s P)
    (hf : ∀ a u, s.Leads u → P a u → (f a).Runs T u Q) : (p >>= f).Runs T s Q := fun hs =>
  (h hs).bind fun a u hu ha => (hf a u hu ha.2.2 ha.1).mono fun _ _ hv hb =>
    ⟨hb.1, ha.2.1.trans hu hb.2.1 hv, hb.2.2⟩

/-- A parser after one of which only its growth matters. -/
theorem Runs.after {f : α → Parser β} (h : p.Runs T s P)
    (hf : ∀ a u, s.Leads u → (f a).Runs T u Q) : (p >>= f).Runs T s Q :=
  h.bind fun a u hu _ => hf a u hu

theorem Runs.sane (h : s.Sane T → p.Runs T s P) : p.Runs T s P := fun hs => h hs hs

/-- Two branches that go on in the same way. -/
theorem Runs.join {c : Prop} [Decidable c] {f : α → Parser β}
    (h : (if c then p else q).Runs T s P)
    (hf : ∀ a u, s.Leads u → P a u → (f a).Runs T u Q) :
    (if c then p >>= f else q >>= f).Runs T s Q := by
  split <;> rename_i hc
  · rw [if_pos hc] at h
    exact h.bind hf
  · rw [if_neg hc] at h
    exact h.bind hf

/-- A parser is not cut off while there are tokens. -/
theorem Runs.cutOff {a : α} (h : s.remaining ≤ 0) : (Parser.cutOff a).Runs T s P :=
  .sane fun hs => absurd hs.remaining_pos (Nat.not_lt.2 h)

/-! ### Primitive steps -/

theorem runs_kind {f : TokenKind → Parser β} :
    (kind >>= f).Runs T s Q ↔ (f s.current.kind).Runs T s Q := Iff.rfl

theorem runs_peek {n : Nat} {f : TokenKind → Parser β} :
    (peek n >>= f).Runs T s Q ↔ (f (s.peek n)).Runs T s Q := Iff.rfl

theorem runs_isAt {k : TokenKind} {f : Bool → Parser β} :
    (isAt k >>= f).Runs T s Q ↔ (f (s.current.kind = k)).Runs T s Q := Iff.rfl

theorem runs_state {f : ParserState → Parser β} :
    (state >>= f).Runs T s Q ↔ (f s).Runs T s Q := Iff.rfl

theorem runs_steps {f : Nat → Parser β} :
    (steps >>= f).Runs T s Q ↔ (f (5 * s.remaining + 5)).Runs T s Q := Iff.rfl

theorem runs_isAtAnnotation {f : Bool → Parser β} : ( isAtAnnotation >>= f).Runs T s Q ↔
    (f (s.current.kind = .atSign && s.peek 1 ≠ .kwInterface)).Runs T s Q := Iff.rfl

theorem runs_isAtDimension {f : Bool → Parser β} : (isAtDimension >>= f).Runs T s Q ↔
    (f (s.current.kind = .leftBracket && s.peek 1 = .rightBracket)).Runs T s Q := Iff.rfl

theorem currentSpan_runs {f : Span → Parser β}
    (h : T.Holds s.current.span → (f s.current.span).Runs T s Q) :
    (currentSpan >>= f).Runs T s Q := fun hs => h hs.current hs

theorem advance_runs :
    advance.Runs T s fun _ u => s.current.kind ≠ .eof → u.remaining < s.remaining :=
  fun hs => ⟨hs.advance, hs.walks_advance, remaining_advance⟩

theorem eat_runs {k : TokenKind} (hk : k ≠ .eof) : (eat k).Runs T s fun eaten u =>
    (eaten = true → u.remaining < s.remaining) ∧ (eaten = false → u = s ∧ s.current.kind ≠ k) := by
  intro hs
  rw [Gives, run_eat]
  split
  · rename_i h
    exact ⟨hs.advance, hs.walks_advance, fun _ => remaining_advance (h ▸ hk), fun h => by cases h⟩
  · rename_i h
    exact ⟨hs, .of_eq rfl rfl rfl, (fun h => by cases h), fun _ => ⟨rfl, h⟩⟩

theorem spanFrom_runs {start : Span} (h : T.Holds start) :
    (spanFrom start).Runs T s fun place _ => T.Holds place := by
  intro hs
  refine ⟨hs, .of_eq rfl rfl rfl, h.cover ?_⟩
  show T.Holds (s.last.getD s.current.span)
  cases hlast : s.last with
  | none => exact hs.current
  | some place => exact hs.last place hlast

theorem errorAt_runs {span : Span} (h : T.Holds span) {message : String} :
    (errorAt span message).Runs T s fun _ u => u.tokens = s.tokens := by
  intro hs
  refine ⟨{ hs with errors := fun d hd => ?_ }, .of_eq rfl rfl rfl, rfl⟩
  rcases List.mem_append.1 (Array.toList_push ▸ hd) with hd | hd
  · exact hs.errors d hd
  · rw [List.mem_singleton.1 hd]
    exact h

theorem error_runs {message : String} :
    (error message).Runs T s fun _ u => u.tokens = s.tokens := 
    currentSpan_runs fun h => errorAt_runs h

theorem expected_runs {what : String} :
    (expected what).Runs T s fun _ u => u.tokens = s.tokens := by
  rw [expected, runs_state]
  exact .sane fun hs => errorAt_runs hs.current

theorem expect_runs {k : TokenKind} (hk : k ≠ .eof) :
    (expect k).Runs T s fun _ u => s.current.kind = k → u.remaining < s.remaining := by
  rw [expect]
  refine (eat_runs hk).bind fun eaten u hu heat => ?_
  cases eaten with
  | true => exact .pure fun _ => heat.1 rfl
  | false => exact expected_runs.mono fun _ _ _ _ h => absurd h (heat.2 rfl).2

theorem intern_runs {text : String}
    (h : text = "<missing>" ∨ ∃ t ∈ s.tokens, t.kind = .identifier ∧ t.text = text) :
    (intern text).Runs T s fun _ u => u.tokens = s.tokens :=
  fun hs => ⟨⟨hs.whole, hs.ends, hs.tokens, hs.last, hs.errors, hs.ordered, hs.behind⟩,
    ⟨.intern h, .of_eq rfl rfl⟩, rfl⟩

theorem remaining_eq {u : ParserState} (h : u.tokens = s.tokens) : u.remaining = s.remaining :=
  congrArg List.length h

theorem current_eq {u : ParserState} (h : u.tokens = s.tokens) : u.current = s.current := by
  rw [ParserState.current, ParserState.current, h]

theorem identifier_runs : identifier.Runs T s fun _ u =>
    s.current.kind = .identifier → u.remaining < s.remaining := by
  rw [identifier, runs_state]
  dsimp only
  split
  · rename_i h
    refine .sane fun hs => (intern_runs (.inr ⟨s.current, hs.current_mem, h, rfl⟩)).bind
      fun n u _ hu => advance_runs.bind fun _ v _ hlt => .pure fun _ => ?_
    rw [current_eq hu, remaining_eq hu, h] at hlt
    exact hlt (by decide)
  · rename_i h
    exact expected_runs.after fun _ u _ => (intern_runs (.inl rfl)).mono fun _ _ _ _ h' => absurd h' h

/-! ### Groups, paths and annotations -/

theorem skipGroup_runs {opening closing : TokenKind} {start : Span} (hstart : T.Holds start)
    (fuel depth : Nat) (s : ParserState) (hf : s.remaining ≤ fuel) :
    (skipGroup opening closing start fuel depth).Runs T s fun _ _ => True := by
  induction fuel generalizing depth s with
  | zero => exact .cutOff hf
  | succ fuel ih =>
    unfold skipGroup
    rw [runs_kind]
    split
    · exact (errorAt_runs hstart).mono fun _ _ _ _ => trivial
    · rename_i heof
      have hnext : ∀ depth, (advance >>= fun _ =>
          skipGroup opening closing start fuel depth).Runs T s fun _ _ => True := fun depth =>
        advance_runs.bind fun _ u _ hlt => ih depth u (by have := hlt heof; omega)
      split
      · exact hnext _
      · split
        · cases depth with
          | zero => exact advance_runs.after fun _ _ _ => .pure trivial
          | succ depth => exact hnext depth
        · exact hnext depth

theorem noteGroup_runs : noteGroup.Runs T s fun _ u => u.tokens = s.tokens :=
  fun hs => ⟨⟨hs.whole, hs.ends, hs.tokens, hs.last, hs.errors, hs.ordered, hs.behind⟩,
    .of_eq rfl rfl rfl, rfl⟩

theorem skipBalanced_runs {opening closing : TokenKind} (ho : opening ≠ .eof) :
    (skipBalanced opening closing).Runs T s fun _ u =>
      s.current.kind = opening → u.remaining < s.remaining := by
  rw [skipBalanced]
  refine currentSpan_runs fun hstart => ?_
  rw [runs_isAt]
  split
  · rename_i hat
    refine noteGroup_runs.bind fun _ u _ hu => advance_runs.bind fun _ v _ hlt => ?_
    rw [current_eq hu, remaining_eq hu, of_decide_eq_true hat] at hlt
    rw [runs_state]
    refine (skipGroup_runs hstart _ _ v (Nat.le_succ _)).mono fun _ w hw _ _ => ?_
    exact Nat.lt_of_le_of_lt hw.remaining_le (hlt ho)
  · rename_i hat
    exact expected_runs.mono fun _ _ _ _ h => absurd (decide_eq_true h) hat

theorem skipParens_runs : skipParens.Runs T s fun _ u =>
    s.current.kind = .leftParen → u.remaining < s.remaining := skipBalanced_runs (by decide)

theorem skipBraces_runs : skipBraces.Runs T s fun _ u =>
    s.current.kind = .leftBrace → u.remaining < s.remaining := skipBalanced_runs (by decide)

theorem pathSegments_runs (fuel : Nat) (s : ParserState) (hf : s.remaining ≤ fuel) :
    (pathSegments fuel).Runs T s fun _ _ => True := by
  induction fuel generalizing s with
  | zero => exact .cutOff hf
  | succ fuel ih =>
    rw [pathSegments, runs_kind, runs_peek]
    split
    · rename_i h
      have hdot : s.current.kind = .dot := of_decide_eq_true (Bool.and_eq_true_iff.1 h).1
      refine advance_runs.bind fun _ u _ hlt => identifier_runs.after fun _ v hv => ?_
      have := hlt (by rw [hdot]; decide)
      have := hv.remaining_le
      exact (ih v (by omega)).after fun _ _ _ => .pure trivial
    · exact .pure trivial

theorem path_runs : path.Runs T s fun p u => T.Holds p.span ∧
    (s.current.kind = .identifier → u.remaining < s.remaining) := by
  rw [path]
  refine currentSpan_runs fun hstart => identifier_runs.bind fun n u _ hlt => ?_
  rw [runs_state]
  refine (pathSegments_runs _ u (Nat.le_refl _)).after fun ns v hv => ?_
  refine (spanFrom_runs hstart).bind fun place w hw hplace => .pure ⟨hplace, fun h => ?_⟩
  have := (hv.trans hw).remaining_le
  have := hlt h
  omega

theorem skipArguments_runs : skipArguments.Runs T s fun _ _ => True := by
  rw [skipArguments, runs_isAt]
  split
  · exact skipParens_runs.mono fun _ _ _ _ => trivial
  · exact .pure trivial

theorem skipAnnotation_runs : skipAnnotation.Runs T s fun _ u =>
    s.current.kind = .atSign → u.remaining < s.remaining := by
  unfold skipAnnotation
  refine (expect_runs (by decide)).bind fun _ u _ hlt => path_runs.after fun _ v hv => ?_
  refine skipArguments_runs.mono fun _ w hw _ h => ?_
  have := (hv.trans hw).remaining_le
  have := hlt h
  omega

theorem skipAnnotationsUpTo_runs (fuel : Nat) (s : ParserState) (hf : s.remaining ≤ fuel) :
    (skipAnnotationsUpTo fuel).Runs T s fun _ _ => True := by
  induction fuel generalizing s with
  | zero => exact .cutOff hf
  | succ fuel ih =>
    rw [skipAnnotationsUpTo, runs_isAtAnnotation]
    split
    · rename_i h
      have hat : s.current.kind = .atSign := of_decide_eq_true (Bool.and_eq_true_iff.1 h).1
      refine skipAnnotation_runs.bind fun _ u _ hlt => ih u ?_
      have := hlt hat
      omega
    · exact .pure trivial

theorem skipAnnotations_runs : skipAnnotations.Runs T s fun _ _ => True := by
  rw [skipAnnotations, runs_state]
  exact skipAnnotationsUpTo_runs _ s (Nat.le_refl _)

/-! ### Types -/

theorem arrayOf_runs {start : Span} (hstart : T.Holds start) (fuel : Nat) {r : TypeRef}
    (s : ParserState) (hf : s.remaining ≤ fuel) (hr : r.Placed T) :
    (arrayOf start fuel r).Runs T s fun r _ => r.Placed T := by
  induction fuel generalizing r s with
  | zero => exact .cutOff hf
  | succ fuel ih =>
    rw [arrayOf, runs_isAtDimension]
    split
    · rename_i h
      have hopen : s.current.kind = .leftBracket := of_decide_eq_true (Bool.and_eq_true_iff.1 h).1
      refine advance_runs.bind fun _ u _ hlt => advance_runs.after fun _ v hv => ?_
      refine (spanFrom_runs hstart).bind fun place w hw hplace => ih w ?_ (.array hplace hr)
      have := hlt (by rw [hopen]; decide)
      have := (hv.trans hw).remaining_le
      omega
    · exact .pure hr

mutual

theorem typeWithin_runs {fuel : Nat} {s : ParserState} (hf : 5 * s.remaining + 1 ≤ fuel) :
    (typeWithin fuel).Runs T s fun r _ => r.Placed T := by
  match fuel, hf with
  | fuel + 1, hf =>
    rw [typeWithin]
    refine skipAnnotations_runs.after fun _ u hu => currentSpan_runs fun hstart => ?_
    have hle := hu.remaining_le
    rw [runs_kind]
    split
    · rename_i hk
      refine (classSegments_runs (.inr ⟨hk, by omega⟩)).bind fun segs v _ hsegs => ?_
      rw [runs_state]
      refine (spanFrom_runs hstart).bind fun place w hw hplace => ?_
      exact arrayOf_runs hstart _ w hw.remaining_le (.classType hplace hsegs)
    · split
      · refine advance_runs.after fun _ v _ => ?_
        rw [runs_state]
        exact arrayOf_runs hstart _ v (Nat.le_refl _) (.void hstart)
      · split
        · refine advance_runs.after fun _ v _ => ?_
          rw [runs_state]
          exact arrayOf_runs hstart _ v (Nat.le_refl _) (.primitive hstart)
        · exact expected_runs.after fun _ _ _ => .pure (.error hstart)

theorem classSegments_runs {fuel : Nat} {s : ParserState}
    (hf : 5 * s.remaining + 4 ≤ fuel ∨
      s.current.kind = .identifier ∧ 5 * s.remaining ≤ fuel + 1) :
    (classSegments fuel).Runs T s fun segs _ => ∀ seg ∈ segs, ∀ a ∈ seg.args, a.Placed T := by
  refine .sane fun hsane => ?_
  have hpos := hsane.remaining_pos
  match fuel, (show 4 ≤ fuel by omega) with
  | fuel + 1, _ =>
    rw [classSegments]
    refine identifier_runs.bind fun name u hu hlt => ?_
    have hle := hu.remaining_le
    -- The name is a token, so fewer steps are enough behind it.
    have hu5 : 5 * u.remaining + 3 ≤ fuel := by
      rcases hf with hf | ⟨hk, hf⟩
      · omega
      · have := hlt hk
        omega
    rw [runs_isAt]
    refine Runs.join (P := fun args _ => ∀ a ∈ args, a.Placed T) ?_ fun args v hv hargs => ?_
    · split
      · rename_i hk
        exact typeArgs_runs (of_decide_eq_true hk) hu5
      · exact .pure (List.forall_mem_nil _)
    · rw [runs_peek, runs_isAt]
      split
      · rename_i hdot
        have hd : v.current.kind ≠ .eof := by
          rw [of_decide_eq_true (Bool.and_eq_true_iff.1 hdot).1]
          decide
        refine advance_runs.bind fun _ w hw hlt => skipAnnotations_runs.after fun _ x hx => ?_
        have hr : 5 * x.remaining + 4 ≤ fuel := by
          have := hlt hd
          have := hv.remaining_le
          have := hx.remaining_le
          omega
        refine (classSegments_runs (.inl hr)).bind fun rest _ _ hrest => .pure ?_
        exact List.forall_mem_cons.2 ⟨hargs, hrest⟩
      · exact .pure (List.forall_mem_singleton.2 hargs)

theorem typeArgs_runs {fuel : Nat} {s : ParserState} (hk : s.current.kind = .less)
    (hf : 5 * s.remaining + 3 ≤ fuel) :
    (typeArgs fuel).Runs T s fun args _ => ∀ a ∈ args, a.Placed T := by
  match fuel, hf with
  | fuel + 1, hf =>
    rw [typeArgs]
    refine (expect_runs (by decide)).bind fun _ u _ hlt => ?_
    have := hlt hk
    refine (eat_runs (by decide)).after fun eaten v hv => ?_
    have := hv.remaining_le
    split
    · exact .pure (List.forall_mem_nil _)
    · refine (typeArgList_runs (by omega)).bind fun args w _ hargs => ?_
      exact (expect_runs (by decide)).after fun _ _ _ => .pure hargs

theorem typeArgList_runs {fuel : Nat} {s : ParserState} (hf : 5 * s.remaining + 7 ≤ fuel) :
    (typeArgList fuel).Runs T s fun args _ => ∀ a ∈ args, a.Placed T := by
  match fuel, hf with
  | fuel + 1, hf =>
    rw [typeArgList]
    refine (typeArg_runs (by omega)).bind fun arg u hu harg => ?_
    refine (eat_runs (by decide)).bind fun eaten v _ heat => ?_
    have hle := hu.remaining_le
    split
    · rename_i he
      have := heat.1 he
      refine (typeArgList_runs (by omega)).bind fun rest _ _ hrest => .pure ?_
      exact List.forall_mem_cons.2 ⟨harg, hrest⟩
    · exact .pure (List.forall_mem_singleton.2 harg)

theorem typeArg_runs {fuel : Nat} {s : ParserState} (hf : 5 * s.remaining + 6 ≤ fuel) :
    (typeArg fuel).Runs T s fun arg _ => arg.Placed T := by
  match fuel, hf with
  | fuel + 1, hf =>
    rw [typeArg]
    refine skipAnnotations_runs.after fun _ u hu => currentSpan_runs fun hstart => ?_
    refine (eat_runs (by decide)).after fun asked v hv => ?_
    have hl := (hu.trans hv).remaining_le
    split
    · refine (eat_runs (by decide)).after fun more w hw => ?_
      have := hw.remaining_le
      split
      · refine (typeWithin_runs (by omega)).bind fun bound x _ hbound => ?_
        exact (spanFrom_runs hstart).bind fun _ _ _ hplace => .pure (.wildcardExtends hplace hbound)
      · refine (eat_runs (by decide)).after fun more' x hx => ?_
        have := hx.remaining_le
        split
        · refine (typeWithin_runs (by omega)).bind fun bound y _ hbound => ?_
          exact (spanFrom_runs hstart).bind fun _ _ _ hplace => .pure (.wildcardSuper hplace hbound)
        · exact (spanFrom_runs hstart).bind fun _ _ _ hplace => .pure (.wildcard hplace)
    · exact typeWithin_runs (by omega)

end

/-- **The parser of types** is not cut off, and all places in the type are in the file. -/
theorem type_runs : type.Runs T s fun r _ => r.Placed T := by
  rw [type, runs_steps]
  exact typeWithin_runs (by omega)

/-- The rest of a list after its first entry. A separator is consumed before another entry, so that
    less is left to read. -/
theorem more_runs {α : Type} {P : α → Prop} {separator : TokenKind} (hs : separator ≠ .eof)
    {entries : Parser (List α)} {first : α} (hfirst : P first)
    (h : ∀ u : ParserState, u.remaining < s.remaining →
      entries.Runs T u fun xs _ => ∀ x ∈ xs, P x) :
    (do if ← eat separator then return first :: (← entries) else return [first] :
      Parser (List α)).Runs T s fun xs _ => ∀ x ∈ xs, P x := by
  refine (eat_runs hs).bind fun more u _ heat => ?_
  split
  · rename_i hmore
    have hless := heat.1 hmore
    refine (h u (by omega)).bind fun rest _ _ hrest => .pure ?_
    exact List.forall_mem_cons.2 ⟨hfirst, hrest⟩
  · exact .pure (List.forall_mem_singleton.2 hfirst)

theorem typesBetween_runs {separator : TokenKind} (hs : separator ≠ .eof) (fuel : Nat)
    (s : ParserState) (hf : s.remaining ≤ fuel) :
    (typesBetween separator fuel).Runs T s fun types _ => ∀ r ∈ types, r.Placed T := by
  induction fuel generalizing s with
  | zero => exact .cutOff hf
  | succ fuel ih =>
    rw [typesBetween]
    refine type_runs.bind fun first u hu hfirst => more_runs hs hfirst fun v hless => ih v ?_
    have hle := hu.remaining_le
    omega

theorem typeList_runs : typeList.Runs T s fun types _ => ∀ r ∈ types, r.Placed T := by
  rw [typeList, runs_state]
  exact typesBetween_runs (by decide) _ s (Nat.le_refl _)

theorem boundList_runs : boundList.Runs T s fun types _ => ∀ r ∈ types, r.Placed T := by
  rw [boundList, runs_state]
  exact typesBetween_runs (by decide) _ s (Nat.le_refl _)

theorem typeParam_runs : typeParam.Runs T s fun p _ => p.Placed T := by
  rw [typeParam]
  refine skipAnnotations_runs.after fun _ u _ => currentSpan_runs fun hstart => ?_
  refine identifier_runs.after fun name v _ => (eat_runs (by decide)).after fun bounded w _ => ?_
  refine Runs.join (P := fun bounds _ => ∀ b ∈ bounds, b.Placed T) ?_ fun bounds x _ hbounds => ?_
  · split
    · exact boundList_runs
    · exact .pure (List.forall_mem_nil _)
  · exact (spanFrom_runs hstart).bind fun _ _ _ hplace => .pure ⟨hbounds, hplace⟩

theorem typeParamList_runs (fuel : Nat) (s : ParserState) (hf : s.remaining ≤ fuel) :
    (typeParamList fuel).Runs T s fun params _ => ∀ p ∈ params, p.Placed T := by
  induction fuel generalizing s with
  | zero => exact .cutOff hf
  | succ fuel ih =>
    rw [typeParamList]
    refine typeParam_runs.bind fun first u hu hfirst =>
      more_runs (by decide) hfirst fun v hless => ih v ?_
    have hle := hu.remaining_le
    omega

theorem typeParams_runs : typeParams.Runs T s fun params _ => ∀ p ∈ params, p.Placed T := by
  rw [typeParams]
  refine (expect_runs (by decide)).after fun _ u _ => ?_
  rw [runs_state]
  refine (typeParamList_runs _ u (Nat.le_succ _)).bind fun params v _ hparams => ?_
  exact (expect_runs (by decide)).after fun _ _ _ => .pure hparams

theorem optionalTypeParams_runs :
    optionalTypeParams.Runs T s fun params _ => ∀ p ∈ params, p.Placed T := by
  rw [optionalTypeParams, runs_isAt]
  split
  · exact typeParams_runs
  · exact .pure (List.forall_mem_nil _)

end Parser

end JavaAbi
