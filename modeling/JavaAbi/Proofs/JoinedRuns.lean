import JavaAbi.Proofs.CarriedTrees
import JavaAbi.Proofs.NestedTypes
import JavaAbi.Proofs.PairedRuns

namespace JavaAbi

/-!
# A text as a part of a longer one

Where a parser reads a text alone and reads it again as a part of a longer text, the two runs take the
same steps, as long as tokens of the part are left: a parser looks past a token only if the token closes
no declaration, and the last token of the part closes one. What the second run finds is what the first
one finds, carried over.

* `PartTokens` — tokens that end where a declaration ends;
* `Joint`, `Abreast` — two states of such runs;
* `Parser.Along` — from such states two parsers lead to such states and related answers, if the first
  run reports nothing; one rule for each primitive step;
* `Parser.Costs` — a run that reports nothing consumes a token.

That neither run is cut off is assumed, so that the bounds of loops are not compared. Where a part may
end with what a parser reads, the parser looks at no further token; `Along` says how many tokens the
first run has left at least.
-/

/-! ### Two states -/

/-- A token that closes a declaration. -/
def Token.Closes (t : Token) : Prop := t.kind = .semicolon ∨ t.kind = .rightBrace

/-- Tokens that end where a declaration ends. Only an identifier is the word `sealed`. -/
structure PartTokens (ts : List Token) : Prop where
  goesOn : ∀ t ∈ ts, t.kind ≠ .eof
  closed : ∀ t ∈ ts.getLast?, t.Closes
  marks : ∀ t ∈ ts, t.text = "sealed" → t.kind = .identifier

theorem PartTokens.tail {t : Token} {ts : List Token} (h : PartTokens (t :: ts)) : PartTokens ts where
  goesOn u hu := h.goesOn u (List.mem_cons_of_mem t hu)
  closed u hu := by
    refine h.closed u ?_
    cases ts with
    | nil => cases hu
    | cons v ts => rwa [List.getLast?_cons_cons]
  marks u hu := h.marks u (List.mem_cons_of_mem t hu)

/-- A part of a text: the names of a run over it and of a run over the whole text, the number of bytes
    before it, the tokens after it, and what may stand for a text that the whole run did not find. -/
structure Joint where
  names : NameTable
  names' : NameTable
  offset : Nat
  rest : List Token
  other : Name

/-- What a run over a part finds, as a run over the whole text finds it. -/
def Joint.carrier (J : Joint) : Carrier := .between J.names J.names' J.offset J.other

/-- Two states with the same tokens of a part ahead; the second run has reported nothing. If `begun`,
    the first one has consumed a token. -/
structure Abreast (J : Joint) (begun : Prop) (s s' : ParserState) : Prop where
  ahead : ∃ ts stop, PartTokens ts ∧ stop.kind = .eof ∧ s.tokens = ts ++ [stop] ∧
    s'.tokens = ts.map (Token.shift J.offset) ++ J.rest
  last : ∀ p ∈ s.last, s'.last = some (p.shift J.offset)
  clean : s'.Clean
  begun : begun → s.last.isSome

theorem ParserState.advance_cons {s : ParserState} {t : Token} {rest : List Token}
    (h : s.tokens = t :: rest) (ht : t.kind ≠ .eof) :
    s.advance.tokens = rest ∧ s.advance.last = some t.span := by
  unfold advance
  split
  · rename_i hnil
    cases hnil.symm.trans h
  · rename_i u rest' hcons
    cases hcons.symm.trans h
    rw [if_neg ht]
    exact ⟨rfl, rfl⟩

namespace Abreast

variable {J : Joint} {b c : Prop} {s s' u u' : ParserState}

theorem weaken (h : Abreast J b s s') (hc : c → b) : Abreast J c s s' :=
  { h with begun := fun hbegun => h.begun (hc hbegun) }

/-- Of two states that differ in what was found or noted only. -/
theorem of_eq (h : Abreast J b s s') (ht : u.tokens = s.tokens) (hl : u.last = s.last)
    (ht' : u'.tokens = s'.tokens) (hl' : u'.last = s'.last) (hclean : u'.Clean) :
    Abreast J b u u' where
  ahead := by rw [ht, ht']; exact h.ahead
  last := by rw [hl, hl']; exact h.last
  clean := hclean
  begun := by rw [hl]; exact h.begun

/-- Either the part is at its end, or a token of it is at hand. -/
theorem at_end_or (h : Abreast J b s s') :
    (s.current.kind = .eof ∧ s.remaining = 1 ∧ s'.tokens = J.rest) ∨
      ∃ t ts stop, PartTokens (t :: ts) ∧ stop.kind = .eof ∧ s.tokens = t :: (ts ++ [stop]) ∧
        s'.tokens = t.shift J.offset :: (ts.map (Token.shift J.offset) ++ J.rest) := by
  obtain ⟨ts, stop, hpart, hstop, ht, ht'⟩ := h.ahead
  cases ts with
  | nil =>
    refine .inl ⟨?_, ?_, ht'⟩
    · rw [ParserState.current, ht]
      exact hstop
    · rw [ParserState.remaining, ht]
      rfl
  | cons t ts => exact .inr ⟨t, ts, stop, hpart, hstop, ht, ht'⟩

theorem remaining_of_kind (h : Abreast J b s s') (hk : s.current.kind ≠ .eof) : 1 < s.remaining := by
  rcases h.at_end_or with ⟨heof, -⟩ | ⟨t, ts, stop, -, -, ht, -⟩
  · exact absurd heof hk
  · rw [ParserState.remaining, ht, List.length_cons, List.length_append, List.length_singleton]
    omega

/-- The tokens of the part that are left, and those after it. -/
theorem remaining_eq (h : Abreast J b s s') :
    s'.remaining + 1 = s.remaining + J.rest.length := by
  obtain ⟨ts, stop, -, -, ht, ht'⟩ := h.ahead
  rw [ParserState.remaining, ParserState.remaining, ht, ht']
  simp only [List.length_append, List.length_map, List.length_singleton]
  omega

/-- Of two runs that lead on, either both have consumed a token or neither has. -/
theorem stayed (h : Abreast J b s s') (hu : Abreast J c u u') :
    u'.remaining = s'.remaining ↔ u.remaining = s.remaining := by
  have hs := h.remaining_eq
  have hu := hu.remaining_eq
  omega

/-! ### Looking ahead -/

/-- **No token is seen past one that closes a declaration**, so what is seen is of the part. -/
theorem look (h : Abreast J b s s') (hr : 1 < s.remaining) {n : Nat}
    (hn : ∀ i < n, ∀ t, s.tokens[i]? = some t → ¬t.Closes) :
    ∃ t, s.tokens[n]? = some t ∧ s'.tokens[n]? = some (t.shift J.offset) ∧ t.kind ≠ .eof ∧
      (t.text = "sealed" → t.kind = .identifier) := by
  obtain ⟨ts, stop, hpart, -, ht, ht'⟩ := h.ahead
  -- otherwise the last token of the part, which closes a declaration, would be among those looked past
  have hlen : n < ts.length := by
    refine Nat.not_le.1 fun hle => ?_
    have hpos : 0 < ts.length := by
      rw [ParserState.remaining, ht, List.length_append, List.length_singleton] at hr
      omega
    have hlt : ts.length - 1 < ts.length := Nat.sub_lt hpos Nat.one_pos
    have hlast : ts[ts.length - 1]? = ts.getLast? := List.getLast?_eq_getElem?.symm
    rw [List.getElem?_eq_getElem hlt] at hlast
    refine hn (ts.length - 1) (by omega) ts[ts.length - 1] ?_ (hpart.closed _ hlast.symm)
    rw [ht, List.getElem?_append_left hlt, List.getElem?_eq_getElem hlt]
  have hmem : ts[n] ∈ ts := List.getElem_mem hlen
  refine ⟨ts[n], ?_, ?_, hpart.goesOn _ hmem, hpart.marks _ hmem⟩
  · rw [ht, List.getElem?_append_left hlen, List.getElem?_eq_getElem hlen]
  · rw [ht', List.getElem?_append_left (by rwa [List.length_map]), List.getElem?_map,
      List.getElem?_eq_getElem hlen, Option.map_some]

/-- The token at hand. -/
theorem current (h : Abreast J b s s') (hr : 1 < s.remaining) :
    s'.current = s.current.shift J.offset ∧ s.current.kind ≠ .eof := by
  rcases h.at_end_or with ⟨-, hone, -⟩ | ⟨t, ts, stop, hpart, -, ht, ht'⟩
  · omega
  · rw [ParserState.current, ParserState.current, ht, ht']
    exact ⟨rfl, hpart.goesOn t List.mem_cons_self⟩

theorem kind (h : Abreast J b s s') (hr : 1 < s.remaining) : s'.current.kind = s.current.kind := by
  rw [(h.current hr).1]
  rfl

theorem text (h : Abreast J b s s') (hr : 1 < s.remaining) : s'.current.text = s.current.text := by
  rw [(h.current hr).1]
  rfl

theorem place (h : Abreast J b s s') (hr : 1 < s.remaining) :
    s'.current.span = s.current.span.shift J.offset := by
  rw [(h.current hr).1]
  rfl

/-- Whether a token ahead closes a declaration is seen from its kind. -/
theorem not_closes {t : Token} {i : Nat} (ht : s.tokens[i]? = some t)
    (hk : s.peek i ≠ .semicolon ∧ s.peek i ≠ .rightBrace) : ¬t.Closes := by
  rw [ParserState.peek, ht] at hk
  exact fun hcloses => hcloses.elim hk.1 hk.2

theorem peek_zero (s : ParserState) : s.peek 0 = s.current.kind := by
  rw [ParserState.peek, ParserState.current]
  cases s.tokens <;> rfl

/-- A token ahead. -/
theorem peek (h : Abreast J b s s') (hr : 1 < s.remaining) {n : Nat}
    (hn : ∀ i < n, s.peek i ≠ .semicolon ∧ s.peek i ≠ .rightBrace) :
    s'.peek n = s.peek n ∧ s'.peekText n = s.peekText n ∧
      (s.peekText n = "sealed" → s.peek n = .identifier) := by
  obtain ⟨t, ht, ht', -, hmark⟩ := h.look hr fun i hi t ht => not_closes ht (hn i hi)
  simp only [ParserState.peek, ParserState.peekText, ht, ht', Option.map_some, Option.getD_some]
  exact ⟨rfl, rfl, hmark⟩

/-- The token after one that closes no declaration. -/
theorem peek_one (h : Abreast J b s s') (hr : 1 < s.remaining)
    (hk : s.current.kind ≠ .semicolon ∧ s.current.kind ≠ .rightBrace) :
    s'.peek 1 = s.peek 1 ∧ s'.peekText 1 = s.peekText 1 := by
  obtain ⟨hpeek, htext, -⟩ := h.peek hr (n := 1) fun i hi => by
    obtain rfl : i = 0 := by omega
    rwa [peek_zero]
  exact ⟨hpeek, htext⟩

/-- The token after one of a kind that closes no declaration, where the token at hand has this kind. -/
theorem and_peek (h : Abreast J b s s') (hr : 1 < s.remaining) {k : TokenKind}
    (hk : k ≠ .semicolon ∧ k ≠ .rightBrace) (p : TokenKind → Bool) :
    (decide (s'.current.kind = k) && p (s'.peek 1)) = (decide (s.current.kind = k) && p (s.peek 1)) := by
  rw [h.kind hr]
  by_cases hcurrent : s.current.kind = k
  · rw [(h.peek_one hr (hcurrent ▸ hk)).1]
  · rw [decide_eq_false hcurrent, Bool.false_and, Bool.false_and]

/-- The second token after two that close no declaration. -/
theorem peek_two (h : Abreast J b s s') (hr : 1 < s.remaining)
    (hk : s.current.kind ≠ .semicolon ∧ s.current.kind ≠ .rightBrace)
    (h1 : s.peek 1 ≠ .semicolon ∧ s.peek 1 ≠ .rightBrace) :
    s'.peek 2 = s.peek 2 ∧ s'.peekText 2 = s.peekText 2 ∧
      (s.peekText 2 = "sealed" → s'.peek 3 = s.peek 3) := by
  have htwo : ∀ i < 2, s.peek i ≠ .semicolon ∧ s.peek i ≠ .rightBrace := by
    intro i hi
    obtain rfl | rfl : i = 0 ∨ i = 1 := by omega
    · rwa [peek_zero]
    · exact h1
  obtain ⟨hpeek, htext, hmark⟩ := h.peek hr htwo
  refine ⟨hpeek, htext, fun hsealed => (h.peek hr fun i hi => ?_).1⟩
  by_cases hi' : i < 2
  · exact htwo i hi'
  · obtain rfl : i = 2 := by omega
    rw [hmark hsealed]
    decide

/-! ### Stepping on -/

theorem advance (h : Abreast J b s s') (hk : s.current.kind ≠ .eof) :
    Abreast J True s.advance s'.advance := by
  rcases h.at_end_or with ⟨heof, -⟩ | ⟨t, ts, stop, hpart, hstop, ht, ht'⟩
  · exact absurd heof hk
  · have hkind : t.kind ≠ .eof := hpart.goesOn t List.mem_cons_self
    obtain ⟨htokens, hlast⟩ := ParserState.advance_cons ht hkind
    obtain ⟨htokens', hlast'⟩ := ParserState.advance_cons ht' hkind
    refine ⟨⟨ts, stop, hpart.tail, hstop, htokens, htokens'⟩, fun p hp => ?_, ?_, fun _ => ?_⟩
    · obtain rfl := Option.some.inj (hlast.symm.trans hp)
      exact hlast'
    · exact (ParserState.errors_advance s').trans h.clean
    · rw [hlast]
      rfl

/-- From a place on to the end of the token consumed last. -/
theorem span_from (h : Abreast J True s s') (start : Span) :
    (start.shift J.offset).cover (s'.last.getD s'.current.span) =
      (start.cover (s.last.getD s.current.span)).shift J.offset := by
  obtain ⟨p, hp⟩ := Option.isSome_iff_exists.1 (h.begun trivial)
  rw [h.last p hp, hp, Option.getD_some, Option.getD_some, Span.shift_cover]

end Abreast

namespace ParserState

/-- A state of a run that was not cut off; its names are those of a table. -/
structure Whole (t : NameTable) (s : ParserState) : Prop where
  whole : s.cutOff = false
  names : s.names.Le t

variable {t : NameTable} {s u : ParserState}

theorem Whole.of_leads (hu : u.Whole t) (h : s.Leads u) : s.Whole t where
  whole := by
    cases hs : s.cutOff with
    | false => rfl
    | true => exact absurd (h.cutOff hs) (by rw [hu.whole]; decide)
  names := h.names.trans hu.names

end ParserState

namespace Parser

variable {J : Joint} {k : Nat} {α β : Type} {p p' q q' : Parser α} {f f' : α → Parser β}
  {b c : Prop} {s s' : ParserState} {R : α → α → Prop} {Q : β → β → Prop}

/-! ### The judgement -/

/-- **What two parsers make of two states**: unless the first run reports something, or has no more than
    `k` tokens left, they lead to such states and to related answers. -/
def Along (J : Joint) (k : Nat) (begun : Prop) (p p' : Parser α) (s s' : ParserState)
    (R : α → α → Prop) : Prop :=
  (p.run s).2.Settled J.names → (p'.run s').2.Whole J.names' → k < (p.run s).2.remaining →
    Abreast J begun (p.run s).2 (p'.run s').2 ∧ R (p.run s).1 (p'.run s').1

theorem Along.pure {a a' : α} (h : Abreast J b s s') (ha : R a a') :
    Along J k b (Pure.pure a) (Pure.pure a') s s' R := fun _ _ _ => ⟨h, ha⟩

theorem Along.mono {R' : α → α → Prop} (h : Along J k b p p' s s' R) (hb : c → b)
    (hm : ∀ a a', R a a' → R' a a') : Along J k c p p' s s' R' := fun hu hw hk =>
  (h hu hw hk).imp (·.weaken hb) (hm _ _)

/-- With fewer tokens left, more is said. -/
theorem Along.more (h : Along J 0 b p p' s s' R) : Along J k b p p' s s' R := fun hu hw hk =>
  h hu hw (Nat.lt_of_le_of_lt (Nat.zero_le k) hk)

/-- A token of the part is at hand, where one is left in the end. -/
theorem Along.ongoing (h : 1 < s.remaining → Along J 1 b p p' s s' R) :
    Along J 1 b p p' s s' R := fun hu hw hk =>
  h (Nat.lt_of_lt_of_le hk (p.leads s).remaining_le) hu hw hk

/-- Parsers after others of which more is known. -/
theorem Along.bind_gives {P : α → ParserState → Prop} (h : Along J k b p p' s s' R)
    (hg : p.Gives s P) (hf : ∀ a a' u u', Abreast J b u u' → R a a' → P a u →
      Along J k c (f a) (f' a') u u' Q) : Along J k c (p >>= f) (p' >>= f') s s' Q := by
  intro hu hw hk
  have hl := (f (p.run s).1).leads (p.run s).2
  obtain ⟨habreast, hr⟩ := h (hu.of_leads hl) (hw.of_leads ((f' _).leads _))
    (Nat.lt_of_lt_of_le hk hl.remaining_le)
  exact hf _ _ _ _ habreast hr hg hu hw hk

theorem Along.bind (h : Along J k b p p' s s' R)
    (hf : ∀ a a' u u', Abreast J b u u' → R a a' → Along J k c (f a) (f' a') u u' Q) :
    Along J k c (p >>= f) (p' >>= f') s s' Q :=
  h.bind_gives (Gives.leads p s) fun a a' u u' hu hr _ => hf a a' u u' hu hr

/-- Parsers after others whose answers are the same. -/
theorem Along.bind_eq (h : Along J k b p p' s s' (· = ·))
    (hf : ∀ a u u', Abreast J b u u' → Along J k c (f a) (f' a) u u' Q) :
    Along J k c (p >>= f) (p' >>= f') s s' Q := h.bind fun a _ u u' hu ha => ha ▸ hf a u u' hu

/-- Parsers after others of which only the states matter. -/
theorem Along.after (h : Along J k b p p' s s' fun _ _ => True)
    (hf : ∀ a a' u u', Abreast J b u u' → Along J k c (f a) (f' a') u u' Q) :
    Along J k c (p >>= f) (p' >>= f') s s' Q := h.bind fun a a' u u' hu _ => hf a a' u u' hu

theorem Along.ite {d : Prop} [Decidable d] (hp : d → Along J k b p p' s s' R)
    (hq : ¬ d → Along J k b q q' s s' R) :
    Along J k b (if d then p else q) (if d then p' else q') s s' R := by
  by_cases hd : d
  · rw [if_pos hd, if_pos hd]
    exact hp hd
  · rw [if_neg hd, if_neg hd]
    exact hq hd

/-- Two branches that go on in the same way. -/
theorem Along.join {d : Prop} [Decidable d]
    (h : Along J k b (if d then p else q) (if d then p' else q') s s' R)
    (hf : ∀ a a' u u', Abreast J b u u' → R a a' → Along J k c (f a) (f' a') u u' Q) :
    Along J k c (if d then p >>= f else q >>= f) (if d then p' >>= f' else q' >>= f') s s' Q := by
  by_cases hd : d
  · rw [if_pos hd, if_pos hd] at h ⊢
    exact h.bind hf
  · rw [if_neg hd, if_neg hd] at h ⊢
    exact h.bind hf

/-- Loops with bounds: neither is cut off. -/
theorem Along.bounded {l g : Nat → Parser α} {n n' : Nat} (h0 : ((l 0).run s).2.cutOff = true)
    (h0' : ((g 0).run s').2.cutOff = true)
    (hs : ∀ m m', n = m + 1 → n' = m' + 1 → Along J k b (l (m + 1)) (g (m' + 1)) s s' R) :
    Along J k b (l n) (g n') s s' R := by
  intro hu hw hk
  cases n with
  | zero => cases h0.symm.trans hu.whole
  | succ m =>
    cases n' with
    | zero => cases h0'.symm.trans hw.whole
    | succ m' => exact hs m m' rfl rfl hu hw hk

/-- A run that reports something. -/
theorem Along.of_reports (h : (p.run s).2.errors ≠ #[]) : Along J k b p p' s s' R := fun hu =>
  absurd hu.clean h

theorem Along.of_errors (h : s.errors ≠ #[]) : Along J k b p p' s s' R :=
  .of_reports (errors_ne_of_leads (p.leads s) h)

theorem Along.after_report {p : Parser β} {f : β → Parser α} (h : (p.run s).2.errors ≠ #[]) :
    Along J k b (p >>= f) p' s s' R := fun hu =>
  absurd (hu.of_leads ((f _).leads _)).clean h

/-! ### Tokens that are consumed -/

/-- A run that reports nothing consumes a token. -/
def Costs (t : NameTable) (p : Parser α) (s : ParserState) : Prop :=
  (p.run s).2.Settled t → (p.run s).2.remaining < s.remaining

variable {t : NameTable}

theorem Costs.bind (h : p.Costs t s) : (p >>= f).Costs t s := fun hu =>
  have hl := (f (p.run s).1).leads (p.run s).2
  Nat.lt_of_le_of_lt hl.remaining_le (h (hu.of_leads hl))

theorem Costs.after (h : ∀ a u, (f a).Costs t u) : (p >>= f).Costs t s := fun hu =>
  Nat.lt_of_lt_of_le (h _ _ hu) (p.leads s).remaining_le

theorem Costs.ite {d : Prop} [Decidable d] (hp : p.Costs t s) (hq : q.Costs t s) :
    (if d then p else q).Costs t s := by
  split
  · exact hp
  · exact hq

theorem run_expect (kind : TokenKind) (s : ParserState) : (expect kind).run s =
    if s.current.kind = kind then ((), s.advance) else (expected kind.label).run s := by
  show (if ((eat kind).run s).1 = true then Pure.pure () else expected kind.label
    : Parser Unit).run ((eat kind).run s).2 = _
  rw [run_eat]
  split <;> rfl

theorem expect_costs {kind : TokenKind} (hk : kind ≠ .eof) : (expect kind).Costs t s := by
  intro hu
  by_cases h : s.current.kind = kind
  · exact expect_gives hk h
  · refine absurd hu.clean ?_
    rw [run_expect, if_neg h]
    exact expected_gives

/-- Where what follows consumes a token, the part does not end before it. -/
theorem Along.bindTo (h : Along J 1 b p p' s s' R) (hcost : ∀ a u, (f a).Costs J.names u)
    (hf : ∀ a a' u u', Abreast J b u u' → R a a' → Along J 0 c (f a) (f' a') u u' Q) :
    Along J 0 c (p >>= f) (p' >>= f') s s' Q := by
  intro hu hw hk
  have hlt := hcost _ _ hu
  obtain ⟨habreast, hr⟩ := h (hu.of_leads ((f _).leads _)) (hw.of_leads ((f' _).leads _))
    (Nat.lt_of_le_of_lt hk hlt)
  exact hf _ _ _ _ habreast hr hu hw hk

/-! ### Primitive steps -/

theorem Along.kind {f f' : TokenKind → Parser β} (h : Abreast J b s s')
    (hf : ∀ x, s.current.kind = x → x ≠ .eof → Along J 1 c (f x) (f' x) s s' Q) :
    Along J 1 c (kind >>= f) (kind >>= f') s s' Q := by
  refine .ongoing fun hr => ?_
  have hright : (Parser.kind >>= f').run s' = (f' s'.current.kind).run s' := rfl
  rw [h.kind hr] at hright
  unfold Along
  rw [hright]
  exact hf _ rfl (h.current hr).2

/-- Whether the token at hand has a kind, where it is the same in both states. -/
theorem Along.isAt_of {x : TokenKind} {f f' : Bool → Parser β}
    (hx : s'.current.kind = x ↔ s.current.kind = x)
    (hf : ∀ y, (y = true ↔ s.current.kind = x) → Along J k c (f y) (f' y) s s' Q) :
    Along J k c (isAt x >>= f) (isAt x >>= f') s s' Q := by
  have hright : (Parser.isAt x >>= f').run s' = (f' (decide (s'.current.kind = x))).run s' := rfl
  rw [decide_eq_decide.2 hx] at hright
  unfold Along
  rw [hright]
  exact hf _ decide_eq_true_iff

theorem Along.isAt {x : TokenKind} {f f' : Bool → Parser β} (h : Abreast J b s s')
    (hf : ∀ y, (y = true ↔ s.current.kind = x) → Along J 1 c (f y) (f' y) s s' Q) :
    Along J 1 c (isAt x >>= f) (isAt x >>= f') s s' Q :=
  .ongoing fun hr => .isAt_of (by rw [h.kind hr]) hf

theorem Along.isAtWord {word : String} {f f' : Bool → Parser β} (h : Abreast J b s s')
    (hf : ∀ y, Along J 1 c (f y) (f' y) s s' Q) :
    Along J 1 c (isAtWord word >>= f) (isAtWord word >>= f') s s' Q := by
  refine .ongoing fun hr => ?_
  have hright : (Parser.isAtWord word >>= f').run s' = (f' (decide (s'.current.kind = .identifier) &&
      s'.current.text == word)).run s' := rfl
  rw [h.kind hr, h.text hr] at hright
  unfold Along
  rw [hright]
  exact hf _

theorem Along.state {f f' : ParserState → Parser β} (hf : Along J k c (f s) (f' s') s s' Q) :
    Along J k c (state >>= f) (state >>= f') s s' Q := hf

theorem Along.steps {f f' : Nat → Parser β}
    (hf : Along J k c (f (5 * s.remaining + 5)) (f' (5 * s'.remaining + 5)) s s' Q) :
    Along J k c (steps >>= f) (steps >>= f') s s' Q := hf

theorem Along.place {f f' : Span → Parser β} (h : Abreast J b s s')
    (hf : Along J 1 c (f s.current.span) (f' (s.current.span.shift J.offset)) s s' Q) :
    Along J 1 c (currentSpan >>= f) (currentSpan >>= f') s s' Q := by
  refine .ongoing fun hr => ?_
  have hright : (Parser.currentSpan >>= f').run s' = (f' s'.current.span).run s' := rfl
  rw [h.place hr] at hright
  unfold Along
  rw [hright]
  exact hf

theorem Along.spanFrom {start : Span} {f f' : Span → Parser β} (h : Abreast J True s s')
    (hf : ∀ x, Along J k c (f x) (f' (x.shift J.offset)) s s' Q) :
    Along J k c (spanFrom start >>= f) (spanFrom (start.shift J.offset) >>= f') s s' Q := by
  have hright : (Parser.spanFrom (start.shift J.offset) >>= f').run s' =
      (f' ((start.shift J.offset).cover (s'.last.getD s'.current.span))).run s' := rfl
  rw [h.span_from] at hright
  unfold Along
  rw [hright]
  exact hf _

theorem advance_along (h : Abreast J b s s') :
    Along J 1 True advance advance s s' fun _ _ => True :=
  .ongoing fun hr _ _ _ => ⟨h.advance (h.current hr).2, trivial⟩

/-- A token that may be consumed. -/
theorem Along.eat {x : TokenKind} (hx : x ≠ .eof) {f f' : Bool → Parser β} (h : Abreast J b s s')
    (hf : ∀ y u u', Abreast J (y = true ∨ b) u u' → Along J 1 c (f y) (f' y) u u' Q) :
    Along J 1 c (eat x >>= f) (eat x >>= f') s s' Q := by
  refine .ongoing fun hr => ?_
  have hleft : (Parser.eat x >>= f).run s =
      (f ((Parser.eat x).run s).1).run ((Parser.eat x).run s).2 := rfl
  have hright : (Parser.eat x >>= f').run s' =
      (f' ((Parser.eat x).run s').1).run ((Parser.eat x).run s').2 := rfl
  rw [run_eat] at hleft hright
  rw [h.kind hr] at hright
  unfold Along
  rw [hleft, hright]
  by_cases hk : s.current.kind = x
  · simp only [if_pos hk]
    exact hf true _ _ ((h.advance (hk ▸ hx)).weaken fun _ => trivial)
  · simp only [if_neg hk]
    exact hf false _ _ (h.weaken fun hy => hy.resolve_left Bool.false_ne_true)

/-- A token that is required. -/
theorem expect_along {x : TokenKind} (hx : x ≠ .eof) (h : Abreast J b s s') :
    Along J k True (expect x) (expect x) s s' fun _ _ => True := by
  by_cases hk : s.current.kind = x
  · have hr := h.remaining_of_kind (hk ▸ hx)
    unfold Along
    rw [run_expect, run_expect, if_pos hk, if_pos ((h.kind hr).trans hk)]
    exact fun _ _ _ => ⟨h.advance (hk ▸ hx), trivial⟩
  · refine .of_reports ?_
    rw [run_expect, if_neg hk]
    exact expected_gives

/-- A text that is interned. -/
theorem intern_along (text : String) (h : Abreast J b s s') :
    Along J k b (intern text) (intern text) s s' fun n n' => n' = J.carrier.name n := by
  intro hu hw _
  have hfound := hu.names _ _ (s.names.resolve?_intern text)
  have hfound' := hw.names _ _ (s'.names.resolve?_intern text)
  exact ⟨h.of_eq rfl rfl rfl rfl h.clean, (Carrier.name_between hfound hfound').symm⟩

/-- **An identifier** has the same name, carried over. -/
theorem identifier_along (h : Abreast J b s s') :
    Along J 1 True identifier identifier s s' fun n n' => n' = J.carrier.name n := by
  rw [identifier]
  refine .state (.ongoing fun hr => ?_)
  dsimp only
  rw [h.kind hr, h.text hr]
  refine .ite (fun _ => ?_) fun _ => .after_report expected_gives
  refine (intern_along _ h).bind fun n n' u u' hu hn => ?_
  exact (advance_along hu).after fun _ _ v v' hv => .pure hv hn

/-! ### Groups -/

theorem skipGroup_along {opening closing : TokenKind} {start start' : Span} (n n' depth : Nat)
    {s s' : ParserState} (h : Abreast J b s s') :
    Along J 1 b (skipGroup opening closing start n depth) (skipGroup opening closing start' n' depth)
      s s' fun _ _ => True := by
  refine .bounded (l := fun n => skipGroup opening closing start n depth)
    (g := fun n => skipGroup opening closing start' n depth) rfl rfl fun m m' hm hm' => ?_
  have hnext : ∀ depth, Along J 1 b (Parser.advance >>= fun _ => skipGroup opening closing start m depth)
      (Parser.advance >>= fun _ => skipGroup opening closing start' m' depth) s s'
      fun _ _ => True := fun depth => (advance_along h).after fun _ _ u u' hu =>
    skipGroup_along m m' depth (hu.weaken fun _ => trivial)
  unfold skipGroup
  refine .kind h fun x _ heof => .ite (fun hx => absurd hx heof) fun _ => ?_
  refine .ite (fun _ => hnext _) fun _ => .ite (fun _ => ?_) fun _ => hnext _
  cases depth with
  | zero => exact (advance_along h).after fun _ _ u u' hu => .pure (hu.weaken fun _ => trivial) trivial
  | succ depth => exact hnext depth
  termination_by n

theorem noteGroup_along (h : Abreast J b s s') :
    Along J k b noteGroup noteGroup s s' fun _ _ => True := fun _ _ _ =>
  ⟨h.of_eq rfl rfl rfl rfl h.clean, trivial⟩

/-- **A group** that is stepped over. -/
theorem skipBalanced_along {opening closing : TokenKind} (h : Abreast J b s s') :
    Along J 1 b (skipBalanced opening closing) (skipBalanced opening closing) s s'
      fun _ _ => True := by
  rw [skipBalanced]
  refine .place h (.isAt h fun y _ => .ite (fun _ => ?_) fun _ => .of_reports expected_gives)
  refine (noteGroup_along h).after fun _ _ u u' hu => (advance_along hu).after fun _ _ v v' hv => ?_
  exact .state (skipGroup_along _ _ 0 (hv.weaken fun _ => trivial))

theorem skipParens_along (h : Abreast J b s s') :
    Along J 1 b skipParens skipParens s s' fun _ _ => True := skipBalanced_along h

theorem skipBraces_along (h : Abreast J b s s') :
    Along J 1 b skipBraces skipBraces s s' fun _ _ => True := skipBalanced_along h

/-! ### Paths and annotations -/

theorem Along.annotated {f f' : Bool → Parser β} (h : Abreast J b s s')
    (hf : ∀ y, Along J 1 c (f y) (f' y) s s' Q) :
    Along J 1 c ( isAtAnnotation >>= f) ( isAtAnnotation >>= f') s s' Q := by
  refine .ongoing fun hr => ?_
  have hright : ( isAtAnnotation >>= f').run s' = (f' (decide (s'.current.kind = .atSign) &&
      decide (s'.peek 1 ≠ .kwInterface))).run s' := rfl
  rw [h.and_peek hr (by decide) fun x => decide (x ≠ .kwInterface)] at hright
  unfold Along
  rw [hright]
  exact hf _

theorem Along.isAtDimension {f f' : Bool → Parser β} (h : Abreast J b s s')
    (hf : ∀ y, Along J 1 c (f y) (f' y) s s' Q) :
    Along J 1 c (isAtDimension >>= f) (isAtDimension >>= f') s s' Q := by
  refine .ongoing fun hr => ?_
  have hright : (Parser.isAtDimension >>= f').run s' = (f' (decide (s'.current.kind = .leftBracket) &&
      decide (s'.peek 1 = .rightBracket))).run s' := rfl
  rw [h.and_peek hr (by decide) fun x => decide (x = .rightBracket)] at hright
  unfold Along
  rw [hright]
  exact hf _

/-- Whether the token at hand and the one after it have some kinds. -/
theorem Along.kindThen {x : TokenKind} (hx : x ≠ .semicolon ∧ x ≠ .rightBrace)
    (p : TokenKind → Bool) {f g : Bool → Parser β} (h : Abreast J b s s')
    (hf : ∀ y, Along J 1 c (f y) (g y) s s' Q) :
    Along J 1 c (Parser.kind >>= fun k => peek 1 >>= fun next => f (decide (k = x) && p next))
      (Parser.kind >>= fun k => peek 1 >>= fun next => g (decide (k = x) && p next)) s s' Q := by
  refine .ongoing fun hr => ?_
  have hright : (Parser.kind >>= fun k => peek 1 >>= fun next =>
      g (decide (k = x) && p next)).run s' =
        (g (decide (s'.current.kind = x) && p (s'.peek 1))).run s' := rfl
  rw [h.and_peek hr hx p] at hright
  unfold Along
  rw [hright]
  exact hf _

/-- The same, the token after being looked at first. -/
theorem Along.isAtThen {x : TokenKind} (hx : x ≠ .semicolon ∧ x ≠ .rightBrace)
    (p : TokenKind → Bool) {f g : Bool → Parser β} (h : Abreast J b s s')
    (hf : ∀ y, Along J 1 c (f y) (g y) s s' Q) :
    Along J 1 c (peek 1 >>= fun next => Parser.isAt x >>= fun y => f (y && p next))
      (peek 1 >>= fun next => Parser.isAt x >>= fun y => g (y && p next)) s s' Q :=
  Along.kindThen hx p h hf

theorem pathSegments_along (n n' : Nat) {s s' : ParserState} (h : Abreast J b s s') :
    Along J 1 b (pathSegments n) (pathSegments n') s s' fun ns ns' =>
      ns' = ns.map J.carrier.name := by
  refine .bounded rfl rfl fun m m' hm hm' => ?_
  rw [pathSegments, pathSegments]
  refine .kindThen (x := .dot) (by decide) (fun x => decide (x = .identifier))
    (f := fun y => if y then _ else _) (g := fun y => if y then _ else _) h
    fun y => .ite (fun _ => ?_) fun _ => .pure h rfl
  refine (advance_along h).after fun _ _ u u' hu => (identifier_along hu).bind fun n n' v v' hv hn => ?_
  refine (pathSegments_along m m' (hv.weaken fun _ => trivial)).bind fun ns ns' w w' hw hns => .pure hw ?_
  rw [hn, hns, List.map_cons]
  termination_by n

theorem path_along (h : Abreast J b s s') :
    Along J 1 True path path s s' fun p p' => p' = J.carrier.path p := by
  rw [path]
  refine .place h ((identifier_along h).bind fun n n' u u' hu hn => .state ?_)
  refine (pathSegments_along _ _ hu).bind fun ns ns' v v' hv hns => .spanFrom hv fun x => .pure hv ?_
  rw [hn, hns]
  rfl

theorem skipArguments_along (h : Abreast J b s s') :
    Along J 1 b skipArguments skipArguments s s' fun _ _ => True := by
  rw [skipArguments]
  exact .isAt h fun y _ => .ite (fun _ => skipParens_along h) fun _ => .pure h trivial

theorem skipAnnotation_along (h : Abreast J b s s') :
    Along J 1 True skipAnnotation skipAnnotation s s' fun _ _ => True := by
  rw [ skipAnnotation]
  refine (expect_along (by decide) h).after fun _ _ u u' hu => ?_
  exact (path_along hu).bind fun _ _ v v' hv _ => skipArguments_along hv

theorem skipAnnotationsUpTo_along (n n' : Nat) {s s' : ParserState} (h : Abreast J b s s') :
    Along J 1 b (skipAnnotationsUpTo n) (skipAnnotationsUpTo n') s s' fun _ _ => True := by
  refine .bounded rfl rfl fun m m' hm hm' => ?_
  rw [skipAnnotationsUpTo, skipAnnotationsUpTo]
  refine .annotated h fun y => .ite (fun _ => ?_) fun _ => .pure h trivial
  exact (skipAnnotation_along h).after fun _ _ u u' hu =>
    skipAnnotationsUpTo_along m m' (hu.weaken fun _ => trivial)
  termination_by n

theorem skipAnnotations_along (h : Abreast J b s s') :
    Along J 1 b skipAnnotations skipAnnotations s s' fun _ _ => True := by
  rw [skipAnnotations]
  exact .state (skipAnnotationsUpTo_along _ _ h)

end Parser

end JavaAbi
