import JavaAbi.Proofs.NameTables
import JavaAbi.Syntax.Parser.Types

namespace JavaAbi

/-!
# Written types as the parser makes them

Whatever the text, every name in a written type is a name of the table that is not empty, and every
class type has a segment. A type that stands for what could not be parsed comes with an error.

* `TypeRef.Sound` — what is so of every written type;
* `Parser.Gives` — what a parser answers, and the state that it leads to;
* `Parser.type_gives` — the parser of types gives sound types.

The bounds that the recursive parsers carry never run out: each token consumed pays for five calls.
-/

/-! ### Sound types -/

/-- The names of a written type are proper names of a table, and its class types have segments. -/
inductive TypeRef.Sound (t : NameTable) : TypeRef → Prop
  | primitive (p : PrimitiveType) (span : Span) : Sound t (.primitive p span)
  | void (span : Span) : Sound t (.void span)
  | classType (segments : List ClassSegment) (span : Span) (filled : segments ≠ [])
      (names : ∀ seg ∈ segments, t.Proper seg.name)
      (args : ∀ seg ∈ segments, ∀ a ∈ seg.args, Sound t a) : Sound t (.classType segments span)
  | array (component : TypeRef) (span : Span) (h : Sound t component) :
      Sound t (.array component span)
  | wildcard (span : Span) : Sound t (.wildcard span)
  | wildcardExtends (bound : TypeRef) (span : Span) (h : Sound t bound) :
      Sound t (.wildcardExtends bound span)
  | wildcardSuper (bound : TypeRef) (span : Span) (h : Sound t bound) :
      Sound t (.wildcardSuper bound span)
  | error (span : Span) : Sound t (.error span)

theorem TypeRef.Sound.le {t u : NameTable} {r : TypeRef} (h : r.Sound t) (hle : t.Le u) :
    r.Sound u := by
  induction h with
  | classType segments span filled names _ ih =>
    exact .classType segments span filled (fun seg hs => (names seg hs).le hle) ih
  | primitive p span => exact .primitive p span
  | void span => exact .void span
  | array component span _ ih => exact .array component span ih
  | wildcard span => exact .wildcard span
  | wildcardExtends bound span _ ih => exact .wildcardExtends bound span ih
  | wildcardSuper bound span _ ih => exact .wildcardSuper bound span ih
  | error span => exact .error span

/-- The segment of a class type is sound. -/
def ClassSegment.Sound (t : NameTable) (seg : ClassSegment) : Prop :=
  t.Proper seg.name ∧ ∀ a ∈ seg.args, a.Sound t

theorem ClassSegment.Sound.le {t u : NameTable} {seg : ClassSegment} (h : seg.Sound t)
    (hle : t.Le u) : seg.Sound u :=
  ⟨h.1.le hle, fun a ha => (h.2 a ha).le hle⟩

/-! ### Answers of parsers -/

theorem ParserState.names_advance (s : ParserState) : s.advance.names = s.names := by
  unfold ParserState.advance
  split
  · rfl
  · split <;> rfl

theorem ParserState.Leads.remaining_le {s u : ParserState} (h : s.Leads u) :
    u.remaining ≤ s.remaining := h.tokens.length_le

namespace Parser

variable {α β : Type} {s : ParserState} {p q : Parser α} {P : α → ParserState → Prop}
  {Q : β → ParserState → Prop}

/-- What holds of the answer of a parser and of the state that it leads to. -/
def Gives (p : Parser α) (s : ParserState) (post : α → ParserState → Prop) : Prop :=
  post (p.run s).1 (p.run s).2

theorem Gives.pure {a : α} (h : P a s) : (Pure.pure a : Parser α).Gives s P := h

theorem Gives.cutOff {a : α} (h : P a { s with cutOff := true }) :
    (Parser.cutOff a).Gives s P := h

theorem Gives.leads (p : Parser α) (s : ParserState) : p.Gives s fun _ u => s.Leads u := p.leads s

theorem Gives.mono {P' : α → ParserState → Prop} (h : p.Gives s P)
    (hm : ∀ a u, s.Leads u → P a u → P' a u) : p.Gives s P' := hm _ _ (p.leads s) h

/-- A parser after another: what holds of the first answer may be used for the second. -/
theorem Gives.bind {f : α → Parser β} (h : p.Gives s P)
    (hf : ∀ a u, s.Leads u → P a u → (f a).Gives u Q) : (p >>= f).Gives s Q :=
  hf _ _ (p.leads s) h

/-- A parser after one of which only its growth matters. -/
theorem Gives.after {f : α → Parser β} (hf : ∀ a u, s.Leads u → (f a).Gives u Q) :
    (p >>= f).Gives s Q :=
  hf _ _ (p.leads s)

/-- Two branches that go on in the same way. -/
theorem Gives.join {c : Prop} [Decidable c] {f : α → Parser β}
    (h : (if c then p else q).Gives s P)
    (hf : ∀ a u, s.Leads u → P a u → (f a).Gives u Q) :
    (if c then p >>= f else q >>= f).Gives s Q := by
  split <;> rename_i hc
  · rw [if_pos hc] at h
    exact h.bind hf
  · rw [if_neg hc] at h
    exact h.bind hf

/-! ### Primitive steps -/

theorem gives_kind {f : TokenKind → Parser β} :
    (kind >>= f).Gives s Q ↔ (f s.current.kind).Gives s Q := Iff.rfl

theorem gives_isAt {k : TokenKind} {f : Bool → Parser β} :
    (isAt k >>= f).Gives s Q ↔ (f (s.current.kind = k)).Gives s Q := Iff.rfl

theorem gives_state {f : ParserState → Parser β} :
    (state >>= f).Gives s Q ↔ (f s).Gives s Q := Iff.rfl

theorem gives_steps {f : Nat → Parser β} :
    (steps >>= f).Gives s Q ↔ (f (5 * s.remaining + 5)).Gives s Q := Iff.rfl

theorem remaining_pos (h : s.current.kind ≠ .eof) : 0 < s.remaining := by
  refine Nat.pos_of_ne_zero fun h0 => h ?_
  rw [ParserState.current, List.length_eq_zero_iff.1 h0]
  rfl

theorem remaining_advance (h : s.current.kind ≠ .eof) : s.advance.remaining < s.remaining := by
  unfold ParserState.advance
  split
  · rename_i hs
    exact absurd (by rw [ParserState.current, hs]; rfl) h
  · rename_i t rest hs
    have ht : t.kind ≠ .eof := by rwa [ParserState.current, hs] at h
    rw [if_neg ht]
    simp [ParserState.remaining, hs]

theorem advance_gives (h : s.current.kind ≠ .eof) :
    advance.Gives s fun _ u => u.remaining < s.remaining := remaining_advance h

theorem run_eat (k : TokenKind) (s : ParserState) :
    (eat k).run s = if s.current.kind = k then (true, s.advance) else (false, s) := by
  show (if decide (s.current.kind = k) = true then advance >>= fun _ => pure true
    else pure false : Parser Bool).run s = _
  by_cases h : s.current.kind = k
  · rw [if_pos h, if_pos (decide_eq_true h)]
    rfl
  · rw [if_neg h, if_neg (by simpa using h)]
    rfl

theorem eat_gives {k : TokenKind} (hk : k ≠ .eof) :
    (eat k).Gives s fun eaten u => eaten = true → u.remaining < s.remaining := by
  rw [Gives, run_eat]
  split
  · rename_i h
    exact fun _ => remaining_advance (h ▸ hk)
  · exact fun h => nomatch h

theorem expect_gives {k : TokenKind} (hk : k ≠ .eof) (h : s.current.kind = k) :
    (expect k).Gives s fun _ u => u.remaining < s.remaining := by
  rw [expect]
  refine Gives.bind (P := fun eaten u => eaten = true ∧ u.remaining < s.remaining) ?_ ?_
  · rw [Gives, run_eat, if_pos h]
    exact ⟨rfl, remaining_advance (h ▸ hk)⟩
  · rintro _ u - ⟨rfl, hu⟩
    exact hu

theorem error_gives {message : String} :
    (error message).Gives s fun _ u => u.errors ≠ #[] := by
  show s.errors.push _ ≠ #[]
  simp

theorem expected_gives {what : String} :
    (expected what).Gives s fun _ u => u.errors ≠ #[] := by
  show s.errors.push _ ≠ #[]
  simp

/-- An identifier is consumed and gives its name; where none stands, a placeholder is the name. -/
theorem identifier_gives :
    identifier.Gives s fun n u =>
      u.names.Proper n ∧ (s.current.kind = .identifier → u.remaining < s.remaining) := by
  rw [identifier, gives_state]
  dsimp only
  split
  · rename_i h
    have hw : s.current.text ≠ "" := by
      cases hs : s.tokens with
      | nil => rw [ParserState.current, hs] at h; cases h
      | cons t rest =>
        rw [ParserState.current, hs] at h ⊢
        exact s.words t (hs ▸ List.mem_cons_self) h
    refine Gives.bind (P := fun n u => u.names.Proper n ∧ u.remaining = s.remaining ∧
      u.current = s.current) ⟨s.names.proper_intern hw, rfl, rfl⟩ ?_
    rintro n u - ⟨hn, hr, hc⟩
    refine (advance_gives (by rw [hc, h]; decide)).bind fun _ v hv hlt => .pure ⟨?_, fun _ => ?_⟩
    · exact hn.le hv.names
    · exact hr ▸ hlt
  · rename_i h
    refine Gives.after fun _ u _ => ?_
    exact ⟨u.names.proper_intern (by decide), fun h' => absurd h' h⟩

/-! ### Types -/

/-- A written type as the parser gives it: sound, and an error only where one is reported. -/
def Typed (r : TypeRef) (u : ParserState) : Prop :=
  r.Sound u.names ∧ (r.isError = true → u.errors ≠ #[])

theorem errors_ne_of_leads {s u : ParserState} (h : s.Leads u) (hs : s.errors ≠ #[]) :
    u.errors ≠ #[] := by
  intro hu
  have hp := h.errors
  rw [hu] at hp
  exact hs (by simpa using hp)

theorem Typed.leads {r : TypeRef} {u v : ParserState} (h : Typed r u) (hl : u.Leads v) :
    Typed r v :=
  ⟨h.1.le hl.names, fun hr => errors_ne_of_leads hl (h.2 hr)⟩

/-- What is no error, and sound, is a type as the parser gives it. -/
theorem Typed.of_sound {r : TypeRef} {u : ParserState} (h : r.Sound u.names)
    (hr : r.isError = false) : Typed r u :=
  ⟨h, fun h' => absurd h' (by rw [hr]; decide)⟩

theorem arrayOf_gives {start : Span} (fuel : Nat) {r : TypeRef} (s : ParserState)
    (h : Typed r s) : (arrayOf start fuel r).Gives s Typed := by
  induction fuel generalizing r s with
  | zero => exact h
  | succ fuel ih =>
    rw [arrayOf]
    refine Gives.after fun b u hu => ?_
    split
    · refine Gives.after fun _ v hv => Gives.after fun _ w hw => Gives.after fun span x hx => ?_
      have hl := ((hu.trans hv).trans hw).trans hx
      exact ih x (.of_sound (.array r span (h.1.le hl.names)) rfl)
    · exact .pure (h.leads hu)

mutual

theorem typeWithin_gives {fuel : Nat} {s : ParserState} (hf : 5 * s.remaining + 1 ≤ fuel) :
    (typeWithin fuel).Gives s Typed := by
  match fuel, hf with
  | fuel + 1, hf =>
    rw [typeWithin]
    refine Gives.after fun _ u hu => Gives.after fun start v hv => ?_
    have hl := (hu.trans hv).remaining_le
    rw [gives_kind]
    split
    · rename_i hk
      refine (classSegments_gives (.inr ⟨hk, by omega⟩)).bind fun segs w hw ⟨hne, hs⟩ => ?_
      refine Gives.after fun here w' hw' => ?_
      refine Gives.after fun span x hx => arrayOf_gives _ x (.of_sound ?_ rfl)
      have hl := (hw'.trans hx).names
      exact .classType segs span hne (fun seg h => (hs seg h).1.le hl)
        fun seg h a ha => ((hs seg h).2 a ha).le hl
    · split
      · refine Gives.after fun _ w _ => ?_
        exact arrayOf_gives _ w (.of_sound (.void start) rfl)
      · split
        · rename_i p _
          refine Gives.after fun _ w _ => ?_
          exact arrayOf_gives _ w (.of_sound (.primitive p start) rfl)
        · exact expected_gives.bind fun _ w _ hw => .pure ⟨.error start, fun _ => hw⟩

theorem classSegments_gives {fuel : Nat} {s : ParserState}
    (hf : 5 * s.remaining + 4 ≤ fuel ∨
      s.current.kind = .identifier ∧ 5 * s.remaining ≤ fuel + 1) :
    (classSegments fuel).Gives s fun segs u => segs ≠ [] ∧ ∀ seg ∈ segs, seg.Sound u.names := by
  -- Either there are steps enough for any text, or the first segment is there and makes up for the
  -- difference.
  have hpos : s.current.kind = .identifier → 0 < s.remaining := fun h =>
    remaining_pos (by rw [h]; decide)
  have hf4 : 4 ≤ fuel := by
    rcases hf with hf | ⟨hk, hf⟩
    · omega
    · have := hpos hk
      omega
  match fuel, hf4 with
  | fuel + 1, _ =>
    rw [classSegments]
    refine identifier_gives.bind fun name u hu ⟨hn, hlt⟩ => ?_
    have hle := hu.remaining_le
    have hu5 : 5 * u.remaining + 3 ≤ fuel := by
      rcases hf with hf | ⟨hk, hf⟩
      · omega
      · have := hlt hk
        omega
    rw [gives_isAt]
    refine Gives.join (P := fun args v => ∀ a ∈ args, a.Sound v.names) ?_ fun args v hv hargs => ?_
    · split
      · rename_i hk
        exact typeArgs_gives (of_decide_eq_true hk) hu5
      · exact .pure fun a ha => nomatch ha
    · have hseg : (ClassSegment.mk name args).Sound v.names := ⟨hn.le hv.names, hargs⟩
      refine Gives.after fun next w hw => ?_
      rw [gives_isAt]
      split
      · rename_i hdot
        have hd : w.current.kind ≠ .eof := by
          have := of_decide_eq_true (Bool.and_eq_true_iff.1 hdot).1
          rw [this]
          decide
        refine (advance_gives hd).bind fun _ x hx hlt => Gives.after fun _ y hy => ?_
        have hr : 5 * y.remaining + 4 ≤ fuel := by
          have := (hv.trans hw).remaining_le
          have := hy.remaining_le
          omega
        refine (classSegments_gives (.inl hr)).bind fun rest z hz ⟨_, hrest⟩ => .pure ⟨?_, ?_⟩
        · exact List.cons_ne_nil _ _
        · rintro seg (_ | ⟨_, hs⟩)
          · exact hseg.le (((hw.trans hx).trans hy).trans hz).names
          · exact hrest seg hs
      · refine .pure ⟨List.cons_ne_nil _ _, ?_⟩
        rintro seg (_ | ⟨_, hs⟩)
        · exact hseg.le hw.names
        · cases hs

theorem typeArgs_gives {fuel : Nat} {s : ParserState} (hk : s.current.kind = .less)
    (hf : 5 * s.remaining + 3 ≤ fuel) :
    (typeArgs fuel).Gives s fun args u => ∀ a ∈ args, a.Sound u.names := by
  match fuel, hf with
  | fuel + 1, hf =>
    rw [typeArgs]
    refine (expect_gives (by decide) hk).bind fun _ u hu hlt => Gives.after fun eaten v hv => ?_
    have hle := hv.remaining_le
    split
    · exact .pure fun a ha => nomatch ha
    · refine (typeArgList_gives (by omega)).bind fun args w hw hargs => Gives.after fun _ x hx => ?_
      exact .pure fun a ha => (hargs a ha).le hx.names

theorem typeArgList_gives {fuel : Nat} {s : ParserState} (hf : 5 * s.remaining + 7 ≤ fuel) :
    (typeArgList fuel).Gives s fun args u => ∀ a ∈ args, a.Sound u.names := by
  match fuel, hf with
  | fuel + 1, hf =>
    rw [typeArgList]
    refine (typeArg_gives (by omega)).bind fun arg u hu harg => ?_
    refine (eat_gives (by decide)).bind fun eaten v hv hlt => ?_
    have hle := hu.remaining_le
    split
    · rename_i he
      have := hlt he
      refine (typeArgList_gives (by omega)).bind fun rest w hw hrest => .pure ?_
      rintro a (_ | ⟨_, ha⟩)
      · exact harg.le (hv.trans hw).names
      · exact hrest a ha
    · refine .pure ?_
      rintro a (_ | ⟨_, ha⟩)
      · exact harg.le hv.names
      · cases ha

theorem typeArg_gives {fuel : Nat} {s : ParserState} (hf : 5 * s.remaining + 6 ≤ fuel) :
    (typeArg fuel).Gives s fun arg u => arg.Sound u.names := by
  match fuel, hf with
  | fuel + 1, hf =>
    rw [typeArg]
    refine Gives.after fun _ u hu => Gives.after fun start v hv => Gives.after fun asked w hw => ?_
    have hl := ((hu.trans hv).trans hw).remaining_le
    split
    · refine Gives.after fun more x hx => ?_
      have := hx.remaining_le
      split
      · refine (typeWithin_gives (by omega)).bind fun bound y _ hb => Gives.after fun span z hz => ?_
        exact .pure (.wildcardExtends bound span (hb.1.le hz.names))
      · refine Gives.after fun more' y hy => ?_
        have := hy.remaining_le
        split
        · refine (typeWithin_gives (by omega)).bind fun bound z _ hb => ?_
          exact Gives.after fun span z' hz => .pure (.wildcardSuper bound span (hb.1.le hz.names))
        · exact Gives.after fun span z hz => .pure (.wildcard span)
    · exact (typeWithin_gives (by omega)).mono fun _ _ _ h => h.1

end

/-- **Types are sound.** A parsed type is sound, and an error only where one is reported. -/
theorem type_gives (s : ParserState) : type.Gives s Typed := by
  rw [type, gives_steps]
  exact typeWithin_gives (by omega)

/-- Types between separators. -/
theorem typesBetween_gives (separator : TokenKind) (fuel : Nat) (s : ParserState) :
    (typesBetween separator fuel).Gives s fun types u => ∀ r ∈ types, Typed r u := by
  induction fuel generalizing s with
  | zero => exact .cutOff fun r hr => nomatch hr
  | succ fuel ih =>
    rw [typesBetween]
    refine (type_gives s).bind fun first u hu hfirst => Gives.after fun more v hv => ?_
    split
    · refine (ih v).bind fun rest w hw hrest => .pure ?_
      rintro r (_ | ⟨_, hr⟩)
      · exact hfirst.leads (hv.trans hw)
      · exact hrest r hr
    · refine .pure ?_
      rintro r (_ | ⟨_, hr⟩)
      · exact hfirst.leads hv
      · cases hr

theorem typeList_gives (s : ParserState) :
    typeList.Gives s fun types u => ∀ r ∈ types, Typed r u := typesBetween_gives .comma _ s

/-- The name of a type parameter is a name of the table. -/
theorem typeParam_gives (s : ParserState) :
    typeParam.Gives s fun p u => u.names.Proper p.name := by
  rw [typeParam]
  refine Gives.after fun _ u _ => Gives.after fun start v _ => ?_
  refine identifier_gives.bind fun name w _ ⟨hn, _⟩ => Gives.after fun more x hx => ?_
  refine Gives.join (P := fun _ _ => True) trivial fun bounds y hy _ => ?_
  exact Gives.after fun span z hz => .pure (hn.le ((hx.trans hy).trans hz).names)

theorem typeParamList_gives (fuel : Nat) (s : ParserState) :
    (typeParamList fuel).Gives s fun params u => ∀ p ∈ params, u.names.Proper p.name := by
  induction fuel generalizing s with
  | zero => exact .cutOff fun p hp => nomatch hp
  | succ fuel ih =>
    rw [typeParamList]
    refine (typeParam_gives s).bind fun param u _ hn => Gives.after fun comma v hv => ?_
    split
    · refine (ih v).bind fun rest w hw hrest => .pure ?_
      rintro p (_ | ⟨_, hp⟩)
      · exact hn.le (hv.trans hw).names
      · exact hrest p hp
    · refine .pure ?_
      rintro p (_ | ⟨_, hp⟩)
      · exact hn.le hv.names
      · cases hp

theorem typeParams_gives (s : ParserState) :
    typeParams.Gives s fun params u => ∀ p ∈ params, u.names.Proper p.name := by
  rw [typeParams]
  refine Gives.after fun _ t _ => Gives.after fun here u _ => ?_
  refine (typeParamList_gives _ u).bind fun params v hv hp => Gives.after fun _ w hw => ?_
  exact .pure fun p h => (hp p h).le hw.names

theorem optionalTypeParams_gives (s : ParserState) :
    optionalTypeParams.Gives s fun params u => ∀ p ∈ params, u.names.Proper p.name := by
  rw [optionalTypeParams, gives_isAt]
  split
  · exact typeParams_gives s
  · exact .pure fun p hp => nomatch hp

end Parser

end JavaAbi
