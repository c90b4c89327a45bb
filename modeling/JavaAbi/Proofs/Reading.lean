import JavaAbi.Proofs.ParsedTypes
import JavaAbi.Proofs.Printing

namespace JavaAbi

/-!
# Reading words back

What a parser does on the words of a tree: it consumes just these words, reports nothing, interns
nothing new and gives the tree, but for its places. Where it looks ahead, the word that follows
decides nothing else.

* `ParserState.ahead` — the words ahead of a parser;
* `Parser.Reads` — what a parser makes of the words ahead, with one rule for each primitive step;
* `Parser.Reads.between` — items between separators.
-/

/-! ### Pieces between separators -/

theorem separated_cons_cons (separator : Word) (a b : List Word) (pieces : List (List Word)) :
    separated separator (a :: b :: pieces) =
      a ++ separator :: separated separator (b :: pieces) := rfl

theorem separated_singleton (separator : Word) (a : List Word) : separated separator [a] = a :=
  List.append_nil a

theorem length_le_separated (separator : Word) {pieces : List (List Word)}
    (h : ∀ piece ∈ pieces, piece ≠ []) : pieces.length ≤ (separated separator pieces).length := by
  induction pieces with
  | nil => exact Nat.zero_le _
  | cons a pieces ih =>
    obtain ⟨ha, hpieces⟩ := List.forall_mem_cons.1 h
    have := List.length_pos_iff.2 ha
    cases pieces with
    | nil => rwa [separated_singleton]
    | cons b pieces =>
      have := ih hpieces
      rw [separated_cons_cons]
      simp only [List.length_append, List.length_cons] at this ⊢
      omega

/-! ### The words ahead -/

/-- The kind of the first word. -/
def firstKind (ws : List Word) : TokenKind := (ws.head?.map Prod.fst).getD .eof

namespace ParserState

/-- The words ahead of a parser. -/
def ahead (s : ParserState) : List Word := s.tokens.map Token.word

variable {s : ParserState} {w : Word} {ws : List Word}

theorem current_kind (s : ParserState) : s.current.kind = firstKind s.ahead := by
  unfold current ahead
  cases s.tokens <;> rfl

theorem current_text (h : s.ahead = w :: ws) : s.current.text = w.2 := by
  unfold current
  unfold ahead at h
  cases htokens : s.tokens with
  | nil =>
    rw [htokens] at h
    cases h
  | cons t rest =>
    rw [htokens] at h
    cases h
    rfl

theorem peek_eq (s : ParserState) (n : Nat) : s.peek n = firstKind (s.ahead.drop n) := by
  rw [peek, firstKind, ahead, ← List.map_drop, List.head?_map, List.head?_drop]
  cases s.tokens[n]? <;> rfl

theorem peekText_eq {n : Nat} (h : s.ahead.drop n = w :: ws) : s.peekText n = w.2 := by
  rw [ahead, ← List.map_drop] at h
  have hhead := congrArg List.head? h
  rw [List.head?_map, List.head?_drop, List.head?_cons] at hhead
  obtain ⟨token, htoken, rfl⟩ := Option.map_eq_some_iff.1 hhead
  rw [peekText, htoken]
  rfl

theorem remaining_eq_length (s : ParserState) : s.remaining = s.ahead.length := by
  rw [remaining, ahead, List.length_map]

theorem ahead_advance (h : s.ahead = w :: ws) (hw : w.1 ≠ .eof) : s.advance.ahead = ws := by
  unfold ahead at h ⊢
  unfold advance
  split
  · rename_i htokens
    rw [htokens] at h
    cases h
  · rename_i token rest htokens
    rw [htokens] at h
    cases h
    rw [if_neg (show token.kind ≠ .eof from hw)]

theorem errors_advance (s : ParserState) : s.advance.errors = s.errors := by
  unfold advance
  split
  · rfl
  · split <;> rfl

end ParserState

namespace Parser

variable {t : NameTable} {α β : Type} {s : ParserState} {p q : Parser α} {w : Word}
  {ws mid rest : List Word} {P : α → Prop} {Q : β → Prop}

/-- What a parser makes of the words ahead: it leaves the words `rest`, interns nothing new, reports
    nothing, and what holds of its answer. -/
def Reads (t : NameTable) (p : Parser α) (s : ParserState) (rest : List Word) (post : α → Prop) :
    Prop :=
  s.names = t → p.Gives s fun a u =>
    (u.names = t ∧ u.errors = s.errors ∧ u.ahead = rest) ∧ post a

theorem Reads.pure {a : α} (hs : s.ahead = rest) (h : P a) :
    (Pure.pure a : Parser α).Reads t s rest P := fun hn => ⟨⟨hn, rfl, hs⟩, h⟩

theorem Reads.cutOff {a : α} (hs : s.ahead = rest) (h : P a) :
    (Parser.cutOff a).Reads t s rest P := fun hn => ⟨⟨hn, rfl, hs⟩, h⟩

theorem Reads.bind {f : α → Parser β} (h : p.Reads t s mid P)
    (hf : ∀ a u, u.ahead = mid → P a → (f a).Reads t u rest Q) : (p >>= f).Reads t s rest Q := by
  intro hn
  obtain ⟨⟨hn', herrors, hwords⟩, ha⟩ := h hn
  obtain ⟨⟨hn'', herrors', hwords'⟩, hb⟩ := hf _ _ hwords ha hn'
  exact ⟨⟨hn'', herrors'.trans herrors, hwords'⟩, hb⟩

theorem Reads.mono {Q : α → Prop} (h : p.Reads t s rest P) (hpost : ∀ a, P a → Q a) :
    p.Reads t s rest Q := fun hn => (h hn).imp_right (hpost _)

/-- Two branches that go on in the same way. -/
theorem Reads.join {c : Prop} [Decidable c] {f : α → Parser β}
    (h : (if c then p else q).Reads t s mid P)
    (hf : ∀ a u, u.ahead = mid → P a → (f a).Reads t u rest Q) :
    (if c then p >>= f else q >>= f).Reads t s rest Q := by
  split <;> rename_i hc
  · rw [if_pos hc] at h
    exact h.bind hf
  · rw [if_neg hc] at h
    exact h.bind hf

theorem Reads.yes {c : Prop} [Decidable c] (hc : c) (h : p.Reads t s rest P) :
    (if c then p else q).Reads t s rest P := by rwa [if_pos hc]

theorem Reads.neg {c : Prop} [Decidable c] (hc : ¬ c) (h : q.Reads t s rest P) :
    (if c then p else q).Reads t s rest P := by rwa [if_neg hc]

theorem Reads.no {b : Bool} (hb : b = false) (h : q.Reads t s rest P) :
    (if b = true then p else q).Reads t s rest P := .neg (hb ▸ Bool.false_ne_true) h

/-! ### Primitive steps -/

theorem reads_kind {f : TokenKind → Parser β} :
    (kind >>= f).Reads t s rest Q ↔ (f s.current.kind).Reads t s rest Q := Iff.rfl

theorem reads_peek {n : Nat} {f : TokenKind → Parser β} :
    (peek n >>= f).Reads t s rest Q ↔ (f (s.peek n)).Reads t s rest Q := Iff.rfl

theorem reads_isAt {k : TokenKind} {f : Bool → Parser β} :
    (isAt k >>= f).Reads t s rest Q ↔ (f (s.current.kind = k)).Reads t s rest Q := Iff.rfl

theorem reads_state {f : ParserState → Parser β} :
    (state >>= f).Reads t s rest Q ↔ (f s).Reads t s rest Q := Iff.rfl

theorem reads_steps {f : Nat → Parser β} :
    (steps >>= f).Reads t s rest Q ↔ (f (5 * s.remaining + 5)).Reads t s rest Q := Iff.rfl

theorem reads_isAtDimension {f : Bool → Parser β} : (isAtDimension >>= f).Reads t s rest Q ↔
    (f (s.current.kind = .leftBracket && s.peek 1 = .rightBracket)).Reads t s rest Q := Iff.rfl

theorem reads_isAtAnnotation {f : Bool → Parser β} : ( isAtAnnotation >>= f).Reads t s rest Q ↔
    (f (s.current.kind = .atSign && s.peek 1 ≠ .kwInterface)).Reads t s rest Q := Iff.rfl

theorem Reads.isAt_yes {k : TokenKind} {f : Bool → Parser β} (h : firstKind s.ahead = k)
    (hf : (f true).Reads t s rest Q) : (isAt k >>= f).Reads t s rest Q := by
  rw [reads_isAt, s.current_kind, decide_eq_true h]
  exact hf

theorem Reads.isAt_no {k : TokenKind} {f : Bool → Parser β} (h : firstKind s.ahead ≠ k)
    (hf : (f false).Reads t s rest Q) : (isAt k >>= f).Reads t s rest Q := by
  rw [reads_isAt, s.current_kind, decide_eq_false h]
  exact hf

theorem Reads.place {f : Span → Parser β} (hf : ∀ place, (f place).Reads t s rest Q) :
    (currentSpan >>= f).Reads t s rest Q := hf _

theorem Reads.spanFrom {start : Span} {f : Span → Parser β}
    (hf : ∀ place, (f place).Reads t s rest Q) : (spanFrom start >>= f).Reads t s rest Q := hf _

theorem Reads.advance {f : Unit → Parser β} (hs : s.ahead = w :: ws)
    (hf : ∀ u, u.ahead = ws → (f ()).Reads t u rest Q) (hw : w.1 ≠ .eof := by decide) :
    (Parser.advance >>= f).Reads t s rest Q := by
  have h : Parser.advance.Reads t s ws fun _ => True := fun hn =>
    ⟨⟨s.names_advance.trans hn, s.errors_advance, s.ahead_advance hs hw⟩, trivial⟩
  exact h.bind fun _ u hu _ => hf u hu

theorem Reads.eat_yes {k : TokenKind} {f : Bool → Parser β} (hs : s.ahead = w :: ws)
    (hw : w.1 = k) (hf : ∀ u, u.ahead = ws → (f true).Reads t u rest Q)
    (hk : k ≠ .eof := by decide) : (eat k >>= f).Reads t s rest Q := by
  have h : (eat k).Reads t s ws (· = true) := by
    intro hn
    rw [Gives, run_eat, if_pos (by rw [s.current_kind, hs]; exact hw)]
    exact ⟨⟨s.names_advance.trans hn, s.errors_advance, s.ahead_advance hs (hw ▸ hk)⟩, rfl⟩
  exact h.bind fun a u hu ha => ha ▸ hf u hu

theorem Reads.eat_no {k : TokenKind} {f : Bool → Parser β} (hk : firstKind s.ahead ≠ k)
    (hf : (f false).Reads t s rest Q) : (eat k >>= f).Reads t s rest Q := by
  intro hn
  have hrun : (eat k).run s = (false, s) := by
    rw [run_eat, if_neg (by rw [s.current_kind]; exact hk)]
  show Gives _ s _
  rw [Gives]
  show _ ∧ _
  have hbind : (eat k >>= f).run s = (f false).run s := by
    show (f ((eat k).run s).1).run ((eat k).run s).2 = _
    rw [hrun]
  rw [hbind]
  exact hf hn

theorem Reads.expect {k : TokenKind} {f : Unit → Parser β} (hs : s.ahead = w :: ws)
    (hw : w.1 = k) (hf : ∀ u, u.ahead = ws → (f ()).Reads t u rest Q)
    (hk : k ≠ .eof := by decide) : (Parser.expect k >>= f).Reads t s rest Q := by
  have h : (Parser.expect k).Reads t s ws fun _ => True := by
    rw [Parser.expect]
    exact .eat_yes hs hw (fun u hu => .pure hu trivial) hk
  exact h.bind fun _ u hu _ => hf u hu

theorem Reads.ident {f : Name → Parser β} {n : Name} (hs : s.ahead = n.word t :: ws)
    (hn : t.Issued n) (hf : ∀ u, u.ahead = ws → (f n).Reads t u rest Q) :
    (identifier >>= f).Reads t s rest Q := by
  have h : identifier.Reads t s ws (· = n) := by
    intro hnames
    have hkind : s.current.kind = .identifier := by rw [s.current_kind, hs]; rfl
    have htext : s.current.text = t.text n := s.current_text hs
    have hintern : s.names.intern s.current.text = (n, s.names) := by
      rw [htext, hnames]
      exact NameTable.intern_of_resolve? hn.resolve?
    have hrun : identifier.run s = (n, s.advance) := by
      rw [identifier]
      show (if s.current.kind = .identifier then _ else _ : Parser Name).run s = _
      rw [if_pos hkind]
      show ((s.names.intern s.current.text).1,
        ParserState.advance { s with names := (s.names.intern s.current.text).2 }) = _
      rw [hintern]
    rw [Gives, hrun]
    exact ⟨⟨s.names_advance.trans hnames, s.errors_advance, s.ahead_advance hs (of_decide_eq_false rfl)⟩,
      rfl⟩
  exact h.bind fun a u hu ha => ha ▸ hf u hu

/-- No annotation stands here. -/
def Unannotated (ws : List Word) : Prop :=
  firstKind ws = .atSign → firstKind (ws.drop 1) = .kwInterface

theorem unannotated_of_ne (h : firstKind ws ≠ .atSign) : Unannotated ws := fun h' => absurd h' h

theorem isAtAnnotation_no {f : Bool → Parser β} (h : Unannotated s.ahead)
    (hf : (f false).Reads t s rest Q) : ( isAtAnnotation >>= f).Reads t s rest Q := by
  rw [ reads_isAtAnnotation, s.current_kind, s.peek_eq]
  have hno : (decide (firstKind s.ahead = .atSign) &&
      decide (firstKind (s.ahead.drop 1) ≠ .kwInterface)) = false := by
    by_cases hat : firstKind s.ahead = .atSign
    · rw [h hat]
      simp
    · rw [decide_eq_false hat, Bool.false_and]
  rw [hno]
  exact hf

theorem Reads.unannotated {f : Unit → Parser β} (h : Unannotated s.ahead)
    (hf : ∀ u, u.ahead = s.ahead → (f ()).Reads t u rest Q) :
    (skipAnnotations >>= f).Reads t s rest Q := by
  have hskip : skipAnnotations.Reads t s s.ahead fun _ => True := by
    rw [skipAnnotations, reads_state]
    cases s.remaining with
    | zero => exact .cutOff rfl trivial
    | succ n =>
      rw [skipAnnotationsUpTo]
      exact isAtAnnotation_no h (.pure rfl trivial)
  exact hskip.bind fun _ u hu _ => hf u hu

end Parser

namespace Parser

variable {t : NameTable} {rest : List Word}

/-! ### Loops -/

/-- What follows an item: what follows them all, or the separator and an item. -/
def FollowsItem {ι : Type} (separator : Word) (words : ι → List Word) (items : List ι)
    (rest after : List Word) : Prop :=
  after = rest ∨ ∃ i ∈ items, ∃ more, (more = rest ∨ firstKind more = separator.1) ∧
    after = separator :: (words i ++ more)

/-- The separator follows an item, or what follows them all. -/
theorem FollowsItem.firstKind {ι : Type} {separator : Word} {words : ι → List Word} {items : List ι}
    {rest after : List Word} (h : FollowsItem separator words items rest after) :
    after = rest ∨ firstKind after = separator.1 := by
  refine h.imp_right fun ⟨i, _, more, _, hafter⟩ => ?_
  rw [hafter]
  rfl

theorem FollowsItem.cons {ι : Type} {separator : Word} {words : ι → List Word} {items : List ι}
    {rest after : List Word} (h : FollowsItem separator words items rest after) (i : ι) :
    FollowsItem separator words (i :: items) rest after :=
  h.imp_right fun ⟨j, hj, hmore⟩ => ⟨j, List.mem_cons_of_mem i hj, hmore⟩

/-- Items between separators, each read by `one`. -/
theorem Reads.between {α ι κ : Type} {one : Parser α} {loop : Nat → Parser (List α)}
    (separator : Word) {words : ι → List Word} {bare : α → κ} {shape : ι → κ}
    (hloop : ∀ fuel, loop (fuel + 1) = one >>= fun a => eat separator.1 >>= fun more =>
      if more = true then loop fuel >>= fun as => Pure.pure (a :: as) else Pure.pure [a])
    (hother : firstKind rest ≠ separator.1) (items : List ι)
    (fuel : Nat) (s : ParserState) (filled : items ≠ [])
    (hone : ∀ i ∈ items, ∀ u after, FollowsItem separator words items rest after →
      u.ahead = words i ++ after → one.Reads t u after fun b => bare b = shape i)
    (hs : s.ahead = separated separator (items.map words) ++ rest) (hf : items.length ≤ fuel)
    (heof : separator.1 ≠ .eof := by decide) :
    (loop fuel).Reads t s rest fun found => found.map bare = items.map shape := by
  induction items generalizing fuel s with
  | nil => exact absurd rfl filled
  | cons a items ih =>
    obtain ⟨ha, hitems⟩ := List.forall_mem_cons.1 hone
    cases fuel with
    | zero => exact absurd hf (Nat.not_succ_le_zero _)
    | succ fuel =>
      rw [hloop]
      cases items with
      | nil =>
        rw [List.map_singleton, separated_singleton] at hs
        refine (ha s rest (.inl rfl) hs).bind fun b u hu hb => ?_
        refine .eat_no (by rwa [hu]) (.no rfl (.pure hu ?_))
        rw [List.map_singleton, List.map_singleton, hb]
      | cons next items =>
        rw [List.map_cons, List.map_cons, separated_cons_cons, List.append_assoc,
          List.cons_append] at hs
        -- Behind an item comes a separator with the items after it.
        have hnext : FollowsItem separator words (a :: next :: items) rest
            (separator :: (separated separator ((next :: items).map words) ++ rest)) := by
          refine .inr ⟨next, List.mem_cons_of_mem a List.mem_cons_self, ?_⟩
          cases items with
          | nil =>
            refine ⟨rest, .inl rfl, ?_⟩
            rw [List.map_singleton, separated_singleton]
          | cons third items =>
            refine ⟨separator :: (separated separator ((third :: items).map words) ++ rest),
              .inr rfl, ?_⟩
            rw [List.map_cons, List.map_cons, separated_cons_cons, List.append_assoc,
              List.cons_append]
        refine (ha s _ hnext hs).bind fun b u hu hb => ?_
        refine .eat_yes hu rfl (fun v hv => .yes rfl ?_) heof
        have hlater : ∀ i ∈ next :: items, ∀ u after, FollowsItem separator words (next :: items)
            rest after → u.ahead = words i ++ after → one.Reads t u after fun b => bare b = shape i :=
          fun i hi u after hafter => hitems i hi u after (hafter.cons a)
        refine (ih fuel v (List.cons_ne_nil _ _) hlater hv (Nat.le_of_succ_le_succ hf)).bind
          fun bs x hx hbs => .pure hx ?_
        rw [List.map_cons, List.map_cons, hb, hbs]

end Parser

end JavaAbi
