import JavaAbi.Proofs.Reading

namespace JavaAbi

/-!
# Two runs of the parser

The parser reads the places of tokens only to put them into its answers, and of a group that it steps
over it reads the delimiters only. So two runs on token sequences that differ in places, or besides
in what stands inside one group that is stepped over, take the same steps; and so they do where the
second one has reported other messages before.

* `GroupChange`, `Difference` — in what two token sequences differ;
* `Matched` — two states of such runs, as far apart;
* `Parser.Pairs` — from matched states two parsers lead to matched states and related answers, unless
  the first one consumes the opening delimiter of the group without stepping over the group; one rule
  for each primitive step.

Inside a group the two runs are not compared: they have different numbers of tokens ahead. The bounds
of loops, which these numbers determine, are therefore not compared either; that neither run is cut
off is assumed instead. Where only places differ, the bounds are the same.
-/

/-! ### Groups -/

/-- The delimiter that closes a group. -/
def TokenKind.closing? : TokenKind → Option TokenKind
  | .leftBrace => some .rightBrace
  | .leftParen => some .rightParen
  | .less => some .greater
  | _ => none

/-- Words that close `depth` groups opened before them, and all that they open themselves; no group
    is closed that is not open, and the file does not end. -/
structure Balanced (opening closing : TokenKind) (depth : Nat) (ws : List Word) : Prop where
  closed : ∀ part, part <+: ws.map Prod.fst → part.count closing ≤ depth + part.count opening
  even : depth + (ws.map Prod.fst).count opening = (ws.map Prod.fst).count closing
  goesOn : .eof ∉ ws.map Prod.fst

namespace Balanced

variable {opening closing : TokenKind} {depth : Nat} {w : Word} {ws : List Word}

theorem depth_nil (h : Balanced opening closing depth []) : depth = 0 := h.even

theorem head_ne_eof (h : Balanced opening closing depth (w :: ws)) : w.1 ≠ .eof := fun hw =>
  h.goesOn (List.mem_map.2 ⟨w, List.mem_cons_self, hw⟩)

/-- How many groups are open after a word. -/
theorem tail {more : Nat} (h : Balanced opening closing depth (w :: ws))
    (hmore : more + (if w.1 = closing then 1 else 0) = depth + if w.1 = opening then 1 else 0) :
    Balanced opening closing more ws := by
  refine ⟨fun part hpart => ?_, ?_, fun heof => h.goesOn (List.mem_cons_of_mem _ heof)⟩
  · have hcount := h.closed (w.1 :: part) (List.cons_prefix_cons.2 ⟨rfl, hpart⟩)
    simp only [List.count_cons, beq_iff_eq] at hcount
    omega
  · have hcount := h.even
    simp only [List.map_cons, List.count_cons, beq_iff_eq] at hcount
    omega

theorem nil : Balanced opening closing 0 [] :=
  ⟨fun part hpart => by rw [List.prefix_nil.1 hpart]; exact Nat.zero_le _, rfl, by simp⟩

/-- One word more, where no group is closed that is not open. -/
theorem cons {m : Nat} (h : Balanced opening closing m ws) (heof : w.1 ≠ .eof)
    (hm : m + (if w.1 = closing then 1 else 0) = depth + if w.1 = opening then 1 else 0) :
    Balanced opening closing depth (w :: ws) := by
  refine ⟨fun part hpart => ?_, ?_, ?_⟩
  · cases part with
    | nil => exact Nat.zero_le _
    | cons k part =>
      obtain ⟨rfl, hrest⟩ := List.cons_prefix_cons.1 hpart
      have hcount := h.closed part hrest
      simp only [List.count_cons, beq_iff_eq]
      omega
  · have hcount := h.even
    simp only [List.map_cons, List.count_cons, beq_iff_eq]
    omega
  · rw [List.map_cons, List.mem_cons, not_or]
    exact ⟨heof.symm, h.goesOn⟩

/-- A closing delimiter closes a group. -/
theorem depth_pos (h : Balanced opening closing depth (w :: ws)) (hw : w.1 = closing)
    (hne : opening ≠ closing) : 0 < depth := by
  have hcount := h.closed [w.1] (List.cons_prefix_cons.2 ⟨rfl, List.nil_prefix⟩)
  rw [hw, List.count_singleton_self, List.count_singleton, if_neg (by simpa using hne.symm)] at hcount
  omega

/-- The groups that are open after a word. -/
theorem exists_tail (h : Balanced opening closing depth (w :: ws)) (hne : opening ≠ closing) :
    ∃ depth', depth' + (if w.1 = closing then 1 else 0) =
      depth + if w.1 = opening then 1 else 0 := by
  by_cases hw : w.1 = closing
  · have hpos := h.depth_pos hw hne
    refine ⟨depth - 1, ?_⟩
    rw [if_pos hw, if_neg (hw ▸ hne.symm)]
    exact Nat.sub_add_cancel hpos
  · exact ⟨depth + if w.1 = opening then 1 else 0, by rw [if_neg hw, Nat.add_zero]⟩

end Balanced

/-- A delimited group, what stands inside it in either of two sequences of words, and what follows it
    in both. An opening delimiter is no word. -/
structure GroupChange where
  opener : Word
  inner : List Word
  inner' : List Word
  closer : Word
  after : List Word
  pair : opener.1.closing? = some closer.1
  mark : opener.2 ≠ "sealed"
  balanced : Balanced opener.1 closer.1 0 inner
  balanced' : Balanced opener.1 closer.1 0 inner'

namespace GroupChange

variable {g : GroupChange} {noted : List Nat} {s u : ParserState}

/-- The words of one sequence from the group on. -/
def words (g : GroupChange) : List Word := g.opener :: (g.inner ++ g.closer :: g.after)

/-- The words of the other sequence from the group on. -/
def words' (g : GroupChange) : List Word := g.opener :: (g.inner' ++ g.closer :: g.after)

theorem length_after_lt (g : GroupChange) : g.after.length < g.words.length := by
  simp only [words, List.length_cons, List.length_append]
  omega

/-- The group has not been stepped over since these groups were noted. -/
def Unnoted (g : GroupChange) (noted : List Nat) (s : ParserState) : Prop :=
  ∃ more, s.groups = more ++ noted ∧ g.words.length ∉ more

/-- The opening delimiter has been consumed, and the group not stepped over. -/
structure Lost (g : GroupChange) (noted : List Nat) (s : ParserState) : Prop where
  unnoted : g.Unnoted noted s
  past : s.remaining < g.words.length

/-- What has been consumed stays so. -/
theorem Lost.leads (h : g.Lost noted s) (hl : s.Leads u) : g.Lost noted u := by
  obtain ⟨more, hs, hmore⟩ := h.unnoted
  obtain ⟨more', hu, hle⟩ := hl.groups
  refine ⟨⟨more' ++ more, by rw [hu, hs, List.append_assoc], fun hmem => ?_⟩,
    Nat.lt_of_le_of_lt hl.remaining_le h.past⟩
  rcases List.mem_append.1 hmem with hmem | hmem
  · exact absurd (hle _ hmem) (Nat.not_le.2 h.past)
  · exact hmore hmem

end GroupChange

/-! ### Matched states -/

/-- In what two token sequences differ: in places only, or besides inside a group, which has not been
    stepped over before some groups were noted. Or the tokens differ in places, and the second run has
    come from further back, where it has reported some messages. -/
inductive Difference where
  | places
  | inside (g : GroupChange) (noted : List Nat)
  | behind (earlier : List String)

namespace Difference

/-- The first run has lost the group. -/
def Lost : Difference → ParserState → Prop
  | places, _ | behind _, _ => False
  | inside g noted, s => g.Lost noted s

/-- Where the bounds of loops are not compared, a run is not cut off. -/
def Whole : Difference → ParserState → Prop
  | places, _ => True
  | inside _ _, s | behind _, s => s.cutOff = false

/-- How the bounds of two loops are related. -/
def Bounds : Difference → Nat → Nat → Prop
  | places, n, n' => n' = n
  | inside _ _, _, _ | behind _, _, _ => True

/-- The messages that only the second run has reported. -/
def earlier : Difference → List String
  | places | inside _ _ => []
  | behind earlier => earlier

variable {d : Difference} {s u : ParserState} {n n' : Nat}

theorem Lost.leads (h : d.Lost s) (hl : s.Leads u) : d.Lost u := by
  cases d with
  | places => exact h
  | inside g noted => exact GroupChange.Lost.leads h hl
  | behind earlier => exact h

theorem Whole.leads (h : d.Whole u) (hl : s.Leads u) : d.Whole s := by
  have hcut : u.cutOff = false → s.cutOff = false := fun hu =>
    Bool.eq_false_iff.2 fun hs => absurd (hu.symm.trans (hl.cutOff hs)) Bool.false_ne_true
  cases d with
  | places => exact h
  | inside g noted => exact hcut h
  | behind earlier => exact hcut h

theorem Bounds.map (h : d.Bounds n n') (f : Nat → Nat) : d.Bounds (f n) (f n') := by
  cases d with
  | places => exact congrArg f h
  | inside g noted => trivial
  | behind earlier => trivial

end Difference

namespace ParserState

/-- The messages of the errors reported so far. -/
def messages (s : ParserState) : List String := s.errors.toList.map Diagnostic.message

/-- Two runs have interned the same names and reported the same messages. -/
structure FoundAs (s s' : ParserState) : Prop where
  names : s'.names = s.names
  messages : s'.messages = s.messages

/-- The same, but for messages that the second run has reported earlier. -/
structure FoundAfter (earlier : List String) (s s' : ParserState) : Prop where
  names : s'.names = s.names
  messages : s'.messages = earlier ++ s.messages

end ParserState

/-- Two states of two runs: the same words are ahead, or the same words before the group. -/
inductive Matched : Difference → ParserState → ParserState → Prop
  | places {s s' : ParserState} (found : s.FoundAs s') (ahead : s'.ahead = s.ahead)
      (cutOff : s'.cutOff = s.cutOff) : Matched .places s s'
  | behind {earlier : List String} {s s' : ParserState} (found : s.FoundAfter earlier s')
      (ahead : s'.ahead = s.ahead) : Matched (.behind earlier) s s'
  | past {g : GroupChange} {noted : List Nat} {s s' : ParserState} (found : s.FoundAs s')
      (ahead : s'.ahead = s.ahead) (le : s.remaining ≤ g.after.length) :
      Matched (.inside g noted) s s'
  | before {g : GroupChange} {noted : List Nat} {s s' : ParserState} {ws : List Word}
      (found : s.FoundAs s') (ahead : s.ahead = ws ++ g.words) (ahead' : s'.ahead = ws ++ g.words')
      (unnoted : g.Unnoted noted s) : Matched (.inside g noted) s s'

namespace Matched

variable {d : Difference} {s s' u u' : ParserState}

theorem findings (h : Matched d s s') : s.FoundAfter d.earlier s' := by
  cases h with
  | behind found => exact found
  | places found | past found | before found => exact ⟨found.names, found.messages⟩

theorem found (h : Matched d s s') (hd : d.earlier = []) : s.FoundAs s' := by
  obtain ⟨hnames, hmessages⟩ := h.findings
  rw [hd] at hmessages
  exact ⟨hnames, hmessages⟩

/-- States stay matched where findings are added. -/
theorem finding (h : Matched d s s') (hfound : u.FoundAfter d.earlier u')
    (htokens : u.tokens = s.tokens) (htokens' : u'.tokens = s'.tokens) (hgroups : u.groups = s.groups)
    (hcut : u.cutOff = s.cutOff) (hcut' : u'.cutOff = s'.cutOff) : Matched d u u' := by
  have hahead : u.ahead = s.ahead := congrArg (List.map Token.word) htokens
  have hahead' : u'.ahead = s'.ahead := congrArg (List.map Token.word) htokens'
  cases h with
  | places found ahead cutOff =>
    exact .places ⟨hfound.names, hfound.messages⟩ (by rw [hahead, hahead', ahead])
      (by rw [hcut, hcut', cutOff])
  | behind found ahead => exact .behind hfound (by rw [hahead, hahead', ahead])
  | past found ahead le =>
    refine .past ⟨hfound.names, hfound.messages⟩ (by rw [hahead, hahead', ahead]) ?_
    rwa [ParserState.remaining, htokens]
  | before found ahead ahead' unnoted =>
    refine .before ⟨hfound.names, hfound.messages⟩ (hahead.trans ahead) (hahead'.trans ahead') ?_
    rwa [GroupChange.Unnoted, hgroups]

/-- The bounds that the tokens left determine. -/
theorem bounds (h : Matched d s s') : d.Bounds s.remaining s'.remaining := by
  cases h with
  | places found ahead cutOff =>
    show s'.remaining = s.remaining
    rw [ParserState.remaining_eq_length, ParserState.remaining_eq_length, ahead]
  | behind => trivial
  | past => trivial
  | before => trivial

/-- Either the group is at hand, or the number of tokens left is not the one that notes it. -/
theorem atGroup (h : Matched d s s') :
    (∀ g noted, d = .inside g noted → s.remaining ≠ g.words.length) ∨
      ∃ g noted, d = .inside g noted ∧ s.ahead = g.words ∧ s'.ahead = g.words' := by
  cases h with
  | places => exact .inl fun g noted hg => by cases hg
  | behind => exact .inl fun g noted hg => by cases hg
  | @past g noted _ _ found ahead le =>
    refine .inl fun g' noted' hg => ?_
    cases hg
    exact Nat.ne_of_lt (Nat.lt_of_le_of_lt le g.length_after_lt)
  | @before g noted _ _ ws found ahead ahead' unnoted =>
    cases ws with
    | nil => exact .inr ⟨g, noted, rfl, ahead, ahead'⟩
    | cons w ws =>
      refine .inl fun g' noted' hg => ?_
      cases hg
      rw [ParserState.remaining_eq_length, ahead, List.cons_append, List.length_cons,
        List.length_append]
      omega

/-! ### Looking ahead -/

/-- The word at hand is the same. -/
theorem head? (h : Matched d s s') : s'.ahead.head? = s.ahead.head? := by
  cases h with
  | places found ahead cutOff => rw [ahead]
  | behind found ahead => rw [ahead]
  | past found ahead le => rw [ahead]
  | @before g noted _ _ ws found ahead ahead' unnoted =>
    rw [ahead, ahead']
    cases ws <;> rfl

theorem kind (h : Matched d s s') : s'.current.kind = s.current.kind := by
  rw [ParserState.current_kind, ParserState.current_kind, firstKind, firstKind, h.head?]

theorem text (h : Matched d s s') : s'.current.text = s.current.text := by
  have htext : ∀ s : ParserState, s.current.text = ((s.ahead.head?).map Prod.snd).getD "" := by
    intro s
    unfold ParserState.current ParserState.ahead
    cases s.tokens <;> rfl
  rw [htext, htext, h.head?]

/-- A word may open a group that is stepped over. -/
def Opens (s : ParserState) (n : Nat) : Prop :=
  (s.peek n).closing?.isSome ∧ s.peekText n ≠ "sealed"

/-- Words ahead are the same up to the first that may open a group. -/
theorem drop_head? (h : Matched d s s') {n : Nat} (hn : ∀ i < n, ¬ Opens s i) :
    (s'.ahead.drop n).head? = (s.ahead.drop n).head? := by
  cases h with
  | places found ahead cutOff => rw [ahead]
  | behind found ahead => rw [ahead]
  | past found ahead le => rw [ahead]
  | @before g noted _ _ ws found ahead ahead' unnoted =>
    have hle : n ≤ ws.length := by
      refine Nat.not_lt.1 fun hlt => ?_
      have hdrop : s.ahead.drop ws.length = g.words := by rw [ahead, List.drop_left]
      refine hn ws.length hlt ⟨?_, ?_⟩
      · rw [ParserState.peek_eq, hdrop]
        exact Option.isSome_iff_exists.2 ⟨_, g.pair⟩
      · rw [ParserState.peekText_eq hdrop]
        exact g.mark
    rw [ahead, ahead', List.drop_append_of_le_length hle, List.drop_append_of_le_length hle]
    cases ws.drop n <;> rfl

theorem peek (h : Matched d s s') {n : Nat} (hn : ∀ i < n, ¬ Opens s i) :
    s'.peek n = s.peek n := by
  rw [ParserState.peek_eq, ParserState.peek_eq, firstKind, firstKind, h.drop_head? hn]

theorem peekText (h : Matched d s s') {n : Nat} (hn : ∀ i < n, ¬ Opens s i) :
    s'.peekText n = s.peekText n := by
  have hhead := h.drop_head? hn
  rw [ParserState.ahead, ParserState.ahead, ← List.map_drop, ← List.map_drop, List.head?_map,
    List.head?_map, List.head?_drop, List.head?_drop] at hhead
  have htext := congrArg (Option.map Prod.snd) hhead
  rw [Option.map_map, Option.map_map] at htext
  rw [ParserState.peekText, ParserState.peekText]
  exact congrArg (Option.getD · "") htext

theorem not_opens {n : Nat} (h : (s.peek n).closing? = none) : ¬ Opens s n := fun ho => by
  have := ho.1
  rw [h] at this
  cases this

/-- The word after one that opens no group. -/
theorem peek_one (h : Matched d s s') (hk : s.current.kind.closing? = none) :
    s'.peek 1 = s.peek 1 ∧ s'.peekText 1 = s.peekText 1 := by
  have hopens : ∀ i < 1, ¬ Opens s i := by
    intro i hi
    obtain rfl : i = 0 := by omega
    refine not_opens ?_
    rwa [ParserState.peek_eq, List.drop_zero, ← ParserState.current_kind]
  exact ⟨h.peek hopens, h.peekText hopens⟩

/-- The word after one of a kind that opens no group, where the word at hand has this kind. -/
theorem and_peek (h : Matched d s s') {c : TokenKind} (hc : c.closing? = none)
    (p : TokenKind → Bool) :
    (decide (s'.current.kind = c) && p (s'.peek 1)) = (decide (s.current.kind = c) && p (s.peek 1)) := by
  rw [h.kind]
  by_cases hk : s.current.kind = c
  · rw [(h.peek_one (hk ▸ hc)).1]
  · rw [decide_eq_false hk, Bool.false_and, Bool.false_and]

/-! ### Stepping on -/

theorem advance_eof {s : ParserState} (h : s.current.kind = .eof) : s.advance = s := by
  unfold ParserState.advance
  split
  · rfl
  · rename_i t rest htokens
    rw [ParserState.current, htokens] at h
    exact if_pos h

theorem groups_advance (s : ParserState) : s.advance.groups = s.groups := by
  unfold ParserState.advance
  split
  · rfl
  · split <;> rfl

theorem cutOff_advance (s : ParserState) : s.advance.cutOff = s.cutOff := by
  unfold ParserState.advance
  split
  · rfl
  · split <;> rfl

theorem findings_advance {earlier : List String} (h : s.FoundAfter earlier s') :
    s.advance.FoundAfter earlier s'.advance := by
  refine ⟨?_, ?_⟩
  · rw [ParserState.names_advance, ParserState.names_advance, h.names]
  · rw [ParserState.messages, ParserState.messages, ParserState.errors_advance,
      ParserState.errors_advance]
    exact h.messages

theorem found_advance (h : s.FoundAs s') : s.advance.FoundAs s'.advance := by
  have hafter : s.advance.FoundAfter [] s'.advance := findings_advance ⟨h.names, h.messages⟩
  exact ⟨hafter.names, hafter.messages⟩

theorem ahead_advance_eq (h : s'.ahead = s.ahead) : s'.advance.ahead = s.advance.ahead := by
  cases hs : s.ahead with
  | nil =>
    rw [hs] at h
    have hkind : s.current.kind = .eof := by rw [ParserState.current_kind, hs]; rfl
    have hkind' : s'.current.kind = .eof := by rw [ParserState.current_kind, h]; rfl
    rw [advance_eof hkind, advance_eof hkind', hs, h]
  | cons w ws =>
    rw [hs] at h
    by_cases hw : w.1 = .eof
    · have hkind : s.current.kind = .eof := by rw [ParserState.current_kind, hs]; exact hw
      have hkind' : s'.current.kind = .eof := by rw [ParserState.current_kind, h]; exact hw
      rw [advance_eof hkind, advance_eof hkind', hs, h]
    · rw [ParserState.ahead_advance hs hw, ParserState.ahead_advance h hw]

theorem opener_ne_eof (g : GroupChange) : g.opener.1 ≠ .eof := by
  intro h
  have := g.pair
  rw [h] at this
  cases this

/-- One token further, states are matched, unless the first run has lost the group. -/
theorem advance (h : Matched d s s') : d.Lost s.advance ∨ Matched d s.advance s'.advance := by
  cases h with
  | places found ahead cutOff =>
    refine .inr (.places (found_advance found) (ahead_advance_eq ahead) ?_)
    rw [cutOff_advance, cutOff_advance, cutOff]
  | behind found ahead => exact .inr (.behind (findings_advance found) (ahead_advance_eq ahead))
  | past found ahead le =>
    refine .inr (.past (found_advance found) (ahead_advance_eq ahead) ?_)
    exact Nat.le_trans s.leads_advance.remaining_le le
  | @before g noted _ _ ws found ahead ahead' unnoted =>
    have hun : g.Unnoted noted s.advance := by rwa [GroupChange.Unnoted, groups_advance]
    cases ws with
    -- The next token opens the group, so the first run steps into it.
    | nil =>
      refine .inl ⟨hun, ?_⟩
      have hkind : s.current.kind ≠ .eof := by
        rw [ParserState.current_kind, ahead]
        exact opener_ne_eof g
      refine Nat.lt_of_lt_of_eq (Parser.remaining_advance hkind) ?_
      rw [ParserState.remaining_eq_length, ahead, List.nil_append]
    | cons w ws =>
      by_cases hw : w.1 = .eof
      · -- At the end of the file neither run moves.
        have hkind : s.current.kind = .eof := by rw [ParserState.current_kind, ahead]; exact hw
        have hkind' : s'.current.kind = .eof := by rw [ParserState.current_kind, ahead']; exact hw
        rw [advance_eof hkind, advance_eof hkind']
        exact .inr (.before found ahead ahead' unnoted)
      · exact .inr (.before (found_advance found) (ParserState.ahead_advance ahead hw)
          (ParserState.ahead_advance ahead' hw) hun)

/-- Of two runs that lead on to matched states, either both have consumed a token or neither has. -/
theorem stayed (h : Matched d s s') (hl : s.Leads u) (hu : Matched d u u') :
    u.remaining = s.remaining ↔ u'.remaining = s'.remaining := by
  have hle := hl.remaining_le
  simp only [ParserState.remaining_eq_length] at hle ⊢
  cases h with
  | places found ahead cutOff =>
    cases hu with
    | places found ahead' cutOff => rw [ahead, ahead']
  | behind found ahead =>
    cases hu with
    | behind found ahead' => rw [ahead, ahead']
  | @past g noted _ _ found ahead le =>
    have := g.length_after_lt
    rw [ParserState.remaining_eq_length] at le
    cases hu with
    | past found ahead' le' => rw [ahead, ahead']
    | before found ahead' _ unnoted =>
      -- Words are only consumed, so a run behind the group does not come back before it.
      rw [ahead', List.length_append] at hle
      omega
  | @before g noted _ _ ws found ahead ahead' unnoted =>
    have hlt : g.after.length < g.words'.length := by
      simp only [GroupChange.words', List.length_cons, List.length_append]
      omega
    have := g.length_after_lt
    rw [ahead, ahead', List.length_append, List.length_append]
    cases hu with
    | past found ahead'' le =>
      rw [ParserState.remaining_eq_length] at le
      rw [ahead'']
      omega
    | before found ahead'' ahead''' _ =>
      rw [ahead'', ahead''', List.length_append, List.length_append]
      omega

end Matched

namespace Parser

variable {d : Difference} {α β : Type} {p p' q q' : Parser α} {f f' : α → Parser β}
  {s s' : ParserState} {R : α → α → Prop} {Q : β → β → Prop}

/-- What two parsers make of two states: unless the first run loses the group, they lead to matched
    states and to related answers. -/
def Pairs (d : Difference) (p p' : Parser α) (s s' : ParserState) (R : α → α → Prop) : Prop :=
  d.Whole (p.run s).2 → d.Whole (p'.run s').2 →
    d.Lost (p.run s).2 ∨ Matched d (p.run s).2 (p'.run s').2 ∧ R (p.run s).1 (p'.run s').1

theorem Pairs.pure {a a' : α} (h : Matched d s s') (ha : R a a') :
    Pairs d (Pure.pure a) (Pure.pure a') s s' R := fun _ _ => .inr ⟨h, ha⟩

/-- Parsers after others; where the group is lost, it stays so. -/
theorem Pairs.bind_leads (h : Pairs d p p' s s' R)
    (hf : ∀ a a' u u', s.Leads u → s'.Leads u' → Matched d u u' → R a a' →
      Pairs d (f a) (f' a') u u' Q) : Pairs d (p >>= f) (p' >>= f') s s' Q := by
  intro hw hw'
  rcases h (hw.leads ((f _).leads _)) (hw'.leads ((f' _).leads _)) with hlost | ⟨hmatch, hr⟩
  · exact .inl (hlost.leads ((f _).leads _))
  · exact hf _ _ _ _ (p.leads s) (p'.leads s') hmatch hr hw hw'

theorem Pairs.bind (h : Pairs d p p' s s' R)
    (hf : ∀ a a' u u', Matched d u u' → R a a' → Pairs d (f a) (f' a') u u' Q) :
    Pairs d (p >>= f) (p' >>= f') s s' Q := h.bind_leads fun a a' u u' _ _ => hf a a' u u'

/-- Parsers after others whose answers are the same. -/
theorem Pairs.bind_eq (h : Pairs d p p' s s' (· = ·))
    (hf : ∀ a u u', Matched d u u' → Pairs d (f a) (f' a) u u' Q) :
    Pairs d (p >>= f) (p' >>= f') s s' Q := h.bind fun a _ u u' hu ha => ha ▸ hf a u u' hu

theorem Pairs.ite {c : Prop} [Decidable c] (hp : c → Pairs d p p' s s' R)
    (hq : ¬ c → Pairs d q q' s s' R) :
    Pairs d (if c then p else q) (if c then p' else q') s s' R := by
  by_cases hc : c
  · rw [if_pos hc, if_pos hc]
    exact hp hc
  · rw [if_neg hc, if_neg hc]
    exact hq hc

/-- Two branches that go on in the same way. -/
theorem Pairs.join {c : Prop} [Decidable c]
    (h : Pairs d (if c then p else q) (if c then p' else q') s s' R)
    (hf : ∀ a a' u u', Matched d u u' → R a a' → Pairs d (f a) (f' a') u u' Q) :
    Pairs d (if c then p >>= f else q >>= f) (if c then p' >>= f' else q' >>= f') s s' Q := by
  by_cases hc : c
  · rw [if_pos hc, if_pos hc] at h ⊢
    exact h.bind hf
  · rw [if_neg hc, if_neg hc] at h ⊢
    exact h.bind hf

/-- Loops with bounds: neither is cut off, or both are. -/
theorem Pairs.bounded {l k : Nat → Parser α} {n n' : Nat} {a a' : α} (h : Matched d s s')
    (hn : d.Bounds n n') (h0 : (l 0).run s = (a, { s with cutOff := true }))
    (h0' : (k 0).run s' = (a', { s' with cutOff := true })) (ha : R a a')
    (hs : ∀ m m', n = m + 1 → n' = m' + 1 → d.Bounds m m' →
      Pairs d (l (m + 1)) (k (m' + 1)) s s' R) : Pairs d (l n) (k n') s s' R := by
  intro hw hw'
  -- Where the bounds are not compared, neither of them is zero.
  have hfree : (∀ m m', d.Bounds m m') → (d.Whole { s with cutOff := true } → False) →
      (d.Whole { s' with cutOff := true } → False) →
      d.Lost ((l n).run s).2 ∨ Matched d ((l n).run s).2 ((k n').run s').2 ∧
        R ((l n).run s).1 ((k n').run s').1 := by
    intro hbounds hcut hcut'
    cases n with
    | zero =>
      rw [h0] at hw
      exact (hcut hw).elim
    | succ m =>
      cases n' with
      | zero =>
        rw [h0'] at hw'
        exact (hcut' hw').elim
      | succ m' => exact hs m m' rfl rfl (hbounds m m') hw hw'
  cases h with
  | places found ahead cutOff =>
    obtain rfl : n' = n := hn
    cases n' with
    | zero =>
      rw [h0, h0']
      exact .inr ⟨.places ⟨found.names, found.messages⟩ ahead rfl, ha⟩
    | succ m => exact hs m m rfl rfl rfl hw hw'
  | behind found ahead => exact hfree (fun _ _ => trivial) nofun nofun
  | past found ahead le => exact hfree (fun _ _ => trivial) nofun nofun
  | before found ahead ahead' unnoted => exact hfree (fun _ _ => trivial) nofun nofun

/-! ### Primitive steps -/

theorem Pairs.kind {f f' : TokenKind → Parser β} (h : Matched d s s')
    (hf : ∀ k, s.current.kind = k → Pairs d (f k) (f' k) s s' Q) :
    Pairs d (kind >>= f) (kind >>= f') s s' Q := by
  have hright : (Parser.kind >>= f').run s' = (f' s'.current.kind).run s' := rfl
  rw [h.kind] at hright
  unfold Pairs
  rw [hright]
  exact hf _ rfl

theorem Pairs.isAt {k : TokenKind} {f f' : Bool → Parser β} (h : Matched d s s')
    (hf : ∀ b, (b = true ↔ s.current.kind = k) → Pairs d (f b) (f' b) s s' Q) :
    Pairs d (isAt k >>= f) (isAt k >>= f') s s' Q := by
  have hright : (Parser.isAt k >>= f').run s' = (f' (decide (s'.current.kind = k))).run s' := rfl
  rw [h.kind] at hright
  unfold Pairs
  rw [hright]
  exact hf _ decide_eq_true_iff

theorem Pairs.isAtWord {word : String} {f f' : Bool → Parser β} (h : Matched d s s')
    (hf : ∀ b, Pairs d (f b) (f' b) s s' Q) :
    Pairs d (isAtWord word >>= f) (isAtWord word >>= f') s s' Q := by
  have hright : (Parser.isAtWord word >>= f').run s' = (f' (decide (s'.current.kind = .identifier) &&
      s'.current.text == word)).run s' := rfl
  rw [h.kind, h.text] at hright
  unfold Pairs
  rw [hright]
  exact hf _

theorem Pairs.state {f f' : ParserState → Parser β} (hf : Pairs d (f s) (f' s') s s' Q) :
    Pairs d (state >>= f) (state >>= f') s s' Q := hf

theorem Pairs.steps {f f' : Nat → Parser β}
    (hf : Pairs d (f (5 * s.remaining + 5)) (f' (5 * s'.remaining + 5)) s s' Q) :
    Pairs d (steps >>= f) (steps >>= f') s s' Q := hf

theorem Pairs.place {f f' : Span → Parser β} (hf : ∀ x x', Pairs d (f x) (f' x') s s' Q) :
    Pairs d (currentSpan >>= f) (currentSpan >>= f') s s' Q := hf _ _

theorem Pairs.spanFrom {start start' : Span} {f f' : Span → Parser β}
    (hf : ∀ x x', Pairs d (f x) (f' x') s s' Q) :
    Pairs d (spanFrom start >>= f) (spanFrom start' >>= f') s s' Q := hf _ _

theorem advance_pairs (h : Matched d s s') : Pairs d advance advance s s' fun _ _ => True :=
  fun _ _ => h.advance.imp_right fun h => ⟨h, trivial⟩

theorem eat_pairs (k : TokenKind) (h : Matched d s s') : Pairs d (eat k) (eat k) s s' (· = ·) := by
  rw [eat]
  refine .isAt h fun b _ => .ite (fun _ => ?_) fun _ => .pure h rfl
  exact (advance_pairs h).bind fun _ _ u u' hu _ => .pure hu rfl

theorem errorAt_pairs {place place' : Span} (message : String) (h : Matched d s s') :
    Pairs d (errorAt place message) (errorAt place' message) s s' fun _ _ => True := by
  refine fun _ _ => .inr ⟨h.finding ⟨h.findings.names, ?_⟩ rfl rfl rfl rfl rfl, trivial⟩
  have hmessages := h.findings.messages
  rw [ParserState.messages, ParserState.messages] at hmessages ⊢
  simp only [errorAt, Array.toList_push, List.map_append, hmessages, List.map_cons, List.map_nil,
    List.append_assoc]

theorem error_pairs (message : String) (h : Matched d s s') :
    Pairs d (error message) (error message) s s' fun _ _ => True := by
  rw [error]
  exact .place fun _ _ => errorAt_pairs message h

theorem expected_pairs (what : String) (h : Matched d s s') :
    Pairs d (expected what) (expected what) s s' fun _ _ => True := by
  rw [expected]
  refine .state ?_
  dsimp only
  rw [h.kind, h.text]
  exact errorAt_pairs _ h

theorem expect_pairs (k : TokenKind) (h : Matched d s s') :
    Pairs d (expect k) (expect k) s s' fun _ _ => True := by
  rw [expect]
  refine (eat_pairs k h).bind_eq fun b u u' hu => .ite (fun _ => .pure hu trivial) fun _ => ?_
  exact expected_pairs _ hu

theorem intern_pairs (text : String) (h : Matched d s s') :
    Pairs d (intern text) (intern text) s s' (· = ·) := by
  refine fun _ _ => .inr ⟨h.finding ⟨?_, h.findings.messages⟩ rfl rfl rfl rfl rfl, ?_⟩
  · show (s'.names.intern text).2 = (s.names.intern text).2
    rw [h.findings.names]
  · show (s.names.intern text).1 = (s'.names.intern text).1
    rw [h.findings.names]

theorem identifier_pairs (h : Matched d s s') :
    Pairs d identifier identifier s s' (· = ·) := by
  rw [identifier]
  refine .state ?_
  dsimp only
  rw [h.kind, h.text]
  refine .ite (fun _ => ?_) fun _ => ?_
  · refine (intern_pairs _ h).bind_eq fun n u u' hu => ?_
    exact (advance_pairs hu).bind fun _ _ v v' hv _ => .pure hv rfl
  · exact (expected_pairs _ h).bind fun _ _ u u' hu _ => intern_pairs _ hu

/-! ### Groups -/

theorem skipGroup_pairs {opening closing : TokenKind} {start start' : Span} (n n' depth : Nat)
    {s s' : ParserState} (h : Matched d s s') (hn : d.Bounds n n') :
    Pairs d (skipGroup opening closing start n depth) (skipGroup opening closing start' n' depth)
      s s' fun _ _ => True := by
  refine .bounded (l := fun n => skipGroup opening closing start n depth)
    (k := fun n => skipGroup opening closing start' n depth) h hn rfl rfl trivial
    fun m m' hm hm' hb => ?_
  have hnext : ∀ depth, Pairs d (Parser.advance >>= fun _ => skipGroup opening closing start m depth)
      (Parser.advance >>= fun _ => skipGroup opening closing start' m' depth) s s'
      fun _ _ => True := fun depth =>
    (advance_pairs h).bind fun _ _ u u' hu _ => skipGroup_pairs m m' depth hu hb
  unfold skipGroup
  refine .kind h fun k _ => .ite (fun _ => errorAt_pairs _ h) fun _ => ?_
  refine .ite (fun _ => hnext _) fun _ => .ite (fun _ => ?_) fun _ => hnext _
  cases depth with
  | zero => exact (advance_pairs h).bind fun _ _ u u' hu _ => .pure hu trivial
  | succ depth => exact hnext depth
  termination_by n

/-- A parser that is not cut off has stepped over a group of words: what follows is ahead, and nothing
    is found. -/
theorem skipGroup_inner {opening closing : TokenKind} (start : Span) (hne : opening ≠ closing)
    (heof : closing ≠ .eof) (n depth : Nat) {s : ParserState} {closer : Word}
    (hclose : closer.1 = closing) {inner after : List Word}
    (hb : Balanced opening closing depth inner) (hs : s.ahead = inner ++ closer :: after) :
    (skipGroup opening closing start n depth).Gives s fun _ u => u.cutOff = false →
      u.ahead = after ∧ u.names = s.names ∧ u.errors = s.errors := by
  induction n generalizing depth s inner with
  | zero => exact Gives.cutOff fun h => by cases h
  | succ n ih =>
    unfold skipGroup
    rw [gives_kind, ParserState.current_kind, hs]
    -- One word of the group is stepped over, at the depth that it leads to.
    have hnext : ∀ (depth : Nat) (w : Word) (inner : List Word), w.1 ≠ .eof →
        s.ahead = w :: (inner ++ closer :: after) → Balanced opening closing depth inner →
        (Parser.advance >>= fun _ => skipGroup opening closing start n depth).Gives s fun _ u =>
          u.cutOff = false → u.ahead = after ∧ u.names = s.names ∧ u.errors = s.errors := by
      intro depth w inner hw hs hb
      have hrest := ih depth hb (ParserState.ahead_advance hs hw)
      rw [ParserState.names_advance, ParserState.errors_advance] at hrest
      exact hrest
    cases inner with
    | nil =>
      -- No words are left, so the group is closed by the word that follows.
      obtain rfl := hb.depth_nil
      show Gives (if closer.1 = .eof then _ else if closer.1 = opening then _ else
        if closer.1 = closing then _ else _) s _
      rw [if_neg (by rwa [hclose]), if_neg (by rw [hclose]; exact hne.symm), if_pos hclose]
      refine fun _ => ⟨ParserState.ahead_advance hs (by rwa [hclose]), ?_, ?_⟩
      · exact ParserState.names_advance s
      · exact ParserState.errors_advance s
    | cons w inner =>
      have hw := hb.head_ne_eof
      show Gives (if w.1 = .eof then _ else if w.1 = opening then _ else
        if w.1 = closing then _ else _) s _
      rw [if_neg hw]
      split
      · rename_i hopen
        exact hnext (depth + 1) w inner hw hs (hb.tail (by
          rw [if_pos hopen, if_neg (by rw [hopen]; exact hne)]))
      · rename_i hopen
        split
        · rename_i hclosing
          have hpos := hb.depth_pos hclosing hne
          obtain ⟨depth, rfl⟩ := Nat.exists_eq_succ_of_ne_zero (Nat.ne_of_gt hpos)
          exact hnext depth w inner hw hs (hb.tail (by rw [if_pos hclosing, if_neg hopen]))
        · rename_i hclosing
          exact hnext depth w inner hw hs (hb.tail (by rw [if_neg hclosing, if_neg hopen]))

theorem noteGroup_pairs (h : Matched d s s')
    (hne : ∀ g noted, d = .inside g noted → s.remaining ≠ g.words.length) :
    Pairs d noteGroup noteGroup s s' fun _ _ => True := by
  refine fun _ _ => .inr ⟨?_, trivial⟩
  cases h with
  | places found ahead cutOff => exact .places ⟨found.names, found.messages⟩ ahead cutOff
  | behind found ahead => exact .behind ⟨found.names, found.messages⟩ ahead
  | past found ahead le => exact .past ⟨found.names, found.messages⟩ ahead le
  | before found ahead ahead' unnoted =>
    obtain ⟨more, hgroups, hmore⟩ := unnoted
    refine .before ⟨found.names, found.messages⟩ ahead ahead' ⟨s.remaining :: more, ?_, ?_⟩
    · exact congrArg (s.remaining :: ·) hgroups
    · intro hmem
      rcases List.mem_cons.1 hmem with heq | hmem
      · exact hne _ _ rfl heq.symm
      · exact hmore hmem

theorem TokenKind.closing?_ne {opening closing : TokenKind} (h : opening.closing? = some closing) :
    opening ≠ closing ∧ closing ≠ .eof := by
  cases opening <;> cases h <;> decide

/-- The group itself: both runs step over it, whatever stands inside. -/
theorem skipBalanced_group {g : GroupChange} {noted : List Nat} {start start' : Span}
    (h : Matched (.inside g noted) s s')
    (hs : s.ahead = g.words) (hs' : s'.ahead = g.words') :
    let skip (start : Span) : Parser Unit := do
      noteGroup
      advance
      skipGroup g.opener.1 g.closer.1 start ((← state).remaining + 1) 0
    Pairs (.inside g noted) (skip start) (skip start') s s' fun _ _ => True := by
  obtain ⟨hne, heof⟩ := TokenKind.closing?_ne g.pair
  intro skip hw hw'
  -- From the opening bracket, each run comes to what stands behind the group.
  have hinner : ∀ (start : Span) (s : ParserState) (inner : List Word),
      Balanced g.opener.1 g.closer.1 0 inner →
      s.ahead = g.opener :: (inner ++ g.closer :: g.after) →
      (skip start).Gives s fun _ u => u.cutOff = false →
        u.ahead = g.after ∧ u.names = s.names ∧ u.errors = s.errors := by
    intro start s inner hb hs
    have hrest := ParserState.ahead_advance (s := { s with groups := s.remaining :: s.groups }) hs
      (Matched.opener_ne_eof g)
    have hskip := skipGroup_inner start hne heof
      (({ s with groups := s.remaining :: s.groups } : ParserState).advance.remaining + 1) 0 rfl hb
      hrest
    rw [ParserState.names_advance, ParserState.errors_advance] at hskip
    exact hskip
  obtain ⟨hahead, hnames, herrors⟩ := hinner start s g.inner g.balanced hs hw
  obtain ⟨hahead', hnames', herrors'⟩ := hinner start' s' g.inner' g.balanced' hs' hw'
  refine .inr ⟨.past ⟨?_, ?_⟩ (hahead'.trans hahead.symm) ?_, trivial⟩
  · rw [hnames, hnames', h.findings.names]
  · rw [ParserState.messages, ParserState.messages, herrors, herrors']
    exact h.findings.messages
  · exact Nat.le_of_eq (by rw [ParserState.remaining_eq_length, hahead])

theorem skipBalanced_pairs {opening closing : TokenKind} (hpair : opening.closing? = some closing)
    (h : Matched d s s') :
    Pairs d (skipBalanced opening closing) (skipBalanced opening closing) s s' fun _ _ => True := by
  rw [skipBalanced]
  refine .place fun start start' => .isAt h fun b hb => .ite (fun hat => ?_) fun _ =>
    expected_pairs _ h
  rcases h.atGroup with hother | ⟨g, noted, rfl, hs, hs'⟩
  · refine (noteGroup_pairs h hother).bind fun _ _ u u' hu _ => ?_
    refine (advance_pairs hu).bind fun _ _ v v' hv _ => .state ?_
    exact skipGroup_pairs _ _ 0 hv (hv.bounds.map (· + 1))
  · have hopening : g.opener.1 = opening := by
      rw [← hb.1 hat, ParserState.current_kind, hs]
      rfl
    subst hopening
    obtain rfl := Option.some.inj (g.pair.symm.trans hpair)
    exact skipBalanced_group h hs hs'

theorem skipParens_pairs (h : Matched d s s') :
    Pairs d skipParens skipParens s s' fun _ _ => True := skipBalanced_pairs rfl h

theorem skipBraces_pairs (h : Matched d s s') :
    Pairs d skipBraces skipBraces s s' fun _ _ => True := skipBalanced_pairs rfl h

/-! ### Paths and annotations -/

theorem Pairs.annotated {f f' : Bool → Parser β} (h : Matched d s s')
    (hf : ∀ b, (b = true → s.current.kind = .atSign) → Pairs d (f b) (f' b) s s' Q) :
    Pairs d ( isAtAnnotation >>= f) ( isAtAnnotation >>= f') s s' Q := by
  have hright : ( isAtAnnotation >>= f').run s' = (f' (decide (s'.current.kind = .atSign) &&
      decide (s'.peek 1 ≠ .kwInterface))).run s' := rfl
  rw [h.and_peek rfl fun k => decide (k ≠ .kwInterface)] at hright
  unfold Pairs
  rw [hright]
  exact hf _ fun hb => of_decide_eq_true (Bool.and_eq_true_iff.1 hb).1

theorem Pairs.isAtDimension {f f' : Bool → Parser β} (h : Matched d s s')
    (hf : ∀ b, Pairs d (f b) (f' b) s s' Q) :
    Pairs d (isAtDimension >>= f) (isAtDimension >>= f') s s' Q := by
  have hright : (Parser.isAtDimension >>= f').run s' = (f' (decide (s'.current.kind = .leftBracket) &&
      decide (s'.peek 1 = .rightBracket))).run s' := rfl
  rw [h.and_peek rfl fun k => decide (k = .rightBracket)] at hright
  unfold Pairs
  rw [hright]
  exact hf _

/-- Whether the word at hand and the one after it have some kinds. -/
theorem Pairs.kindThen {c : TokenKind} (hc : c.closing? = none) (p : TokenKind → Bool)
    {f g : Bool → Parser β} (h : Matched d s s')
    (hf : ∀ b, Pairs d (f b) (g b) s s' Q) :
    Pairs d (Parser.kind >>= fun k => peek 1 >>= fun next => f (decide (k = c) && p next))
      (Parser.kind >>= fun k => peek 1 >>= fun next => g (decide (k = c) && p next)) s s' Q := by
  have hright : (Parser.kind >>= fun k => peek 1 >>= fun next => g (decide (k = c) && p next)).run s' =
      (g (decide (s'.current.kind = c) && p (s'.peek 1))).run s' := rfl
  rw [h.and_peek hc p] at hright
  unfold Pairs
  rw [hright]
  exact hf _

/-- The same, the word after being looked at first. -/
theorem Pairs.isAtThen {c : TokenKind} (hc : c.closing? = none) (p : TokenKind → Bool)
    {f g : Bool → Parser β} (h : Matched d s s')
    (hf : ∀ b, Pairs d (f b) (g b) s s' Q) :
    Pairs d (peek 1 >>= fun next => Parser.isAt c >>= fun b => f (b && p next))
      (peek 1 >>= fun next => Parser.isAt c >>= fun b => g (b && p next)) s s' Q :=
  Pairs.kindThen hc p h hf

theorem pathSegments_pairs (n n' : Nat) {s s' : ParserState} (h : Matched d s s')
    (hn : d.Bounds n n') : Pairs d (pathSegments n) (pathSegments n') s s' (· = ·) := by
  refine .bounded h hn rfl rfl rfl fun m m' hm hm' hb => ?_
  rw [pathSegments, pathSegments]
  refine .kindThen (c := .dot) rfl (fun k => decide (k = .identifier)) (f := fun b => if b then _ else _)
    (g := fun b => if b then _ else _) h fun b => .ite (fun _ => ?_) fun _ => .pure h rfl
  refine (advance_pairs h).bind fun _ _ u u' hu _ => (identifier_pairs hu).bind_eq fun n v v' hv => ?_
  exact (pathSegments_pairs m m' hv hb).bind_eq fun ns w w' hw => .pure hw rfl
  termination_by n

theorem path_pairs (h : Matched d s s') :
    Pairs d path path s s' fun p p' => p.segments = p'.segments := by
  rw [path]
  refine .place fun _ _ => (identifier_pairs h).bind_eq fun n u u' hu => .state ?_
  refine (pathSegments_pairs _ _ hu hu.bounds).bind_eq fun ns v v' hv => .spanFrom fun _ _ => ?_
  exact .pure hv rfl

theorem skipArguments_pairs (h : Matched d s s') :
    Pairs d skipArguments skipArguments s s' fun _ _ => True := by
  rw [skipArguments]
  exact .isAt h fun b _ => .ite (fun _ => skipParens_pairs h) fun _ => .pure h trivial

theorem skipAnnotation_pairs (h : Matched d s s') :
    Pairs d skipAnnotation skipAnnotation s s' fun _ _ => True := by
  rw [ skipAnnotation]
  refine (expect_pairs _ h).bind fun _ _ u u' hu _ => (path_pairs hu).bind fun _ _ v v' hv _ => ?_
  exact skipArguments_pairs hv

theorem skipAnnotationsUpTo_pairs (n n' : Nat) {s s' : ParserState} (h : Matched d s s')
    (hn : d.Bounds n n') :
    Pairs d (skipAnnotationsUpTo n) (skipAnnotationsUpTo n') s s' fun _ _ => True := by
  refine .bounded h hn rfl rfl trivial fun m m' hm hm' hb => ?_
  rw [skipAnnotationsUpTo, skipAnnotationsUpTo]
  refine .annotated h fun b _ => .ite (fun _ => ?_) fun _ => .pure h trivial
  exact (skipAnnotation_pairs h).bind fun _ _ u u' hu _ => skipAnnotationsUpTo_pairs m m' hu hb
  termination_by n

theorem skipAnnotations_pairs (h : Matched d s s') :
    Pairs d skipAnnotations skipAnnotations s s' fun _ _ => True := by
  rw [skipAnnotations]
  exact .state (skipAnnotationsUpTo_pairs _ _ h h.bounds)

end Parser

end JavaAbi
