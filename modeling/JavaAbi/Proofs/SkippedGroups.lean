import JavaAbi.Proofs.PairedUnits

namespace JavaAbi

/-!
# Groups that are stepped over

What stands inside a group that a file's parser steps over decides nothing: not the unit, but for
places, not the names, and not the messages.

Two runs on files that differ inside a group stay matched unless the first one loses the group, that
is, consumes its opening delimiter in another way than stepping over it. A group that is lost is
never noted, with one exception to rule out: annotations that no `package` follows are read twice, and
a group may be noted by one reading and lost by the other. But the second reading takes the same
steps.

* `ParserState.Retraces`, `Parser.Retraced` — two readings of the same tokens;
* `Parser.afterHeader_again` — annotations read again as those of a declaration;
* `unit_of_skipped` — the unit does not depend on what stands inside.
-/

namespace ParserState

/-- Two readings have consumed the same tokens, and stepped over the same groups. The second one
    interns nothing if the names of the first one are known. -/
structure Retraces (s u s' u' : ParserState) : Prop where
  names : u.names.Le s'.names → u'.names = s'.names
  tokens : u'.tokens = u.tokens
  groups : ∃ more, u.groups = more ++ s.groups ∧ u'.groups = more ++ s'.groups

variable {s u v s' u' v' : ParserState}

theorem Retraces.refl (h : s'.tokens = s.tokens) : Retraces s s s' s' :=
  ⟨fun _ => rfl, h, [], rfl, rfl⟩

theorem Retraces.trans (h : Retraces s u s' u') (h' : Retraces u v u' v') (hl : u.names.Le v.names) :
    Retraces s v s' v' := by
  obtain ⟨more, hu, hu'⟩ := h.groups
  obtain ⟨more', hv, hv'⟩ := h'.groups
  refine ⟨fun hknown => ?_, h'.tokens, more' ++ more, ?_, ?_⟩
  · have hu' := h.names (hl.trans hknown)
    rw [h'.names (hu'.symm ▸ hknown), hu']
  · rw [hv, hu, List.append_assoc]
  · rw [hv', hu', List.append_assoc]

theorem current_of_tokens (h : s'.tokens = s.tokens) : s'.current = s.current := by
  rw [current, current, h]

theorem peek_of_tokens (h : s'.tokens = s.tokens) (n : Nat) : s'.peek n = s.peek n := by
  rw [peek, peek, h]

theorem remaining_of_tokens (h : s'.tokens = s.tokens) : s'.remaining = s.remaining := by
  rw [remaining, remaining, h]

theorem tokens_advance_of_tokens (h : s'.tokens = s.tokens) :
    s'.advance.tokens = s.advance.tokens := by
  have hadvance : ∀ s : ParserState, s.advance.tokens =
      if s.current.kind = .eof then s.tokens else s.tokens.tail := by
    intro s
    unfold advance current
    split
    · rename_i htokens
      rw [htokens]
      exact (ite_self _).symm
    · rename_i t rest htokens
      have hhead : (s.tokens.headD ⟨.eof, "", .nowhere⟩).kind = t.kind := by rw [htokens]; rfl
      rw [hhead]
      split
      · rfl
      · exact (congrArg List.tail htokens).symm
  rw [hadvance, hadvance, h, current_of_tokens h]

end ParserState

namespace Parser

variable {α β γ δ : Type} {p : Parser α} {p' : Parser β} {s s' : ParserState}

/-- From states with the same tokens ahead, two parsers consume the same. -/
def Retraced (p : Parser α) (p' : Parser β) (s s' : ParserState) : Prop :=
  s.Retraces (p.run s).2 s' (p'.run s').2

/-! ### Rules -/

/-- Parsers that consume nothing. -/
theorem Retraced.still (h : s'.tokens = s.tokens)
    (hn : (p'.run s').2.names = s'.names)
    (hp : (p.run s).2.tokens = s.tokens ∧ (p.run s).2.groups = s.groups)
    (hp' : (p'.run s').2.tokens = s'.tokens ∧ (p'.run s').2.groups = s'.groups) :
    Retraced p p' s s' := ⟨fun _ => hn, by rw [hp.1, hp'.1, h], [], hp.2, hp'.2⟩

theorem Retraced.pure {a : α} {b : β} (h : s'.tokens = s.tokens) :
    Retraced (Pure.pure a : Parser α) (Pure.pure b : Parser β) s s' :=
  .still h rfl ⟨rfl, rfl⟩ ⟨rfl, rfl⟩

theorem Retraced.bind {f : α → Parser γ} {f' : β → Parser δ} (h : Retraced p p' s s')
    (hf : ∀ a b u u', u'.tokens = u.tokens → Retraced (f a) (f' b) u u') :
    Retraced (p >>= f) (p' >>= f') s s' := h.trans (hf _ _ _ _ h.tokens) ((f _).leads _).names

theorem Retraced.ite {c : Prop} [Decidable c] {q : Parser α} {q' : Parser β}
    (hp : Retraced p p' s s') (hq : Retraced q q' s s') :
    Retraced (if c then p else q) (if c then p' else q') s s' := by
  split
  · exact hp
  · exact hq

theorem Retraced.isAt {k : TokenKind} {f : Bool → Parser α} {f' : Bool → Parser β}
    (h : s'.tokens = s.tokens) (hf : ∀ b, Retraced (f b) (f' b) s s') :
    Retraced (isAt k >>= f) (isAt k >>= f') s s' := by
  have hright : (Parser.isAt k >>= f').run s' = (f' (decide (s'.current.kind = k))).run s' := rfl
  rw [ParserState.current_of_tokens h] at hright
  rw [Retraced, hright]
  exact hf _

theorem Retraced.kind {f : TokenKind → Parser α} {f' : TokenKind → Parser β}
    (h : s'.tokens = s.tokens) (hf : ∀ k, Retraced (f k) (f' k) s s') :
    Retraced (kind >>= f) (kind >>= f') s s' := by
  have hright : (Parser.kind >>= f').run s' = (f' s'.current.kind).run s' := rfl
  rw [ParserState.current_of_tokens h] at hright
  rw [Retraced, hright]
  exact hf _

theorem Retraced.state {f : ParserState → Parser α} {f' : ParserState → Parser β}
    (hf : Retraced (f s) (f' s') s s') : Retraced (state >>= f) (state >>= f') s s' := hf

theorem Retraced.place {f : Span → Parser α} {f' : Span → Parser β}
    (hf : ∀ x x', Retraced (f x) (f' x') s s') :
    Retraced (currentSpan >>= f) (currentSpan >>= f') s s' := hf _ _

/-! ### What annotations are read by -/

theorem advance_retraced (h : s'.tokens = s.tokens) : Retraced advance advance s s' := by
  refine ⟨fun _ => ParserState.names_advance s', ParserState.tokens_advance_of_tokens h, [], ?_, ?_⟩
  · exact Matched.groups_advance s
  · exact Matched.groups_advance s'

theorem expect_retraced {k : TokenKind} (h : s'.tokens = s.tokens) :
    Retraced (expect k) (expect k) s s' := by
  have hrun : ∀ s, (expect k).run s =
      (if s.current.kind = k then Parser.advance else expected k.label).run s := by
    intro s
    rw [expect]
    show (if ((eat k).run s).1 = true then Pure.pure PUnit.unit else expected k.label).run
      ((eat k).run s).2 = _
    rw [run_eat]
    split <;> rfl
  rw [Retraced, hrun, hrun, ParserState.current_of_tokens h]
  exact Retraced.ite (advance_retraced h) (.still h rfl ⟨rfl, rfl⟩ ⟨rfl, rfl⟩)

theorem intern_retraced (text : String) (h : s'.tokens = s.tokens) :
    Retraced (intern text) (intern text) s s' := by
  refine ⟨fun hknown => ?_, h, [], rfl, rfl⟩
  have hresolves := hknown _ _ (s.names.resolve?_intern text)
  show (s'.names.intern text).2 = s'.names
  rw [NameTable.intern_of_resolve? hresolves]

theorem identifier_retraced (h : s'.tokens = s.tokens) : Retraced identifier identifier s s' := by
  rw [identifier]
  refine .state ?_
  dsimp only
  rw [ParserState.current_of_tokens h]
  have hmissing : Retraced (expected "identifier") (expected "identifier") s s' :=
    .still h rfl ⟨rfl, rfl⟩ ⟨rfl, rfl⟩
  refine .ite ?_ (hmissing.bind fun _ _ u u' hu => intern_retraced _ hu)
  refine (intern_retraced _ h).bind fun _ _ u u' hu => ?_
  exact (advance_retraced hu).bind fun _ _ v v' hv => .pure hv

theorem pathSegments_retraced (n : Nat) (h : s'.tokens = s.tokens) :
    Retraced (pathSegments n) (pathSegments n) s s' := by
  induction n generalizing s s' with
  | zero => exact .still h rfl ⟨rfl, rfl⟩ ⟨rfl, rfl⟩
  | succ n ih =>
    rw [pathSegments]
    refine .kind h fun k => ?_
    have hright : ∀ f : TokenKind → Parser (List Name),
        (peek 1 >>= f).run s' = (f (s.peek 1)).run s' := fun f => by
      rw [← ParserState.peek_of_tokens h]
      rfl
    rw [Retraced, hright]
    refine Retraced.ite ?_ (.pure h)
    refine (advance_retraced h).bind fun _ _ u u' hu => ?_
    refine (identifier_retraced hu).bind fun _ _ v v' hv => ?_
    exact (ih hv).bind fun _ _ w w' hw => .pure hw

theorem path_retraced (h : s'.tokens = s.tokens) : Retraced path path s s' := by
  rw [path]
  refine .place fun _ _ => (identifier_retraced h).bind fun _ _ u u' hu => .state ?_
  rw [ParserState.remaining_of_tokens hu]
  exact (pathSegments_retraced _ hu).bind fun _ _ v v' hv => .still hv rfl ⟨rfl, rfl⟩ ⟨rfl, rfl⟩

theorem skipGroup_retraced {opening closing : TokenKind} {start start' : Span} (n depth : Nat)
    (h : s'.tokens = s.tokens) : Retraced (skipGroup opening closing start n depth)
      (skipGroup opening closing start' n depth) s s' := by
  induction n generalizing depth s s' with
  | zero => exact .still h rfl ⟨rfl, rfl⟩ ⟨rfl, rfl⟩
  | succ n ih =>
    have hnext : ∀ depth, Retraced (Parser.advance >>= fun _ => skipGroup opening closing start n depth)
        (Parser.advance >>= fun _ => skipGroup opening closing start' n depth) s s' := fun depth =>
      (advance_retraced h).bind fun _ _ u u' hu => ih depth hu
    unfold skipGroup
    refine .kind h fun k => .ite (.still h rfl ⟨rfl, rfl⟩ ⟨rfl, rfl⟩) (.ite (hnext _) (.ite ?_ (hnext _)))
    cases depth with
    | zero => exact (advance_retraced h).bind fun _ _ u u' hu => .pure hu
    | succ depth => exact hnext depth

theorem skipParens_retraced (h : s'.tokens = s.tokens) : Retraced skipParens skipParens s s' := by
  rw [skipParens, skipBalanced]
  refine .place fun start start' => .isAt h fun b => .ite ?_ (.still h rfl ⟨rfl, rfl⟩ ⟨rfl, rfl⟩)
  have hnote : Retraced noteGroup noteGroup s s' :=
    ⟨fun _ => rfl, h, [s.remaining], rfl, by rw [← ParserState.remaining_of_tokens h]; rfl⟩
  refine hnote.bind fun _ _ u u' hu => (advance_retraced hu).bind fun _ _ v v' hv => .state ?_
  rw [ParserState.remaining_of_tokens hv]
  exact skipGroup_retraced _ 0 hv

theorem skipAnnotation_retraced (h : s'.tokens = s.tokens) :
    Retraced skipAnnotation skipAnnotation s s' := by
  rw [ skipAnnotation]
  refine (expect_retraced h).bind fun _ _ u u' hu => (path_retraced hu).bind fun _ _ v v' hv => ?_
  rw [skipArguments]
  exact .isAt hv fun b => .ite (skipParens_retraced hv) (.pure hv)

/-! ### Annotations read again -/

theorem run_isAt {f : Bool → Parser α} {k : TokenKind} (hk : s.current.kind ≠ k) :
    ( isAt k >>= f).run s = (f false).run s := by
  have hright : (isAt k >>= f).run s = (f (decide (s.current.kind = k))).run s := rfl
  rw [hright, decide_eq_false hk]

theorem run_bind {β : Type} (p : Parser β) (f : β → Parser α) (s : ParserState) :
    (p >>= f).run s = (f (p.run s).1).run (p.run s).2 := rfl

theorem run_bind_eat (k : TokenKind) (f : Bool → Parser α) (s : ParserState) :
    (eat k >>= f).run s =
      if s.current.kind = k then (f true).run s.advance else (f false).run s := by
  rw [run_bind, run_eat]
  split <;> rfl

theorem run_bind_state (f : ParserState → Parser α) (s : ParserState) :
    (state >>= f).run s = (f s).run s := rfl

/-- Whether an annotation stands here. -/
def isAnnotated (s : ParserState) : Bool :=
  s.current.kind = .atSign && s.peek 1 ≠ .kwInterface

theorem run_isAtAnnotation {f : Bool → Parser α} (h : s'.tokens = s.tokens) :
    ( isAtAnnotation >>= f).run s' = (f (isAnnotated s)).run s' := by
  rw [isAnnotated, ← ParserState.current_of_tokens h, ← ParserState.peek_of_tokens h]
  rfl

/-- Modifiers that start where annotations do start with these. -/
theorem modifiersAfter_skips (n : Nat) (found : List Modifier) (s : ParserState) :
    ∃ m, (modifiersAfter n found).run s =
      (modifiersAfter m found).run ((skipAnnotationsUpTo n).run s).2 := by
  induction n generalizing s with
  | zero => exact ⟨0, rfl⟩
  | succ n ih =>
    rw [skipAnnotationsUpTo, run_isAtAnnotation rfl]
    cases hat : isAnnotated s with
    | true =>
      obtain ⟨m, hm⟩ := ih ( skipAnnotation.run s).2
      refine ⟨m, ?_⟩
      rw [modifiersAfter, run_isAtAnnotation rfl, hat]
      exact hm
    | false => exact ⟨n + 1, rfl⟩

theorem skipAnnotationsUpTo_retraced (n : Nat) (h : s'.tokens = s.tokens) :
    Retraced (skipAnnotationsUpTo n) (skipAnnotationsUpTo n) s s' := by
  induction n generalizing s s' with
  | zero => exact .still h rfl ⟨rfl, rfl⟩ ⟨rfl, rfl⟩
  | succ n ih =>
    rw [skipAnnotationsUpTo, Retraced, run_isAtAnnotation h, run_isAtAnnotation rfl]
    cases isAnnotated s with
    | true => exact (skipAnnotation_retraced h).bind fun _ _ u u' hu => ih hu
    | false => exact .refl h

theorem skipAnnotations_retraced (h : s'.tokens = s.tokens) :
    Retraced skipAnnotations skipAnnotations s s' := by
  rw [skipAnnotations]
  refine .state ?_
  rw [ParserState.remaining_of_tokens h]
  exact skipAnnotationsUpTo_retraced _ h

/-- A file without a `package` is read from where annotations before it were looked for. -/
theorem packageHeader_none (hnone : (packageHeader.run s).1 = none) :
    (packageHeader.run s).2 = (skipAnnotations.run s).2 := by
  have hrun : packageHeader.run s =
      (if decide ((skipAnnotations.run s).2.current.kind = .kwPackage) = true then
        packageDecl >>= fun p => Pure.pure (some p)
      else Pure.pure none).run (skipAnnotations.run s).2 := rfl
  rw [hrun] at hnone ⊢
  split
  · rename_i hat
    rw [if_pos hat] at hnone
    cases hnone
  · rfl

/-- A file without imports. -/
theorem run_afterHeader {start : Span} {package : Option PackageDecl}
    (himport : s.current.kind ≠ .kwImport) (hr : s.remaining ≠ 0) :
    (afterHeader start package).run s =
      (⟨package, [], ((topLevel s.remaining).run s).1,
        start.cover ((topLevel s.remaining).run s).2.current.span⟩,
        ((topLevel s.remaining).run s).2) := by
  have himports : (imports s.remaining).run s = ([], s) := by
    obtain ⟨n, hn⟩ := Nat.exists_eq_succ_of_ne_zero hr
    rw [hn, imports, run_isAt himport]
    rfl
  have hrun : (afterHeader start package).run s =
      ((fun is => state >>= fun u => topLevel u.remaining >>= fun types => currentSpan >>= fun stop =>
        Pure.pure ⟨package, is, types, start.cover stop⟩ : List ImportDecl → Parser CompilationUnit)
          ((imports s.remaining).run s).1).run ((imports s.remaining).run s).2 := rfl
  rw [hrun, himports]
  rfl

theorem remaining_ne_zero (heof : s.current.kind ≠ .eof) : s.remaining ≠ 0 := fun hzero => by
  have := remaining_advance heof
  omega

/-- A file that starts with an annotation has no imports. -/
theorem afterHeader_leads {start : Span} {v : ParserState} (hat : s.current.kind = .atSign)
    (hv : v.Leads (modifiers.run s).2) : v.Leads ((afterHeader start none).run s).2 := by
  have hkinds : ∀ k, k ≠ .atSign → s.current.kind ≠ k := fun k hk h => hk (h.symm.trans hat)
  have hr := remaining_ne_zero (hkinds .eof (by decide))
  rw [run_afterHeader (hkinds .kwImport (by decide)) hr]
  obtain ⟨n, hn⟩ := Nat.exists_eq_succ_of_ne_zero hr
  rw [hn, topLevel, run_isAt (hkinds .eof (by decide))]
  show v.Leads ((eat .semicolon >>= _).run s).2
  rw [run_bind_eat, if_neg (hkinds .semicolon (by decide))]
  exact hv.trans (Parser.leads _ _)

/-- What follows annotations without a `package` starts with the annotations. -/
theorem afterHeader_again {start : Span} (hnone : (packageHeader.run s).1 = none)
    (h : s'.tokens = s.tokens) : ∃ v, s.Retraces (packageHeader.run s).2 s' v ∧
      v.Leads ((afterHeader start none).run s').2 := by
  rw [packageHeader_none hnone]
  show ∃ v, s.Retraces ((skipAnnotationsUpTo s.remaining).run s).2 s' v ∧ _
  cases hat : isAnnotated s with
  | true =>
    obtain ⟨m, hm⟩ := modifiersAfter_skips s.remaining [] s'
    have hkind : s'.current.kind = .atSign := by
      rw [ParserState.current_of_tokens h]
      exact of_decide_eq_true (Bool.and_eq_true_iff.1 hat).1
    refine ⟨_, skipAnnotationsUpTo_retraced s.remaining h, afterHeader_leads hkind ?_⟩
    show ParserState.Leads _ ((modifiersAfter s'.remaining []).run s').2
    rw [ParserState.remaining_of_tokens h, hm]
    exact Parser.leads _ _
  | false =>
    refine ⟨s', ?_, Parser.leads _ s'⟩
    cases s.remaining with
    | zero => exact ⟨fun _ => rfl, h, [], rfl, rfl⟩
    | succ n =>
      rw [skipAnnotationsUpTo, run_isAtAnnotation rfl, hat]
      exact .refl h

/-! ### Two runs over a file -/

theorem run_orBack {α : Type} (p : Parser (Option α)) (s : ParserState) :
    (orBack p).run s =
      ((p.run s).1, if (p.run s).1.isSome then (p.run s).2 else s.keepFindings (p.run s).2) := by
  unfold orBack
  dsimp only
  split <;> rename_i hrun <;> rw [hrun] <;> rfl

theorem run_unit (s : ParserState) : unit.run s =
    (afterHeader s.current.span (packageHeader.run s).1).run
      (if (packageHeader.run s).1.isSome then (packageHeader.run s).2
        else s.keepFindings (packageHeader.run s).2) := by
  rw [unit, run_bind, run_bind, run_orBack]
  rfl

/-- Groups that annotations without a `package` contain are noted again, and none is lost. -/
theorem unnoted_again {g : GroupChange} (hnone : (packageHeader.run s).1 = none)
    (hfresh : g.words.length ∉ s.groups) {start : Span} {u : ParserState}
    (hu : u = ((afterHeader start none).run (s.keepFindings (packageHeader.run s).2)).2)
    (hlost : g.Lost s.groups (packageHeader.run s).2 ∨
      g.Lost (s.keepFindings (packageHeader.run s).2).groups u) : g.words.length ∉ u.groups := by
  obtain ⟨v, ⟨-, htokens, more, hgroups, hagain⟩, hleads⟩ := @afterHeader_again s
    (s.keepFindings (packageHeader.run s).2) start hnone rfl
  rw [← hu] at hleads
  obtain ⟨later, hlater, hle⟩ := hleads.groups
  have hback : (s.keepFindings (packageHeader.run s).2).groups = more ++ s.groups := hgroups
  have hmore : g.words.length ∉ more ∧ g.words.length ∉ later := by
    rcases hlost with ⟨⟨found, hfound, hnot⟩, hpast⟩ | ⟨⟨found, hfound, hnot⟩, -⟩
    · rw [hgroups] at hfound
      refine ⟨List.append_cancel_right hfound ▸ hnot, fun hmem => ?_⟩
      have := hle _ hmem
      rw [ParserState.remaining_of_tokens htokens] at this
      omega
    · rw [hlater, hagain, ← List.append_assoc] at hfound
      have := List.append_cancel_right hfound ▸ hnot
      exact ⟨fun hmem => this (List.mem_append_right _ hmem), fun hmem =>
        this (List.mem_append_left _ hmem)⟩
  rw [hlater, hagain, hback]
  simp only [List.mem_append, hmore.1, hmore.2, hfresh, or_self, not_false_eq_true]

/-- Two runs over files that differ inside a group come to the same, where neither is cut off and the
    first one steps over the group. -/
theorem unit_inside {g : GroupChange} {before : List Word} (hfound : s.FoundAs s')
    (hs : s.ahead = before ++ g.words) (hs' : s'.ahead = before ++ g.words')
    (hfresh : g.words.length ∉ s.groups) (hw : (unit.run s).2.cutOff = false)
    (hw' : (unit.run s').2.cutOff = false) (hskip : g.words.length ∈ (unit.run s).2.groups) :
    (unit.run s).2.FoundAs (unit.run s').2 ∧ (unit.run s).1.bare = (unit.run s').1.bare := by
  have hstart : Matched (.inside g s.groups) s s' := .before hfound hs hs' ⟨[], rfl, by simp⟩
  rw [run_unit] at hw hw' hskip
  rw [run_unit, run_unit s']
  have hwhole : ∀ {s u v : ParserState} {c : Prop} [Decidable c],
      v.cutOff = false → ParserState.Leads (if c then u else s.keepFindings u) v →
      u.cutOff = false := fun {s u v c} _ hv hl => by
    refine Bool.eq_false_iff.2 fun hu => ?_
    have hcut := hl.cutOff (by split <;> exact hu)
    rw [hv] at hcut
    cases hcut
  have hheader := packageHeader_pairs hstart (hwhole hw (Parser.leads _ _))
    (hwhole hw' (Parser.leads _ _))
  cases hpackage : (packageHeader.run s).1 with
  | none =>
    rw [hpackage] at hheader hw hskip
    rcases hheader with hlost | ⟨hmatch, hsame⟩
    · exact absurd hskip (unnoted_again hpackage hfresh rfl (.inl hlost))
    · have hnone : (packageHeader.run s').1 = none := by
        rw [Option.map_none] at hsame
        exact Option.map_eq_none_iff.1 hsame.symm
      rw [hnone] at hw' ⊢
      -- the annotations are ahead again, in both runs
      have hfound := hmatch.found rfl
      have hback : Matched (.inside g (packageHeader.run s).2.groups)
          (s.keepFindings (packageHeader.run s).2) (s'.keepFindings (packageHeader.run s').2) :=
        .before ⟨hfound.names, hfound.messages⟩ hs hs' ⟨[], rfl, by simp⟩
      rcases afterHeader_pairs rfl hback hw hw' with hlost | ⟨hend, hbare⟩
      · exact absurd hskip (unnoted_again hpackage hfresh rfl (.inr hlost))
      · exact ⟨hend.found rfl, hbare⟩
  | some package =>
    rw [hpackage] at hheader
    rw [hpackage, if_pos Option.isSome_some] at hw hskip
    rw [if_pos Option.isSome_some]
    have hkept : ∀ {u : ParserState}, g.Lost s.groups u → g.words.length ∉ u.groups := by
      rintro u ⟨⟨more, hmore, hnot⟩, -⟩ hmem
      rw [hmore] at hmem
      rcases List.mem_append.1 hmem with hmem | hmem
      · exact hnot hmem
      · exact hfresh hmem
    rcases hheader with hlost | ⟨hmatch, hsame⟩
    · exact absurd hskip (hkept (hlost.leads (Parser.leads _ _)))
    · have hsome : (packageHeader.run s').1.isSome = true := by
        rw [← Option.isSome_map (f := PackageDecl.bare), ← hsame]
        rfl
      rw [if_pos hsome] at hw' ⊢
      rcases afterHeader_pairs hsame hmatch hw hw' with hlost | ⟨hend, hbare⟩
      · exact absurd hskip (hkept hlost)
      · exact ⟨hend.found rfl, hbare⟩

end Parser

/-- **What stands inside a group that is stepped over decides nothing.** Whatever balanced words stand
    inside a group of a file, if the parser steps over the group, then other balanced words in their
    place give the same unit, but for places, the same names and the same messages. -/
theorem unit_of_skipped (g : GroupChange) {before : List Word} {ts ts' : List Token} {t : NameTable}
    (words : ∀ t ∈ ts, t.kind = .identifier → t.text ≠ "")
    (words' : ∀ t ∈ ts', t.kind = .identifier → t.text ≠ "")
    (hts : ts.map Token.word = before ++ g.words) (hts' : ts'.map Token.word = before ++ g.words')
    (heof : ∃ w ∈ g.after, w.1 = .eof)
    (hskip : g.words.length ∈ (Parser.unit.run (.over ts t words)).2.groups) :
    (Parser.unit.run (.over ts' t words')).1.bare = (Parser.unit.run (.over ts t words)).1.bare ∧
      (Parser.unit.run (.over ts' t words')).2.names = (Parser.unit.run (.over ts t words)).2.names ∧
      (Parser.unit.run (.over ts' t words')).2.messages =
        (Parser.unit.run (.over ts t words)).2.messages := by
  have hends : ∀ (ts : List Token) (front : List Word) (last : Word),
      ts.map Token.word = front ++ last :: g.after → ∃ t ∈ ts, t.kind = .eof := by
    intro ts front last h
    obtain ⟨w, hw, hk⟩ := heof
    have hmem : w ∈ ts.map Token.word := by
      rw [h]
      exact List.mem_append_right _ (List.mem_cons_of_mem _ hw)
    obtain ⟨t, ht, rfl⟩ := List.mem_map.1 hmem
    exact ⟨t, ht, hk⟩
  have hend := hends ts (before ++ g.opener :: g.inner) g.closer (by
    rw [hts, GroupChange.words, List.append_assoc, List.cons_append])
  have hend' := hends ts' (before ++ g.opener :: g.inner') g.closer (by
    rw [hts', GroupChange.words', List.append_assoc, List.cons_append])
  obtain ⟨hfound, hbare⟩ := @Parser.unit_inside (.over ts t words) (.over ts' t words') g before
    ⟨rfl, rfl⟩ hts hts' (List.not_mem_nil) (Parser.unit_whole words hend)
    (Parser.unit_whole words' hend') hskip
  exact ⟨hbare.symm, hfound.names, hfound.messages⟩

/-- Some token of a word. -/
def Word.token (w : Word) : Token := ⟨w.1, w.2, .nowhere⟩

/-- The body of an initializer, in which another statement may stand. -/
def initializerBody : GroupChange where
  opener := .leftBrace
  inner := [.semicolon]
  inner' := [.leftBrace, .rightBrace]
  closer := .rightBrace
  after := [.rightBrace, (.eof, "")]
  pair := rfl
  mark := by decide
  balanced := .cons .nil (by decide) rfl
  balanced' := .cons (m := 1) (.cons .nil (by decide) rfl) (by decide) rfl

theorem unit_of_initializer :
    let before : List Word := [(.kwClass, "class"), .ident "A", .leftBrace]
    let s : ParserState := .over ((before ++ initializerBody.words).map Word.token) .fresh (by decide)
    let s' : ParserState := .over ((before ++ initializerBody.words').map Word.token) .fresh (by decide)
    initializerBody.words.length ∈ (Parser.unit.run s).2.groups ∧
      (Parser.unit.run s').1.bare = (Parser.unit.run s).1.bare :=
  ⟨by decide, (@unit_of_skipped initializerBody [(.kwClass, "class"), .ident "A", .leftBrace] _ _ _ _ _
    rfl rfl ⟨(.eof, ""), by decide, rfl⟩ (by decide)).1⟩

end JavaAbi
