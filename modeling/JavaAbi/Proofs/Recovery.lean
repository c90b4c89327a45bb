import JavaAbi.Proofs.LexedLines
import JavaAbi.Proofs.ParsedTrees
import JavaAbi.Proofs.SkippedGroups

namespace JavaAbi

/-!
# Stray tokens before declarations

Where no declaration starts, the parser of a file steps over tokens up to the next `;`, or to a token
that can start a declaration. So tokens that belong to no declaration are passed over, and the
declarations after them are read as they are where they stand alone.

One kind of start is not among those that stepping over stops at: the contextual modifiers `sealed`
and `non-sealed`. Where stray tokens without a `;` at their end stand before such a declaration, its
modifier is stepped over with them.

* `Word.isStray` — tokens that belong to no declaration;
* `Parser.Stops` — where stepping over tokens ends;
* `Parser.topLevel_passes` — stray tokens are stepped over, and nothing behind them;
* `Parser.topLevel_again` — annotations that were looked through for a `package` are read again;
* `parse_after_stray` — the declarations of a text after stray tokens and a line break;
* `sealed_stepped_over` — the start that is missed.
-/

/-- A token that starts no declaration, no import and no package declaration, and belongs to no
    modifier and no annotation. -/
def Word.isStray (w : Word) : Bool :=
  !(w.1.isModifier || [.atSign, .kwClass, .kwInterface, .kwEnum, .kwPackage, .kwImport].contains w.1 ||
    [.ident "record", .ident "sealed", .ident "non"].contains w)

/-- A word that may be a part of `sealed` or `non-sealed`. -/
def Word.isSealing (w : Word) : Bool := [.ident "sealed", .ident "non"].contains w

theorem ParserState.Clean.messages {s : ParserState} (h : s.Clean) : s.messages = [] := by
  rw [ParserState.messages, show s.errors = #[] from h]
  rfl

namespace Parser

variable {s u v : ParserState} {w : Word} {ws rest : List Word} {n n' k : Nat}

/-- Where stepping over tokens ends: before what can start a declaration, and before a `;`, which is
    stepped over as the last. -/
def Stops (s : ParserState) : Prop :=
  s.current.kind = .eof ∨ s.current.kind = .semicolon ∨ startsDeclaration s = true ∨
    s.current.kind.isModifier = true ∨ s.current.kind = .atSign

instance : DecidablePred Stops := fun _ => inferInstanceAs (Decidable (_ ∨ _ ∨ _ ∨ _ ∨ _))

/-- No annotation, modifier or declaration starts here. -/
structure Idles (s : ParserState) : Prop where
  annotation : isAnnotated s = false
  modifier : currentModifier? s = none
  declaration : startsDeclaration s = false

/-! ### Where nothing starts -/

/-- The words ahead decide whether stepping over tokens ends. -/
theorem Stops.of_ahead (h : Stops s) (hahead : u.ahead = s.ahead) : Stops u := by
  have hmatch : Matched .places s { s with tokens := u.tokens, words := u.words } :=
    .places ⟨rfl, rfl⟩ hahead rfl
  have hstarts : startsDeclaration u = startsDeclaration s := hmatch.startsDeclaration
  have hkind : u.current.kind = s.current.kind := hmatch.kind
  rwa [Stops, hstarts, hkind]

theorem modifier?_isSome (k : TokenKind) : (modifier? k).isSome = k.isModifier := by
  cases k <;> rfl

/-- Where stepping over tokens does not end, nothing starts but for a contextual modifier. -/
theorem idles_of_not_stops (h : ¬Stops s) (hfirst : ∀ w ∈ s.ahead.head?, w.isSealing = false) :
    Idles s := by
  simp only [Stops, not_or, Bool.not_eq_true] at h
  obtain ⟨heof, -, hstarts, hmodifier, hat⟩ := h
  refine ⟨Bool.and_eq_false_iff.2 (.inl (decide_eq_false hat)), ?_, hstarts⟩
  have hnone : modifier? s.current.kind = none := by
    rw [← Option.isNone_iff_eq_none, ← Option.not_isSome, modifier?_isSome, hmodifier]
    rfl
  unfold currentModifier?
  rw [hnone]
  by_cases hident : s.current.kind = .identifier
  · -- the word at hand is neither `sealed` nor `non`
    cases hs : s.ahead with
    | nil => exact absurd (by rw [ParserState.current_kind, hs]; rfl) heof
    | cons w ws =>
      have hw : w.1 = .identifier := by rwa [ParserState.current_kind, hs] at hident
      have hword := hfirst w (by rw [hs]; rfl)
      have htext : ∀ text, Word.ident text ∈ [Word.ident "sealed", Word.ident "non"] →
          (s.current.text == text) = false := fun text ht => by
        rw [ParserState.current_text hs]
        refine beq_false_of_ne fun heq => ?_
        obtain rfl : w = Word.ident text := Prod.ext hw heq
        exact absurd (List.contains_iff_mem.2 ht) (Bool.eq_false_iff.1 hword)
      dsimp only
      rw [if_neg (not_not.2 hident), htext "sealed" (by decide), htext "non" (by decide)]
      rfl
  · exact if_pos hident

/-- At a stray token nothing starts; only at a `;` does stepping over end. -/
theorem not_stops_of_stray (hs : s.ahead = w :: ws) (hw : w.isStray = true) (heof : w.1 ≠ .eof)
    (hsemi : w.1 ≠ .semicolon) : ¬Stops s := by
  have hkind : s.current.kind = w.1 := by rw [ParserState.current_kind, hs]; rfl
  simp only [Word.isStray, Bool.not_eq_true', Bool.or_eq_false_iff, List.contains_cons,
    List.contains_nil, beq_eq_false_iff_ne] at hw
  obtain ⟨⟨hmodifier, hat, hclass, hinterface, henum, -⟩, hrecord, -⟩ := hw
  rintro (h | h | h | h | h)
  · exact heof (hkind ▸ h)
  · exact hsemi (hkind ▸ h)
  · unfold startsDeclaration at h
    rw [hkind, ParserState.current_text hs] at h
    split at h
    · exact hclass ‹_›
    · exact hinterface ‹_›
    · exact henum ‹_›
    · exact hat ‹_›
    · rename_i hident
      simp only [Bool.and_eq_true, beq_iff_eq] at h
      exact hrecord (Prod.ext hident h.1.1)
    · cases h
  · rw [hkind, hmodifier] at h
    cases h
  · exact hat (hkind ▸ h)

theorem idles_of_stray (hs : s.ahead = w :: ws) (hw : w.isStray = true) (heof : w.1 ≠ .eof)
    (hsemi : w.1 ≠ .semicolon) : Idles s := by
  refine idles_of_not_stops (not_stops_of_stray hs hw heof hsemi) fun x hx => ?_
  rw [hs] at hx
  obtain rfl := Option.some.inj hx
  simp only [Word.isStray, Bool.not_eq_true', Bool.or_eq_false_iff] at hw
  have hword := hw.2
  rw [List.contains_cons, Bool.or_eq_false_iff] at hword
  exact hword.2

/-! ### Steps of the loop over declarations -/

theorem run_topLevel (heof : s.current.kind ≠ .eof) : (topLevel (n + 1)).run s =
    if s.current.kind = .semicolon then (topLevel n).run s.advance
    else (afterModifiers s.current.span n (modifiers.run s).1).run (modifiers.run s).2 := by
  rw [topLevel_succ, run_isAt heof]
  exact run_bind_eat .semicolon _ s

/-- Where nothing starts, an error is reported, and a token is stepped over and what follows it. -/
theorem run_topLevel_idle (heof : s.current.kind ≠ .eof) (hsemi : s.current.kind ≠ .semicolon)
    (h : Idles s) : ∃ u, u.ahead = s.advance.ahead ∧ u.names = s.names ∧ ¬u.Clean ∧
      (topLevel (n + 1)).run s = (topLevel n).run ((recoverDeclaration u.remaining).run u).2 := by
  obtain ⟨k, hk⟩ := Nat.exists_eq_succ_of_ne_zero (remaining_ne_zero heof)
  have hmodifiers : modifiers.run s = ([], s) := by
    show (modifiersAfter s.remaining []).run s = _
    rw [hk, modifiersAfter, run_isAtAnnotation rfl, h.annotation]
    show (state >>= _).run s = _
    rw [run_bind_state, h.modifier]
    rfl
  let told := ((expected "class, interface, enum, record or annotation type declaration").run s).2
  refine ⟨told.advance, Matched.ahead_advance_eq rfl, ParserState.names_advance told, ?_, ?_⟩
  · rw [ParserState.Clean, ParserState.errors_advance]
    exact Array.push_ne_empty
  · rw [run_topLevel heof, if_neg hsemi, hmodifiers, afterModifiers]
    show (if startsDeclaration s = true then _ else _ : Parser (List TypeDecl)).run s = _
    rw [if_neg (Bool.eq_false_iff.1 h.declaration)]
    rfl

theorem run_recoverDeclaration (heof : s.current.kind ≠ .eof) :
    (recoverDeclaration (k + 1)).run s =
      if s.current.kind = .semicolon then ((), s.advance)
      else if Stops s then ((), s)
      else (recoverDeclaration k).run s.advance := by
  rw [recoverDeclaration, run_isAt heof]
  show (eat .semicolon >>= _).run s = _
  rw [run_bind_eat]
  by_cases hsemi : s.current.kind = .semicolon
  · rw [if_pos hsemi, if_pos hsemi]
    rfl
  rw [if_neg hsemi, if_neg hsemi]
  have hstops : Stops s ↔
      (startsDeclaration s || s.current.kind.isModifier || s.current.kind = .atSign) = true := by
    rw [Stops, Bool.or_eq_true, Bool.or_eq_true, decide_eq_true_eq, or_iff_right heof,
      or_iff_right hsemi, or_assoc]
  show (if (startsDeclaration s || s.current.kind.isModifier || s.current.kind = .atSign) = true then
    Pure.pure () else advance >>= fun _ => recoverDeclaration k : Parser Unit).run s = _
  by_cases h : Stops s
  · rw [if_pos h, if_pos (hstops.1 h)]
    rfl
  · rw [if_neg h, if_neg (mt hstops.2 h)]
    rfl

/-! ### Stray tokens -/

/-- A run over declarations comes to the words `rest`, where nothing has been interned. -/
def Passes (s : ParserState) (rest : List Word) (r : List TypeDecl × ParserState) : Prop :=
  ∃ m u, u.ahead = rest ∧ u.names = s.names ∧ r = (topLevel m).run u

theorem Passes.of_names {r : List TypeDecl × ParserState} (h : Passes u rest r)
    (hnames : u.names = s.names) : Passes s rest r := by
  obtain ⟨m, v, hv, hvn, rfl⟩ := h
  exact ⟨m, v, hv, hvn.trans hnames, rfl⟩

/-- **Stray tokens are stepped over, and nothing behind them**, if the last of them is a `;` or
    stepping over tokens ends at what follows. The second part is about the stepping itself. -/
theorem topLevel_passes (hws : ∀ w ∈ ws, w.isStray = true ∧ w.1 ≠ .eof) :
    (∀ n s, s.ahead = ws ++ rest → ((topLevel n).run s).2.cutOff = false →
      (∀ w ∈ ws.getLast?, w.1 = .semicolon) ∨ (∀ s : ParserState, s.ahead = rest → Stops s) →
      Passes s rest ((topLevel n).run s)) ∧
    ∀ n k s, s.ahead = ws ++ rest →
      ((topLevel n).run ((recoverDeclaration k).run s).2).2.cutOff = false →
      (∃ w ∈ ws.getLast?, w.1 = .semicolon) ∨ (∀ s : ParserState, s.ahead = rest → Stops s) →
      Passes s rest ((topLevel n).run ((recoverDeclaration k).run s).2) := by
  have hcut : ∀ {n k s}, ((topLevel n).run ((recoverDeclaration k).run s).2).2.cutOff = false → k ≠ 0 := by
    rintro n k s hw rfl
    have := ((topLevel n).leads ((recoverDeclaration 0).run s).2).cutOff rfl
    rw [hw] at this
    cases this
  -- By induction on the stray tokens. At a token other than `;` the loop goes over to stepping, which
  -- comes back to the loop behind the next `;`, or where it ends.
  induction ws with
  | nil =>
    refine ⟨fun n s hs _ _ => ⟨n, s, hs, rfl, rfl⟩, fun n k s hs hw hends => ?_⟩
    have hstops : Stops s := by
      obtain ⟨w, hw, -⟩ | hstops := hends
      · cases hw
      · exact hstops s hs
    obtain ⟨k, rfl⟩ := Nat.exists_eq_succ_of_ne_zero (hcut hw)
    by_cases heof : s.current.kind = .eof
    · refine ⟨n, s, hs, rfl, ?_⟩
      rw [recoverDeclaration]
      show (topLevel n).run ((if decide (s.current.kind = .eof) = true then Pure.pure () else _ :
        Parser Unit).run s).2 = _
      rw [if_pos (decide_eq_true heof)]
      rfl
    rw [run_recoverDeclaration heof]
    by_cases hsemi : s.current.kind = .semicolon
    · exact ⟨n + 1, s, hs, rfl, by rw [if_pos hsemi, run_topLevel heof, if_pos hsemi]⟩
    · exact ⟨n, s, hs, rfl, by rw [if_neg hsemi, if_pos hstops]⟩
  | cons w ws ih =>
    obtain ⟨⟨hstray, hne⟩, hws⟩ := List.forall_mem_cons.1 hws
    obtain ⟨hloop, hstep⟩ := ih hws
    have hat : ∀ s : ParserState, s.ahead = w :: ws ++ rest →
        s.current.kind = w.1 ∧ s.advance.ahead = ws ++ rest := fun s hs =>
      ⟨by rw [ParserState.current_kind, hs]; rfl, ParserState.ahead_advance hs hne⟩
    have hlast : ws ≠ [] → (w :: ws).getLast? = ws.getLast? := List.getLast?_cons_of_ne_nil
    refine ⟨fun n s hs hw hends => ?_, fun n k s hs hw hends => ?_⟩
    · obtain ⟨hkind, hnext⟩ := hat s hs
      have heof : s.current.kind ≠ .eof := hkind ▸ hne
      obtain ⟨n, rfl⟩ : ∃ m, n = m + 1 := Nat.exists_eq_succ_of_ne_zero fun hzero => by
        subst hzero
        cases hw
      by_cases hsemi : w.1 = .semicolon
      · rw [run_topLevel heof, if_pos (hkind.trans hsemi)] at hw ⊢
        refine (hloop n _ hnext hw (hends.imp_left fun hall x hx => ?_)).of_names
          (ParserState.names_advance s)
        exact hall x ((hlast (by rintro rfl; cases hx)).symm ▸ hx)
      · have hother : s.current.kind ≠ .semicolon := hkind ▸ hsemi
        obtain ⟨u, hu, hnames, -, hrun⟩ :=
          run_topLevel_idle (n := n) heof hother (idles_of_stray hs hstray hne hsemi)
        rw [hrun] at hw ⊢
        refine (hstep n _ u (hu.trans hnext) hw (hends.imp_left fun hall => ?_)).of_names hnames
        cases ws with
        | nil => exact absurd (hall w rfl) hsemi
        | cons x ws => exact ⟨_, List.getLast?_eq_some_getLast (List.cons_ne_nil x ws),
            hall _ ((hlast (List.cons_ne_nil x ws)).trans (List.getLast?_eq_some_getLast _))⟩
    · obtain ⟨hkind, hnext⟩ := hat s hs
      have heof : s.current.kind ≠ .eof := hkind ▸ hne
      obtain ⟨k, rfl⟩ := Nat.exists_eq_succ_of_ne_zero (hcut hw)
      rw [run_recoverDeclaration heof] at hw ⊢
      by_cases hsemi : w.1 = .semicolon
      · rw [if_pos (hkind.trans hsemi)] at hw ⊢
        refine (hloop n _ hnext hw (hends.imp_left fun hsome x hx => ?_)).of_names
          (ParserState.names_advance s)
        obtain ⟨y, hy, hyk⟩ := hsome
        rw [hlast (by rintro rfl; cases hx)] at hy
        exact Option.mem_unique hx hy ▸ hyk
      · rw [if_neg (hkind ▸ hsemi : s.current.kind ≠ .semicolon),
          if_neg (not_stops_of_stray hs hstray hne hsemi)] at hw ⊢
        refine (hstep n k _ hnext hw (hends.imp_left fun hsome => ?_)).of_names
          (ParserState.names_advance s)
        obtain ⟨y, hy, hyk⟩ := hsome
        refine ⟨y, ?_, hyk⟩
        rwa [hlast (by rintro rfl; cases hy; exact hsemi hyk)] at hy

/-! ### Declarations read again -/

/-- Annotations before a declaration are the first that is read of it. -/
theorem run_topLevel_annotated (hat : s.current.kind = .atSign) :
    ∃ m, (topLevel (n + 1)).run s =
      (modifiersAfter m [] >>= afterModifiers s.current.span n).run (skipAnnotations.run s).2 := by
  obtain ⟨m, hm⟩ := modifiersAfter_skips s.remaining [] s
  refine ⟨m, ?_⟩
  rw [run_topLevel (by rw [hat]; decide), if_neg (by rw [hat]; decide)]
  show (afterModifiers s.current.span n ((modifiersAfter s.remaining []).run s).1).run
    ((modifiersAfter s.remaining []).run s).2 = _
  rw [hm]
  rfl

theorem skipAnnotations_nothing (hat : isAnnotated s = false) (hr : s.remaining ≠ 0) :
    skipAnnotations.run s = ((), s) := by
  show (skipAnnotationsUpTo s.remaining).run s = _
  obtain ⟨n, hn⟩ := Nat.exists_eq_succ_of_ne_zero hr
  rw [hn, skipAnnotationsUpTo, run_isAtAnnotation rfl, hat]
  rfl

/-- **Annotations that were looked through for a `package` are read again**, and interned already. So
    the declarations of a file are read as from a state before which other things were reported. -/
theorem topLevel_again {earlier : List String} (hnone : (packageHeader.run s).1 = none)
    (hu : u = s.keepFindings (packageHeader.run s).2) (h : Matched (.behind earlier) s v)
    (hw : ((topLevel n).run u).2.cutOff = false) (hw' : ((topLevel n').run v).2.cutOff = false)
    (hclean : ((topLevel n).run u).2.Clean) :
    Matched (.behind earlier) ((topLevel n).run u).2 ((topLevel n').run v).2 ∧
      ((topLevel n).run u).1.map TypeDecl.bare = ((topLevel n').run v).1.map TypeDecl.bare := by
  let d : Difference := .behind earlier
  have hwhole : ∀ {s u : ParserState}, s.Leads u → u.cutOff = false → s.cutOff = false :=
    fun hl hu => Difference.Whole.leads (d := d) hu hl
  rw [packageHeader_none hnone] at hu
  have hcleanu : u.Clean := .of_leads ((topLevel n).leads u) hclean
  have hfirst : (skipAnnotations.run s).2.Clean := by rwa [hu] at hcleanu
  have hwholes : (skipAnnotations.run s).2.cutOff = false := by
    have hwholeu := hwhole (Parser.leads _ _) hw
    rwa [hu] at hwholeu
  by_cases hat : isAnnotated s = true
  · have hkind : s.current.kind = .atSign := of_decide_eq_true (Bool.and_eq_true_iff.1 hat).1
    have hkindu : u.current.kind = .atSign := by rw [hu]; exact hkind
    obtain ⟨n, rfl⟩ := Nat.exists_eq_succ_of_ne_zero (n := n) fun hzero => by subst hzero; cases hw
    obtain ⟨n', rfl⟩ := Nat.exists_eq_succ_of_ne_zero (n := n') fun hzero => by subst hzero; cases hw'
    obtain ⟨m, hm⟩ := run_topLevel_annotated (n := n) hkindu
    obtain ⟨m', hm'⟩ := run_topLevel_annotated (n := n') (h.kind.trans hkind)
    rw [hm] at hw hclean ⊢
    rw [hm'] at hw' ⊢
    obtain ⟨hread, -⟩ := (skipAnnotations_pairs h hwholes (hwhole (Parser.leads _ _) hw')).resolve_left id
    -- the second reading finds nothing new, so it is where the first one is
    have hagain : s.Retraces (skipAnnotations.run s).2 u (skipAnnotations.run u).2 :=
      skipAnnotations_retraced (by rw [hu]; rfl)
    have hnames := hagain.names (by rw [hu]; exact .refl _)
    have hcleana : (skipAnnotations.run u).2.Clean := .of_leads (Parser.leads _ _) hclean
    have hmatch : Matched d (skipAnnotations.run u).2 (skipAnnotations.run v).2 := by
      refine .behind ⟨hread.findings.names.trans ?_, ?_⟩ ?_
      · rw [hnames, hu]
        rfl
      · rw [hread.findings.messages, hfirst.messages, hcleana.messages]
        rfl
      · cases hread with
        | behind _ hsame => exact hsame.trans (congrArg (List.map Token.word) hagain.tokens).symm
    exact (((modifiersAfter_pairs m m' [] hmatch trivial).bind_eq fun ms x x' hx =>
      afterModifiers_pairs (fun hy => topLevel_pairs _ _ hy trivial) hx) hw hw').resolve_left id
  · have hr : s.remaining ≠ 0 := fun hzero => by
      change ((skipAnnotationsUpTo s.remaining).run s).2.cutOff = false at hwholes
      rw [hzero] at hwholes
      cases hwholes
    rw [skipAnnotations_nothing (Bool.eq_false_iff.2 hat) hr] at hu
    obtain rfl : u = s := hu
    exact (topLevel_pairs n n' h trivial hw hw').resolve_left id

/-! ### Whole files -/

/-- A file in which no import stands after the header. -/
theorem not_import_of_nil {start : Span} {package : Option PackageDecl}
    (hw : ((afterHeader start package).run s).2.cutOff = false)
    (himports : ((afterHeader start package).run s).1.imports = []) :
    s.current.kind ≠ .kwImport ∧ s.remaining ≠ 0 := by
  change ((imports s.remaining).run s).1 = [] at himports
  refine ⟨fun hk => ?_, fun hzero => ?_⟩
  · obtain ⟨n, hn⟩ := Nat.exists_eq_succ_of_ne_zero
      (remaining_ne_zero (s := s) (by rw [hk]; decide))
    rw [hn, imports] at himports
    change ((if decide (s.current.kind = .kwImport) = true then
      importDecl >>= fun i => imports n >>= fun is => Pure.pure (i :: is)
      else Pure.pure [] : Parser (List ImportDecl)).run s).1 = [] at himports
    rw [if_pos (decide_eq_true hk)] at himports
    cases himports
  · have hl : ParserState.Leads ((imports s.remaining).run s).2
        ((afterHeader start package).run s).2 :=
      Parser.leads (state >>= fun u => topLevel u.remaining >>= fun types =>
        currentSpan >>= fun stop => Pure.pure (types, stop)) _
    rw [hzero] at hl
    rw [hl.cutOff rfl] at hw
    cases hw

theorem run_unit_of_none (hnone : (packageHeader.run s).1 = none) : unit.run s =
    (afterHeader s.current.span none).run (s.keepFindings (packageHeader.run s).2) := by
  rw [run_unit, hnone]
  rfl

/-- Stray tokens are no header. -/
theorem run_unit_of_stray (hs : s.ahead = w :: ws) (hw : w.isStray = true) (heof : w.1 ≠ .eof) :
    unit.run s = (afterHeader s.current.span none).run s ∧ s.current.kind ≠ .kwImport := by
  have hkind : s.current.kind = w.1 := by rw [ParserState.current_kind, hs]; rfl
  simp only [Word.isStray, Bool.not_eq_true', Bool.or_eq_false_iff, List.contains_cons,
    List.contains_nil, beq_eq_false_iff_ne] at hw
  obtain ⟨⟨-, hat, -, -, -, hpackage, himport, -⟩, -⟩ := hw
  have hheader : packageHeader.run s = (none, s) := by
    have hrun : packageHeader.run s =
        (isAt .kwPackage >>= fun b => if b = true then packageDecl >>= fun p => Pure.pure (some p)
          else Pure.pure none : Parser (Option PackageDecl)).run (skipAnnotations.run s).2 := rfl
    rw [hrun, skipAnnotations_nothing (Bool.and_eq_false_iff.2 (.inl (decide_eq_false (hkind ▸ hat))))
      (remaining_ne_zero (hkind ▸ heof)), run_isAt (hkind ▸ hpackage)]
    rfl
  refine ⟨?_, hkind ▸ himport⟩
  rw [run_unit_of_none (congrArg Prod.fst hheader), hheader]
  rfl

/-- **Declarations after stray tokens.** A file without errors, `package` and imports is read after
    stray tokens as it is alone, if the last of them is a `;` or the file starts with neither of the
    contextual modifiers. -/
theorem unit_after_stray (hws : ∀ w ∈ ws, w.isStray = true ∧ w.1 ≠ .eof)
    (hs : s.ahead = ws ++ u.ahead) (hfound : u.FoundAs s) (hcut : s.cutOff = u.cutOff)
    (hw : (unit.run s).2.cutOff = false) (hwu : (unit.run u).2.cutOff = false)
    (hclean : (unit.run u).2.Clean) (hpackage : (unit.run u).1.package = none)
    (himports : (unit.run u).1.imports = [])
    (hnext : (∀ w ∈ ws.getLast?, w.1 = .semicolon) ∨ ∀ w ∈ u.ahead.head?, w.isSealing = false) :
    (unit.run s).1.bare = (unit.run u).1.bare ∧ (unit.run s).2.names = (unit.run u).2.names := by
  cases ws with
  | nil =>
    have hplaces := unit_places (.places hfound hs hcut) trivial trivial
    obtain ⟨hend, hbare⟩ := hplaces.resolve_left id
    exact ⟨hbare.symm, hend.findings.names⟩
  | cons w ws =>
    obtain ⟨hstray, heof⟩ := hws w List.mem_cons_self
    have hnone : (packageHeader.run u).1 = none := hpackage ▸ by rw [run_unit]; rfl
    let r := u.keepFindings (packageHeader.run u).2
    have halone := run_unit_of_none hnone
    rw [halone] at hwu hclean himports ⊢
    obtain ⟨hnoimport, hleft⟩ := not_import_of_nil hwu himports
    rw [run_afterHeader hnoimport hleft] at hwu hclean ⊢
    -- what is read of them after the stray tokens
    obtain ⟨hrun, hnoimport'⟩ := run_unit_of_stray hs hstray heof
    have hleft' : s.remaining ≠ 0 := by
      rw [ParserState.remaining_eq_length, hs]
      exact Nat.succ_ne_zero _
    rw [hrun, run_afterHeader hnoimport' hleft'] at hw ⊢
    have hstops : (∀ w ∈ u.ahead.head?, w.isSealing = false) → Stops r := by
      refine fun hfirst => Classical.byContradiction fun h => ?_
      have heof : r.current.kind ≠ .eof := fun heof => h (.inl heof)
      obtain ⟨n, hn⟩ := Nat.exists_eq_succ_of_ne_zero (remaining_ne_zero heof)
      obtain ⟨x, -, -, hx, hrun⟩ := run_topLevel_idle (n := n) heof (fun hsemi => h (.inr (.inl hsemi)))
        (idles_of_not_stops h hfirst)
      change ((topLevel r.remaining).run r).2.Clean at hclean
      rw [hn, hrun] at hclean
      exact hx (.of_leads ((Parser.leads _ _).trans (Parser.leads _ _)) hclean)
    obtain ⟨m, v, hv, hnames, hpasses⟩ := (topLevel_passes hws).1 _ s hs hw
      (hnext.imp_right fun hfirst x hx => (hstops hfirst).of_ahead hx)
    rw [hpasses] at hw ⊢
    have hmatch : Matched (.behind v.messages) u v := by
      refine .behind ⟨hnames.trans hfound.names, ?_⟩ hv
      have : u.Clean := .of_leads (unit.leads u) (halone ▸ by rwa [run_afterHeader hnoimport hleft])
      rw [this.messages, List.append_nil]
    obtain ⟨hend, htypes⟩ := topLevel_again hnone rfl hmatch hwu hw hclean
    refine ⟨?_, hend.findings.names⟩
    rw [CompilationUnit.bare, CompilationUnit.bare, htypes]

end Parser

/-- **Stray tokens before declarations decide nothing about them.** Where a text without lexical
    errors that consists of stray tokens stands on lines of its own before a text of declarations that
    is parsed without diagnostics, the same declarations are parsed, but for places, and the same
    names interned. Either the last stray token is a `;`, or the first declaration starts with
    neither of the contextual modifiers. -/
theorem parse_after_stray {file file' : Nat} {stray source : String} {t : NameTable}
    (hlex : (lex file' stray).2 = []) (hstray : ∀ x ∈ (lex file' stray).1, x.word.isStray = true)
    (hclean : (parse file source t).2.2 = []) (hpackage : (parse file source t).1.package = none)
    (himports : (parse file source t).1.imports = [])
    (hnext : (∀ x ∈ (lex file' stray).1.dropLast.getLast?, x.kind = .semicolon) ∨
      ∀ x ∈ (lex file source).1.head?, x.word.isSealing = false) :
    (parse file' (stray ++ "\n" ++ source) t).1.bare = (parse file source t).1.bare ∧
      (parse file' (stray ++ "\n" ++ source) t).2.1 = (parse file source t).2.1 := by
  rw [parse_eq] at hclean hpackage himports
  obtain ⟨hlex', herrors⟩ := List.append_eq_nil_iff.1 hclean
  obtain ⟨ws, ws', hws, hws', hne, hjoined⟩ := lex_lines hlex hlex'
  have hwhole : ∀ file source, (Parser.unit.run (.start file source t)).2.cutOff = false :=
    fun file source => (Parser.unit_runs (ParserState.sane_start file source t)).1.whole
  have hahead : (ParserState.start file' (stray ++ "\n" ++ source) t).ahead =
      ws ++ (ParserState.start file source t).ahead :=
    (hjoined file').1.trans (congrArg (ws ++ ·) hws'.symm)
  rw [parse_eq, parse_eq]
  dsimp only at hpackage himports ⊢
  refine Parser.unit_after_stray (fun w hw => ⟨?_, hne w hw⟩) hahead ⟨rfl, rfl⟩ rfl (hwhole _ _)
    (hwhole _ _) (Array.toList_eq_nil_iff.1 herrors) hpackage himports (hnext.imp ?_ ?_)
  · have hmem : w ∈ (lex file' stray).1.map Token.word := by
      rw [hws]
      exact List.mem_append_left _ hw
    obtain ⟨x, hx, rfl⟩ := List.mem_map.1 hmem
    exact hstray x hx
  · intro hall w hw
    have hdrop : (lex file' stray).1.dropLast.map Token.word = ws := by
      rw [List.map_dropLast, hws, List.dropLast_concat]
    rw [← hdrop, List.getLast?_map] at hw
    obtain ⟨x, hx, rfl⟩ := Option.map_eq_some_iff.1 hw
    exact hall x hx
  · intro hall w hw
    change w ∈ ((lex file source).1.map Token.word).head? at hw
    rw [List.head?_map] at hw
    obtain ⟨x, hx, rfl⟩ := Option.map_eq_some_iff.1 hw
    exact hall x hx

theorem parse_after_stray_word :
    (parse 0 ("foo )" ++ "\n" ++ "@Override final class A \x7b\x7d") .fresh).1.bare =
      (parse 0 "@Override final class A \x7b\x7d" .fresh).1.bare :=
  And.left (parse_after_stray (by decide +kernel) (by decide +kernel) (by decide +kernel)
    (by decide +kernel) (by decide +kernel) (.inr (by decide +kernel)))

/-- **A start that is missed**: after a stray token that no `;` follows, the modifier `sealed` of the
    declaration is stepped over. -/
theorem sealed_stepped_over :
    (lex 0 "foo").2 = [] ∧ (∀ x ∈ (lex 0 "foo").1, x.word.isStray = true) ∧
    let source := "sealed class A permits B \x7b\x7d final class B extends A \x7b\x7d"
    (parse 0 source .fresh).2.2 = [] ∧ (parse 0 source .fresh).1.package = none ∧
    (parse 0 source .fresh).1.imports = [] ∧
    (parse 0 source .fresh).1.types.map (·.head.modifiers) = [[.sealed], [.final]] ∧
    (parse 0 ("foo" ++ "\n" ++ source) .fresh).1.types.map (·.head.modifiers) = [[], [.final]] := by
  decide +kernel

end JavaAbi
