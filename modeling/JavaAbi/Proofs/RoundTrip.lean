import JavaAbi.Proofs.ReadDeclarations
import JavaAbi.Syntax.Parser.Unit

namespace JavaAbi

/-!
# Parsing undoes printing

A tree that the grammar of the parser has is printed as words between blanks; the text is lexed as
these words, and the parser reads the tree back from them, but for its places, without a diagnostic.

* `Parser.unit_reads` — a whole file;
* `parse_printed` — from the text to the tree.
-/

/-- The word at the end of each text. -/
def Word.eof : Word := (.eof, "")

namespace Parser

variable {t : NameTable} {s : ParserState} {rest : List Word}

/-! ### Paths -/

theorem pathSegments_reads (names : List Name) (fuel : Nat) (s : ParserState)
    (h : ∀ n ∈ names, n.Written t)
    (hs : s.ahead = names.flatMap (fun n => [Word.dot, n.word t]) ++ rest)
    (hrest : firstKind rest ≠ .dot) (hf : s.ahead.length ≤ fuel) :
    (pathSegments fuel).Reads t s rest (· = names) := by
  induction names generalizing fuel s with
  | nil =>
    have hs : s.ahead = rest := hs
    cases fuel with
    | zero => exact .cutOff hs rfl
    | succ fuel =>
      rw [pathSegments, reads_kind, reads_peek, s.current_kind, hs, decide_eq_false hrest,
        Bool.false_and]
      exact .no rfl (.pure hs rfl)
  | cons n names ih =>
    obtain ⟨hn, hnames⟩ := List.forall_mem_cons.1 h
    have hs : s.ahead =
      .dot :: n.word t :: (names.flatMap (fun n => [Word.dot, n.word t]) ++ rest) := hs
    have hlen := congrArg List.length hs
    rw [List.length_cons, List.length_cons] at hlen
    cases fuel with
    | zero => omega
    | succ fuel =>
      rw [pathSegments, reads_kind, reads_peek, s.current_kind, s.peek_eq, hs]
      refine .yes rfl (.advance hs fun u hu => .ident hu hn.1 fun v hv => ?_)
      refine (ih fuel v hnames hv ?_).bind fun found x hx hfound => .pure hx (by rw [hfound])
      rw [hv]
      omega

/-- The words of a path. -/
theorem path_words {n : Name} {names : List Name} :
    separated .dot ((n :: names).map fun n => [n.word t]) =
      n.word t :: names.flatMap fun n => [Word.dot, n.word t] := by
  rw [List.map_cons, separated, List.flatMap_map]
  rfl

theorem path_reads {p : Path} (h : p.Surface t) (hs : s.ahead = p.words t ++ rest)
    (hrest : firstKind rest ≠ .dot) : path.Reads t s rest fun found => found.bare = p.bare := by
  obtain ⟨segments, span⟩ := p
  cases segments with
  | nil => exact absurd rfl h.filled
  | cons n names =>
    obtain ⟨hn, hnames⟩ := List.forall_mem_cons.1 h.names
    rw [Path.words, path_words] at hs
    rw [path]
    refine .place fun start => .ident hs hn.1 fun u hu => ?_
    rw [reads_state]
    refine (pathSegments_reads names _ u hnames hu hrest
      (Nat.le_of_eq u.remaining_eq_length.symm)).bind
      fun found v hv hfound => .spanFrom fun place => .pure hv ?_
    rw [Path.bare, Path.bare, hfound]

/-! ### Packages and imports -/

theorem packageDecl_reads {p : PackageDecl} (h : p.path.Surface t)
    (hs : s.ahead = p.words t ++ rest) :
    packageDecl.Reads t s rest fun found => found.bare = p.bare := by
  rw [PackageDecl.words, List.cons_append, List.cons_append, List.append_assoc] at hs
  rw [packageDecl]
  refine .place fun start => .expect hs rfl fun u hu => ?_
  refine (path_reads h hu (of_decide_eq_false rfl)).bind fun found v hv hfound => ?_
  refine .expect hv rfl fun x hx => .spanFrom fun place => .pure hx ?_
  rw [PackageDecl.bare, PackageDecl.bare, hfound]

theorem packageHeader_reads {package : Option PackageDecl} (h : ∀ p ∈ package, p.path.Surface t)
    (hs : s.ahead = (package.map (PackageDecl.words t)).getD [] ++ rest)
    (hrest : firstKind rest ≠ .kwPackage) (hplain : Unannotated rest) :
    packageHeader.Reads t s rest fun found =>
      found.map PackageDecl.bare = package.map PackageDecl.bare := by
  rw [packageHeader]
  cases package with
  | none =>
    have hs : s.ahead = rest := hs
    refine .unannotated (by rwa [hs]) fun u hu => ?_
    exact .isAt_no (by rwa [hu, hs]) (.no rfl (.pure (hu.trans hs) rfl))
  | some p =>
    have hs : s.ahead = p.words t ++ rest := hs
    refine .unannotated (unannotated_of_ne (by rw [hs]; exact of_decide_eq_false rfl)) fun u hu => ?_
    refine .isAt_yes (by rw [hu, hs]; rfl) (.yes rfl ?_)
    refine (packageDecl_reads (h p rfl) (hu.trans hs)).bind fun found v hv hfound => .pure hv ?_
    rw [Option.map_some, Option.map_some, hfound]

/-- Going back changes nothing where nothing was consumed. -/
theorem orBack_reads {α : Type} {p : Parser (Option α)} {P : Option α → Prop}
    (h : p.Reads t s rest P) (hnone : P none → s.ahead = rest) : (orBack p).Reads t s rest P := by
  intro hn
  have hgives := h hn
  rw [Gives] at hgives ⊢
  unfold orBack
  dsimp only
  cases hrun : p.run s with
  | mk found u =>
    rw [hrun] at hgives
    obtain ⟨⟨hnames, herrors, hwords⟩, hfound⟩ := hgives
    cases found with
    | some a => exact ⟨⟨hnames, herrors, hwords⟩, hfound⟩
    | none => exact ⟨⟨hnames, herrors, hnone hfound⟩, hfound⟩

theorem importSegments_reads (onDemand : Bool) (names : List Name) (fuel : Nat) (s : ParserState)
    (h : ∀ n ∈ names, n.Written t)
    (hs : s.ahead = names.flatMap (fun n => [Word.dot, n.word t]) ++
      ((if onDemand = true then [.dot, .star] else []) ++ rest))
    (hrest : firstKind rest ≠ .dot) (hf : s.ahead.length ≤ fuel) :
    (importSegments fuel).Reads t s rest (· = (names, onDemand)) := by
  induction names generalizing fuel s with
  | nil =>
    cases onDemand with
    | false =>
      have hs : s.ahead = rest := hs
      cases fuel with
      | zero => exact .cutOff hs rfl
      | succ fuel =>
        rw [importSegments]
        exact .isAt_no (by rwa [hs]) (.no rfl (.pure hs rfl))
    | true =>
      have hs : s.ahead = .dot :: .star :: rest := hs
      have hlen := congrArg List.length hs
      rw [List.length_cons] at hlen
      cases fuel with
      | zero => omega
      | succ fuel =>
        -- Behind a dot, a star ends the path.
        have htext : s.peekText 1 = "*" := s.peekText_eq (w := .star) (by rw [hs]; rfl)
        rw [importSegments]
        refine .isAt_yes (by rw [hs]; rfl) (.yes rfl ?_)
        rw [reads_state, s.peek_eq, htext, hs]
        refine .neg (of_decide_eq_false rfl) (.yes rfl ?_)
        exact .advance hs fun u hu => .advance hu fun v hv => .pure hv rfl
  | cons n names ih =>
    obtain ⟨hn, hnames⟩ := List.forall_mem_cons.1 h
    have hs : s.ahead = .dot :: n.word t :: (names.flatMap (fun n => [Word.dot, n.word t]) ++
        ((if onDemand = true then [.dot, .star] else []) ++ rest)) := hs
    have hlen := congrArg List.length hs
    rw [List.length_cons, List.length_cons] at hlen
    cases fuel with
    | zero => omega
    | succ fuel =>
      rw [importSegments]
      refine .isAt_yes (by rw [hs]; rfl) (.yes rfl ?_)
      rw [reads_state, s.peek_eq, hs]
      refine .yes rfl (.advance hs fun u hu => .ident hu hn.1 fun v hv => ?_)
      refine (ih fuel v hnames hv ?_).bind fun found x hx hfound => ?_
      · rw [hv]
        omega
      · rw [hfound]
        exact .pure hx rfl

/-- A word that may be missing. -/
theorem Reads.eat_flag {α : Type} {Q : α → Prop} {f : Bool → Parser α} {ws : List Word} (b : Bool)
    (w : Word) (hs : s.ahead = (if b = true then [w] else []) ++ ws)
    (hother : firstKind ws ≠ w.1) (hf : ∀ u : ParserState, u.ahead = ws → (f b).Reads t u rest Q)
    (heof : w.1 ≠ .eof := by decide) :
    (eat w.1 >>= f).Reads t s rest Q := by
  cases b with
  | true => exact .eat_yes hs rfl hf heof
  | false =>
    have hs : s.ahead = ws := hs
    exact .eat_no (by rwa [hs]) (hf s hs)

theorem importDecl_reads {i : ImportDecl} (h : i.path.Surface t)
    (hs : s.ahead = i.words t ++ rest) :
    importDecl.Reads t s rest fun found => found.bare = i.bare := by
  obtain ⟨isStatic, ⟨segments, span⟩, onDemand, place⟩ := i
  cases segments with
  | nil => exact absurd rfl h.filled
  | cons n names =>
    obtain ⟨hn, hnames⟩ := List.forall_mem_cons.1 h.names
    rw [ImportDecl.words, Path.words, path_words] at hs
    simp only [List.append_assoc, List.cons_append] at hs
    rw [importDecl]
    refine .place fun start => .expect hs rfl fun u hu => ?_
    refine .eat_flag isStatic .kwStatic hu (of_decide_eq_false rfl) fun v hv => ?_
    refine .place fun pathStart => ?_
    refine .ident hv hn.1 fun x hx => ?_
    rw [reads_state]
    refine (importSegments_reads onDemand names _ x hnames hx (of_decide_eq_false rfl)
      (Nat.le_of_eq x.remaining_eq_length.symm)).bind fun found y hy hfound => ?_
    rw [hfound]
    refine .spanFrom fun place => .expect hy rfl fun z hz => ?_
    exact .spanFrom fun place' => .pure hz rfl

theorem imports_reads (is : List ImportDecl) (fuel : Nat) (s : ParserState)
    (h : ∀ i ∈ is, i.path.Surface t) (hs : s.ahead = is.flatMap (ImportDecl.words t) ++ rest)
    (hrest : firstKind rest ≠ .kwImport) (hf : s.ahead.length ≤ fuel) :
    (imports fuel).Reads t s rest fun found =>
      found.map ImportDecl.bare = is.map ImportDecl.bare := by
  induction is generalizing fuel s with
  | nil =>
    have hs : s.ahead = rest := hs
    cases fuel with
    | zero => exact .cutOff hs rfl
    | succ fuel =>
      rw [imports]
      exact .isAt_no (by rwa [hs]) (.no rfl (.pure hs rfl))
  | cons i is ih =>
    obtain ⟨hi, his⟩ := List.forall_mem_cons.1 h
    rw [List.flatMap_cons, List.append_assoc] at hs
    have hlen := congrArg List.length hs
    rw [List.length_append] at hlen
    -- An import has words, so fewer steps are enough for the others.
    have hpos : 0 < (i.words t).length := by
      rw [ImportDecl.words]
      simp only [List.length_append, List.length_cons]
      omega
    cases fuel with
    | zero => omega
    | succ fuel =>
      rw [imports]
      refine .isAt_yes (by rw [hs]; rfl) (.yes rfl ?_)
      refine (importDecl_reads hi hs).bind fun found u hu hfound => ?_
      refine (ih fuel u his hu ?_).bind fun more v hv hmore => .pure hv ?_
      · rw [hu]
        omega
      · rw [List.map_cons, List.map_cons, hfound, hmore]

/-! ### Files -/

/-- The first of some declarations, and then the others. -/
theorem topLevel_reads_cons {decl mid rest : List Word} {fuel : Nat} {ms : List Modifier}
    {P : TypeDecl → Prop} {Q : List TypeDecl → Prop} (hstarts : StartsMember s.ahead)
    (hmodifiers : modifiers.Reads t s decl (· = ms))
    (hdecl : ∀ u : ParserState, u.ahead = decl → startsDeclaration u = true)
    (hone : ∀ (u : ParserState) (start : Span), u.ahead = decl →
      (typeDecl ms start).Reads t u mid P)
    (hmore : ∀ u : ParserState, u.ahead = mid → (topLevel fuel).Reads t u rest Q) :
    (topLevel (fuel + 1)).Reads t s rest fun found =>
      ∃ d more, found = d :: more ∧ P d ∧ Q more := by
  rw [topLevel]
  refine .isAt_no (hstarts.ne (by simp)) (.no rfl ?_)
  refine .eat_no (hstarts.ne (by simp)) (.no rfl (.place fun start => ?_))
  refine hmodifiers.bind fun ms u hu hms => ?_
  rw [reads_state, hms]
  refine .yes (hdecl u hu) ((hone u start hu).bind fun d v hv hd => ?_)
  exact (hmore v hv).bind fun more x hx hq => .pure hx ⟨d, more, rfl, hd, hq⟩

theorem topLevel_reads (ds : List TypeDecl) (fuel : Nat) (s : ParserState)
    (h : ∀ d ∈ ds, d.Surface t)
    (hs : s.ahead = (ds.flatMap fun d =>
      d.head.modifiers.flatMap Modifier.words ++ d.words t) ++ [.eof])
    (hf : s.ahead.length ≤ fuel) :
    (topLevel fuel).Reads t s [.eof] fun found =>
      found.map TypeDecl.bare = ds.map TypeDecl.bare := by
  induction ds generalizing fuel s with
  | nil =>
    have hs : s.ahead = [.eof] := hs
    cases fuel with
    | zero => exact .cutOff hs rfl
    | succ fuel =>
      rw [topLevel]
      exact .isAt_yes (by rw [hs]; rfl) (.yes rfl (.pure hs rfl))
  | cons d ds ih =>
    obtain ⟨hd, hds⟩ := List.forall_mem_cons.1 h
    rw [List.flatMap_cons, List.append_assoc, List.append_assoc] at hs
    have hstarts : StartsMember s.ahead := by
      rw [hs]
      exact hd.startsMember
    have hlen := congrArg List.length hs
    rw [List.length_append, List.length_append] at hlen
    -- A declaration has words, so fewer steps are enough for the others.
    have hpos := hd.words_pos
    cases fuel with
    | zero => omega
    | succ fuel =>
      refine (topLevel_reads_cons hstarts (declModifiers_reads hd hs) (fun u => hd.startsDeclaration)
        (fun u start => typeDecl_reads hd) fun u hu => ih fuel u hds hu ?_).mono ?_
      · rw [hu]
        omega
      · rintro found ⟨d', more, rfl, hd', hmore⟩
        rw [List.map_cons, List.map_cons, hd', hmore]

/-- What declarations do not start with. -/
theorem firstKind_declarations {ds : List TypeDecl} (h : ∀ d ∈ ds, d.Surface t) {ws : List Word}
    (hws : ws = (ds.flatMap fun d =>
      d.head.modifiers.flatMap Modifier.words ++ d.words t) ++ [.eof]) :
    firstKind ws ≠ .kwImport ∧ firstKind ws ≠ .kwPackage ∧ Unannotated ws := by
  subst hws
  cases ds with
  | nil => exact ⟨of_decide_eq_false rfl, of_decide_eq_false rfl,
      unannotated_of_ne (of_decide_eq_false rfl)⟩
  | cons d ds =>
    rw [List.flatMap_cons, List.append_assoc, List.append_assoc]
    cases h d List.mem_cons_self with
    | @mk head members header constants body =>
      obtain ⟨name, hname, -⟩ := header.name
      rw [TypeDecl.words_append hname]
      show firstKind (head.modifiers.flatMap Modifier.words ++ _) ≠ _ ∧
        firstKind (head.modifiers.flatMap Modifier.words ++ _) ≠ _ ∧
        Unannotated (head.modifiers.flatMap Modifier.words ++ _)
      cases head.modifiers with
      | nil =>
        refine ⟨?_, ?_, (DeclKind.noModifier head.kind).unannotated⟩
        · cases head.kind <;> exact of_decide_eq_false rfl
        · cases head.kind <;> exact of_decide_eq_false rfl
      | cons m ms => cases m <;> exact ⟨of_decide_eq_false rfl, of_decide_eq_false rfl,
      unannotated_of_ne (of_decide_eq_false rfl)⟩

/-- A file whose declarations are read. -/
theorem unit_reads_of_types {package : Option PackageDecl} {is : List ImportDecl} {types : List Word}
    {P : List TypeDecl → Prop} (hpackage : ∀ p ∈ package, p.path.Surface t)
    (himports : ∀ i ∈ is, i.path.Surface t)
    (hfirst : firstKind types ≠ .kwImport ∧ firstKind types ≠ .kwPackage ∧ Unannotated types)
    (hs : s.ahead = (package.map (PackageDecl.words t)).getD [] ++
      (is.flatMap (ImportDecl.words t) ++ types))
    (htypes : ∀ u : ParserState, u.ahead = types → (topLevel u.remaining).Reads t u [.eof] P) :
    unit.Reads t s [.eof] fun found => found.package.map PackageDecl.bare =
        package.map PackageDecl.bare ∧
      found.imports.map ImportDecl.bare = is.map ImportDecl.bare ∧ P found.types := by
  obtain ⟨himport, hpackage', hplain⟩ := hfirst
  have hheader : firstKind (is.flatMap (ImportDecl.words t) ++ types) ≠ .kwPackage ∧
      Unannotated (is.flatMap (ImportDecl.words t) ++ types) := by
    cases is with
    | nil => exact ⟨hpackage', hplain⟩
    | cons i is => exact ⟨of_decide_eq_false rfl, unannotated_of_ne (of_decide_eq_false rfl)⟩
  rw [unit, reads_state]
  refine (orBack_reads (packageHeader_reads hpackage hs hheader.1 hheader.2) fun hnone => ?_).bind
    fun found a ha hfound => ?_
  · rw [Option.map_none] at hnone
    rw [hs, Option.map_eq_none_iff.1 hnone.symm]
    rfl
  rw [reads_state]
  refine (imports_reads is _ a himports ha himport (Nat.le_of_eq
    a.remaining_eq_length.symm)).bind fun imported b hb himported => ?_
  rw [reads_state]
  exact (htypes b hb).bind fun types c hc htypes =>
    .place fun place => .pure hc ⟨hfound, himported, htypes⟩

/-- **A whole file** is read back from its words. -/
theorem unit_reads {u : CompilationUnit} (h : u.Surface t) (hs : s.ahead = u.words t ++ [.eof]) :
    unit.Reads t s [.eof] fun found => found.bare = u.bare := by
  rw [CompilationUnit.words, List.append_assoc, List.append_assoc] at hs
  refine (unit_reads_of_types h.package h.imports (firstKind_declarations h.types rfl) hs
    fun v hv => topLevel_reads u.types _ v h.types hv
      (Nat.le_of_eq v.remaining_eq_length.symm)).mono ?_
  rintro found ⟨hpackage, himports, htypes⟩
  rw [CompilationUnit.bare, CompilationUnit.bare, hpackage, himports, htypes]

end Parser

/-- **Parsing undoes printing**: whatever tree of the grammar is printed, its text parses to this
    tree up to places, without a diagnostic and without a new name. -/
theorem parse_printed (t : NameTable) (u : CompilationUnit) (h : u.Surface t) (file : Nat) :
    ∃ u', parse file (printed (u.words t)) t = (u', t, []) ∧ u'.bare = u.bare := by
  obtain ⟨htokens, herrors⟩ := lex_printed (CompilationUnit.lexes_words h)
  obtain ⟨⟨hnames, hfindings, -⟩, hbare⟩ :=
    Parser.unit_reads (s := .start file (printed (u.words t)) t) h htokens rfl
  refine ⟨_, ?_, hbare⟩
  show (_, _, (lex file (printed (u.words t))).2 ++ _) = _
  rw [herrors, hnames, hfindings]
  rfl

/-! ### A text and its tree -/

/-- A table with three identifiers. -/
def shortNames : NameTable := ⟨#["", "A", "B", "C"], rfl, by decide⟩

theorem isIdentifier_letter {c : Char} (hc : isIdentStart c = true)
    (hfree : TokenKind.ofKeyword? (String.ofList [c]) = none)
    (hplain : String.ofList [c] ∉ ["record", "sealed", "non", "permits"]) :
    IsIdentifier (String.ofList [c]) :=
  ⟨⟨c, [], String.toList_ofList, hc, List.forall_mem_nil _⟩, hfree, hplain⟩

theorem shortNames_written : ∀ i ∈ [1, 2, 3], Name.Written shortNames ⟨i⟩ := by
  intro i hi
  simp only [List.mem_cons, List.not_mem_nil, or_false] at hi
  rcases hi with rfl | rfl | rfl
  · exact ⟨⟨"A", rfl⟩, isIdentifier_letter (c := 'A') (by decide) (by decide) (by decide)⟩
  · exact ⟨⟨"B", rfl⟩, isIdentifier_letter (c := 'B') (by decide) (by decide) (by decide)⟩
  · exact ⟨⟨"C", rfl⟩, isIdentifier_letter (c := 'C') (by decide) (by decide) (by decide)⟩

/-- `sealed interface A < B extends C < ? super B [ ] > > { enum C { A { int B ; } , ; } }` -/
def sealedUnit : CompilationUnit where
  package := none
  imports := []
  types := [.mk ⟨.interfaceType, some ⟨1⟩, .nowhere, [.sealed], [⟨⟨2⟩,
    [.classType [.mk ⟨3⟩ [.wildcardSuper
      (.array (.classType [.mk ⟨2⟩ []] .nowhere) .nowhere) .nowhere]] .nowhere], .nowhere⟩],
    [], [], .nowhere⟩
    [.type (.mk ⟨.enumType, some ⟨3⟩, .nowhere, [], [], [], [], .nowhere⟩
      [.constant ⟨1⟩ (some (.mk ⟨.classType, none, .nowhere, [], [], [], [], .nowhere⟩
        [.field ⟨[], .primitive .int .nowhere, [⟨⟨2⟩, 0, .nowhere⟩], .nowhere⟩])) .nowhere])]]
  span := .nowhere

theorem sealedUnit_surface : sealedUnit.Surface shortNames := by
  have hA : Name.Written shortNames ⟨1⟩ := shortNames_written 1 (by decide)
  have hB : Name.Written shortNames ⟨2⟩ := shortNames_written 2 (by decide)
  have hC : Name.Written shortNames ⟨3⟩ := shortNames_written 3 (by decide)
  have hplain : TypeRef.Surface shortNames (.classType [.mk ⟨2⟩ []] .nowhere) :=
    .classType (List.cons_ne_nil _ _) (List.forall_mem_singleton.2 hB)
      (List.forall_mem_singleton.2 (List.forall_mem_nil _))
  have hbound : TypeRef.Surface shortNames (.classType [.mk ⟨3⟩ [.wildcardSuper
      (.array (.classType [.mk ⟨2⟩ []] .nowhere) .nowhere) .nowhere]] .nowhere) :=
    .classType (List.cons_ne_nil _ _) (List.forall_mem_singleton.2 hC)
      (List.forall_mem_singleton.2 (List.forall_mem_singleton.2 (.wildcardSuper (.array hplain))))
  have hfield : FieldDecl.Surface shortNames
      ⟨[], .primitive .int .nowhere, [⟨⟨2⟩, 0, .nowhere⟩], .nowhere⟩ :=
    ⟨List.nodup_nil, List.forall_mem_nil _, .primitive, List.cons_ne_nil _ _,
      List.forall_mem_singleton.2 hB⟩
  refine ⟨fun p hp => absurd hp (Option.not_mem_none p), List.forall_mem_nil _,
    List.forall_mem_singleton.2 (.mk ?_ ?_ ?_)⟩
  · exact ⟨⟨_, rfl, hA⟩, by decide, by decide, by decide,
      List.forall_mem_singleton.2 ⟨hB, List.forall_mem_singleton.2 hbound⟩, List.forall_mem_nil _,
      List.forall_mem_nil _, trivial, fun _ => rfl⟩
  · exact List.forall_mem_singleton.2 rfl
  refine List.forall_mem_singleton.2 (.type (.mk ?_ ?_ ?_))
  · exact ⟨⟨_, rfl, hC⟩, by decide, by decide, by decide, List.forall_mem_nil _,
      List.forall_mem_nil _, List.forall_mem_nil _, rfl, by decide⟩
  · exact List.forall_mem_nil _
  refine List.forall_mem_singleton.2 (.withBody hA ⟨rfl, rfl, rfl, rfl, rfl, rfl⟩ ?_ ?_)
  · exact List.forall_mem_singleton.2 rfl
  · exact List.forall_mem_singleton.2 (.field hfield)

/-- The text of the sealed interface, and that it is read back. -/
theorem parse_printed_sealed :
    printed (sealedUnit.words shortNames) = "sealed interface A < B extends C < ? super B [ ] > > "
      ++ "\x7b enum C \x7b A \x7b int B ; \x7d , ; \x7d \x7d" ∧
    ∃ u', parse 0 (printed (sealedUnit.words shortNames)) shortNames = (u', shortNames, []) ∧
      u'.bare = sealedUnit.bare :=
  ⟨by decide, parse_printed shortNames sealedUnit sealedUnit_surface 0⟩

end JavaAbi
