import JavaAbi.Proofs.RoundTrip

namespace JavaAbi

/-!
# Fields among the members of a class

A field declaration in the body of a class, with initializers that are words only, is read as one
field with just the variables that it declares.

A `,` in an initializer ends it where a name and one of `=`, `,`, `;`, `[` follow, also between type
arguments. So the condition on the commas cannot be dropped: such a type argument is read as a
variable, and the variables after it may be lost.

* `ClassWithField` — a file whose class has such a field among other members;
* `parse_initialized` — the field is read as it is written;
* `parse_argument_list` — type arguments that are read as variables.
-/

/-- A file with one class, and a field declaration with initializers among its members. -/
structure ClassWithField where
  package : Option PackageDecl
  imports : List ImportDecl
  head : DeclHead
  before : List Member
  field : WrittenField
  after : List Member

namespace ClassWithField

/-- The tree of the file. -/
def unit (c : ClassWithField) : CompilationUnit where
  package := c.package
  imports := c.imports
  types := [.mk c.head (c.before ++ .field c.field.decl :: c.after)]
  span := .nowhere

section

variable (t : NameTable)

/-- The words of the body from the field on. -/
def laterWords (c : ClassWithField) : List Word :=
  c.field.words t ++ ((c.after.map (Member.words t)).flatten ++ [.rightBrace])

/-- The words of the body. -/
def bodyWords (c : ClassWithField) : List Word :=
  .leftBrace :: ((c.before.map (Member.words t)).flatten ++ c.laterWords t)

/-- The words of the class with its modifiers. -/
def classWords (c : ClassWithField) : List Word :=
  c.head.modifiers.flatMap Modifier.words ++ c.head.startWords t ++ c.head.clauses t
    ++ c.bodyWords t

/-- The words of the file. -/
def words (c : ClassWithField) : List Word :=
  (c.package.map (PackageDecl.words t)).getD [] ++ c.imports.flatMap (ImportDecl.words t)
    ++ c.classWords t

/-- A file that is read as it is written. -/
structure Readable (c : ClassWithField) : Prop where
  package : ∀ p ∈ c.package, p.path.Surface t
  imports : ∀ i ∈ c.imports, i.path.Surface t
  header : c.head.Surface t
  kind : c.head.kind = .classType
  before : ∀ m ∈ c.before, m.Surface t ∧ m.isConstant = false
  field : c.field.Readable t
  after : ∀ m ∈ c.after, m.Surface t ∧ m.isConstant = false

end

end ClassWithField

namespace Parser

variable {t : NameTable} {s : ParserState}

/-! ### The body of the class -/

/-- Some members, and then others. The induction is on the members read first. -/
theorem members_reads_append {mid rest : List Word} {Q : List Member → Prop} (ms : List Member)
    (fuel : Nat) (s : ParserState) (h : ∀ m ∈ ms, m.Surface t ∧ m.isConstant = false)
    (hs : s.ahead = (ms.map (Member.words t)).flatten ++ mid)
    (hf : 5 * s.ahead.length + 2 ≤ fuel)
    (hmore : ∀ (fuel : Nat) (u : ParserState), u.ahead = mid → 5 * u.ahead.length + 2 ≤ fuel →
      (members fuel).Reads t u rest Q) :
    (members fuel).Reads t s rest fun found =>
      ∃ first more, found = first ++ more ∧ first.map Member.bare = ms.map Member.bare ∧
        Q more := by
  induction ms generalizing fuel s with
  | nil => exact (hmore fuel s hs hf).mono fun found hfound => ⟨[], found, rfl, rfl, hfound⟩
  | cons m ms ih =>
    obtain ⟨⟨hm, hplain⟩, hms⟩ := List.forall_mem_cons.1 h
    rw [List.map_cons, List.flatten_cons, List.append_assoc] at hs
    have hstarts : StartsMember s.ahead := by
      rw [hs]
      exact hm.startsMember hplain
    have hlen := congrArg List.length hs
    rw [List.length_append] at hlen
    have hpos := hm.words_ne_nil hplain
    cases fuel with
    | zero => omega
    | succ fuel =>
      refine (members_reads_cons hstarts (by omega) (member_reads fuel m s hm hplain hs (by omega))
        fun u hu => ih fuel u hms hu (by rw [hu]; omega)).mono ?_
      rintro found ⟨found, more, rfl, ⟨m', rfl, hm'⟩, first, others, rfl, hfirst, hothers⟩
      refine ⟨m' :: first, others, rfl, ?_, hothers⟩
      rw [List.map_cons, List.map_cons, hm', hfirst]

theorem classBody_reads_field {c : ClassWithField} {rest : List Word} {fuel : Nat}
    (h : c.Readable t) (hs : s.ahead = c.bodyWords t ++ rest) (hf : 5 * s.ahead.length + 3 ≤ fuel) :
    (classBody fuel).Reads t s rest fun found => found.map Member.bare =
      (c.before ++ .field c.field.decl :: c.after).map Member.bare := by
  rw [ClassWithField.bodyWords, ClassWithField.laterWords, List.cons_append, List.append_assoc,
    List.append_assoc, List.append_assoc] at hs
  have hlen := congrArg List.length hs
  rw [List.length_cons] at hlen
  cases fuel with
  | zero => omega
  | succ fuel =>
    rw [classBody]
    refine .expect hs rfl fun u hu => ?_
    rw [← hu] at hlen
    -- From the field on: the field with its initializer, then members as they are printed.
    have hfield : ∀ (fuel : Nat) (v : ParserState), v.ahead = c.field.words t ++
          ((c.after.map (Member.words t)).flatten ++ .rightBrace :: rest) →
        5 * v.ahead.length + 2 ≤ fuel →
        (members fuel).Reads t v (.rightBrace :: rest) fun found => found.map Member.bare =
          (Member.field c.field.decl :: c.after).map Member.bare := by
      intro fuel v hv hfuel
      have hstarts : StartsMember v.ahead := by
        rw [hv]
        exact h.field.startsMember
      have hvlen := congrArg List.length hv
      have hpos : 0 < (c.field.words t).length := by
        rw [WrittenField.words, List.length_append, List.length_singleton]
        exact Nat.succ_pos _
      rw [List.length_append] at hvlen
      obtain ⟨fuel, rfl⟩ : ∃ k, fuel = k + 2 := ⟨fuel - 2, by omega⟩
      refine (members_reads_cons hstarts (by omega) (member_reads_field h.field hv) fun x hx =>
        members_reads (fuel + 1) c.after x (fun m hm => (h.after m hm).1)
          (fun m hm => (h.after m hm).2) hx (by rw [hx]; omega)).mono ?_
      rintro found ⟨found, more, rfl, ⟨g, rfl, hg⟩, hmore⟩
      rw [Option.toList_some, List.singleton_append, List.map_cons, List.map_cons, hmore,
        Member.bare, Member.bare, hg]
    refine (members_reads_append c.before fuel u h.before hu (by omega) hfield).bind
      fun found v hv hfound => .expect hv rfl fun x hx => .pure hx ?_
    obtain ⟨first, more, rfl, hfirst, hmore⟩ := hfound
    rw [List.map_append, List.map_append, hfirst, hmore]

/-! ### The file -/

theorem typeDecl_reads_field {c : ClassWithField} {rest : List Word} {start : Span}
    (h : c.Readable t) (hs : s.ahead = c.head.startWords t ++ (c.head.clauses t ++
      (c.bodyWords t ++ rest))) :
    (typeDecl c.head.modifiers start).Reads t s rest fun found =>
      found.bare = (TypeDecl.mk c.head (c.before ++ .field c.field.decl :: c.after)).bare := by
  obtain ⟨name, hname, -⟩ := h.header.name
  have hkind : c.head.kind ≠ .enumType ∧ c.head.kind ≠ .recordType := by
    rw [h.kind]
    decide
  -- a class has no components
  have hcomponents : componentWords t c.head.kind [] = [] := if_neg hkind.2
  have hnone : recordComponents c.head.kind [] = [] := if_neg hkind.2
  have hs : s.ahead = c.head.kind.words ++ name.word t :: (typeParamWords t c.head.typeParams ++
      (componentWords t c.head.kind [] ++ (clauseWords t .kwExtends .comma c.head.extended ++
        (clauseWords t .kwImplements .comma c.head.implemented ++ (c.bodyWords t ++ rest))))) := by
    rw [hs, hcomponents, DeclHead.startWords, DeclHead.clauses, hname]
    simp only [List.append_assoc, Option.toList_some, List.map_cons, List.map_nil, List.cons_append,
      List.nil_append]
  have hlen := congrArg List.length hs
  simp only [List.length_append, List.length_cons] at hlen
  rw [typeDecl, reads_steps]
  refine (declWithin_reads_of_body (P := fun found => found.map Member.bare =
      (c.before ++ .field c.field.decl :: c.after).map Member.bare) h.header hname
    (by rw [hnone]; exact List.forall_mem_nil _) hs fun u hu => ?_).mono ?_
  · have hu : u.ahead = c.bodyWords t ++ rest := hu
    have hulen := congrArg List.length hu
    rw [List.length_append] at hulen
    rw [if_neg hkind.1]
    exact classBody_reads_field h hu (by rw [s.remaining_eq_length]; omega)
  · rintro ⟨head, members⟩ ⟨fields, body, hhead, hmembers, hfields, hbody⟩
    have hhead : head.bare = c.head.bare := hhead
    have hmembers : members = fields.map Member.field ++ body := hmembers
    rw [hnone] at hfields
    obtain rfl : fields = [] := List.map_eq_nil_iff.1 hfields
    rw [TypeDecl.bare, TypeDecl.bare, Member.bareAll_eq_map, Member.bareAll_eq_map, hhead, hmembers]
    exact congrArg _ hbody

theorem unit_reads_field {c : ClassWithField} (h : c.Readable t)
    (hs : s.ahead = c.words t ++ [.eof]) :
    unit.Reads t s [.eof] fun found => found.bare = c.unit.bare := by
  obtain ⟨name, hname, -⟩ := h.header.name
  -- The class begins with its keyword, behind its modifiers.
  have hclass : ∃ more, c.head.startWords t = c.head.kind.words ++ more := by
    rw [DeclHead.startWords, List.append_assoc]
    exact ⟨_, rfl⟩
  obtain ⟨more, hmore⟩ := hclass
  have hfirst : firstKind (c.classWords t ++ [.eof]) ≠ .kwImport ∧
      firstKind (c.classWords t ++ [.eof]) ≠ .kwPackage ∧
      Unannotated (c.classWords t ++ [.eof]) := by
    rw [ClassWithField.classWords, hmore, h.kind]
    cases c.head.modifiers with
    | nil => exact ⟨of_decide_eq_false rfl, of_decide_eq_false rfl,
        unannotated_of_ne (of_decide_eq_false rfl)⟩
    | cons m ms => cases m <;> exact ⟨of_decide_eq_false rfl, of_decide_eq_false rfl,
        unannotated_of_ne (of_decide_eq_false rfl)⟩
  rw [ClassWithField.words, List.append_assoc, List.append_assoc] at hs
  refine (unit_reads_of_types (P := fun types => types.map TypeDecl.bare =
    c.unit.types.map TypeDecl.bare) h.package h.imports hfirst hs fun u hu => ?_).mono ?_
  · have hstarts : StartsMember u.ahead := by
      rw [hu, ClassWithField.classWords, hmore]
      simp only [List.append_assoc]
      exact .modifiers _ (DeclKind.startsMember _)
    have hparts : u.ahead = c.head.modifiers.flatMap Modifier.words ++ (c.head.startWords t ++
        (c.head.clauses t ++ (c.bodyWords t ++ [.eof]))) := by
      rw [hu, ClassWithField.classWords]
      simp only [List.append_assoc]
    have hmodifiers : modifiers.Reads t u (c.head.startWords t ++ (c.head.clauses t ++
        (c.bodyWords t ++ [.eof]))) (· = c.head.modifiers) := by
      rw [hmore, List.append_assoc] at hparts ⊢
      exact headModifiers_reads h.header hparts
    -- After the class the file is at its end.
    have hend : ∀ (fuel : Nat) (v : ParserState), v.ahead = [.eof] →
        (topLevel fuel).Reads t v [.eof] fun found => found = [] := by
      intro fuel v hv
      cases fuel with
      | zero => exact .cutOff hv rfl
      | succ fuel =>
        rw [topLevel]
        exact .isAt_yes (by rw [hv]; rfl) (.yes rfl (.pure hv rfl))
    obtain ⟨fuel, hfuel⟩ : ∃ fuel, u.remaining = fuel + 1 := by
      refine Nat.exists_eq_succ_of_ne_zero ?_
      rw [u.remaining_eq_length, hu, List.length_append]
      exact Nat.succ_ne_zero _
    rw [hfuel]
    refine (topLevel_reads_cons hstarts hmodifiers (fun v hv => ?_)
      (fun v start hv => typeDecl_reads_field h hv) fun v hv => hend fuel v hv).mono ?_
    · unfold startsDeclaration
      rw [v.current_kind, hv, hmore, h.kind]
      rfl
    · rintro found ⟨d, more, rfl, hd, rfl⟩
      rw [List.map_singleton, hd]
      rfl
  · rintro found ⟨hpackage, himports, htypes⟩
    rw [CompilationUnit.bare, CompilationUnit.bare, hpackage, himports, htypes]
    rfl

end Parser

/-- **Initializers neither invent nor lose variables**: a class is parsed with just the variables
    that its fields declare and without a diagnostic, whatever words stand for an initializer, as
    long as no `,` outside brackets in it stands before a name and one of `=`, `,`, `;`, `[`. -/
theorem parse_initialized {t : NameTable} {c : ClassWithField} (h : c.Readable t) {file : Nat}
    {source : String} (hclean : (lex file source).2 = [])
    (hws : (lex file source).1.map Token.word = c.words t ++ [.eof]) :
    ∃ u, parse file source t = (u, t, []) ∧ u.bare = c.unit.bare := by
  obtain ⟨⟨hnames, hfindings, -⟩, hbare⟩ :=
    Parser.unit_reads_field (s := .start file source t) h hws rfl
  refine ⟨_, ?_, hbare⟩
  show (_, _, (lex file source).2 ++ _) = _
  rw [hclean, hnames, hfindings]
  rfl

/-! ### Two lists of type arguments -/

/-- A table with the names of a class, a type and two variables. -/
def fieldNames : NameTable := ⟨#["", "A", "M", "m", "n"], rfl, by decide⟩

/-- `class A { M m = …, n; }` -/
def initializedClass (ws : List Word) : ClassWithField where
  package := none
  imports := []
  head := ⟨.classType, some ⟨1⟩, .nowhere, [], [], [], [], .nowhere⟩
  before := []
  field := ⟨[], .classType [.mk ⟨2⟩ []] .nowhere,
    [⟨⟨⟨3⟩, 0, .nowhere⟩, some ws⟩, ⟨⟨⟨4⟩, 0, .nowhere⟩, none⟩]⟩
  after := []

theorem initializedClass_readable {ws : List Word} (h : IsInitializer ws)
    (hkeeps : KeepsCommas ws) : (initializedClass ws).Readable fieldNames := by
  have hA : Name.Written fieldNames ⟨1⟩ :=
    ⟨⟨"A", rfl⟩, isIdentifier_letter (c := 'A') (by decide) (by decide) (by decide)⟩
  have hM : Name.Written fieldNames ⟨2⟩ :=
    ⟨⟨"M", rfl⟩, isIdentifier_letter (c := 'M') (by decide) (by decide) (by decide)⟩
  refine ⟨fun p hp => absurd hp (Option.not_mem_none p), List.forall_mem_nil _, ?_, rfl,
    List.forall_mem_nil _, ?_, List.forall_mem_nil _⟩
  · exact ⟨⟨_, rfl, hA⟩, List.nodup_nil, Nat.zero_le _, List.forall_mem_nil _,
      List.forall_mem_nil _, List.forall_mem_nil _, List.forall_mem_nil _, Nat.zero_le _,
      fun _ => rfl⟩
  · refine ⟨List.nodup_nil, List.forall_mem_nil _, ?_, List.cons_ne_nil _ _, ?_⟩
    · exact .classType (List.cons_ne_nil _ _) (List.forall_mem_singleton.2 hM)
        (List.forall_mem_singleton.2 (List.forall_mem_nil _))
    · refine List.forall_mem_cons.2 ⟨⟨⟨"m", rfl⟩, ?_, ?_⟩, List.forall_mem_singleton.2
        ⟨⟨"n", rfl⟩, ?_, ?_⟩⟩
      · rintro _ ⟨⟩
        exact h
      · rintro _ ⟨⟩
        exact hkeeps
      · exact fun ws hws => absurd hws (Option.not_mem_none ws)
      · exact fun ws hws => absurd hws (Option.not_mem_none ws)

/-- `new M < B , C < D > > ( )` -/
def nestedArguments : List Word :=
  [.ident "new", .ident "M", .less, .ident "B", .comma, .ident "C", .less, .ident "D", .greater,
    .greater, .leftParen, .rightParen]

/-- Two arguments, of which the second is no plain name. -/
theorem parse_nested_arguments :
    ∃ u, parse 0 "class A \x7b M m = new M<B, C<D>>(), n; \x7d" fieldNames = (u, fieldNames, []) ∧
      u.bare = (initializedClass nestedArguments).unit.bare :=
  parse_initialized (initializedClass_readable (by decide +kernel) (by decide +kernel))
    (by decide +kernel) (by decide +kernel)

/-- `new M < B , C , D > ( )` -/
def threeArguments : List Word :=
  [.ident "new", .ident "M", .less, .ident "B", .comma, .ident "C", .comma, .ident "D", .greater,
    .leftParen, .rightParen]

/-- The names of the variables that a file declares, by type and member. -/
def variableNames (u : CompilationUnit) (t : NameTable) : List (List (List String)) :=
  u.types.map fun d => d.members.map fun
    | .field f => f.declarators.map fun v => t.text v.name
    | _ => []

/-- **Three arguments**: the second and the third are read as variables, and `n` is not. -/
theorem parse_argument_list :
    let source := "class A \x7b M m = new M<B, C, D>(), n; \x7d"
    IsInitializer threeArguments ∧
      (lex 0 source).1.map Token.word =
        (initializedClass threeArguments).words fieldNames ++ [.eof] ∧
      variableNames (initializedClass threeArguments).unit fieldNames = [[["m", "n"]]] ∧
      variableNames (parse 0 source fieldNames).1 (parse 0 source fieldNames).2.1 =
        [[["m", "C", "D"]]] ∧
      (parse 0 source fieldNames).2.2.map Diagnostic.message ≠ [] := by
  decide +kernel

end JavaAbi
