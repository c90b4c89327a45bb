import JavaAbi.Proofs.FirstLexemes
import JavaAbi.Proofs.Printing

namespace JavaAbi

/-!
# The tokens of printed words

Words with blanks between them are lexed as these words, without errors. All words that a tree is
printed with are such words.

* `Word.Lexes` — a word that is lexed as itself;
* `lex_printed` — the tokens of printed words;
* `CompilationUnit.lexes_words` — the words of a tree.
-/

/-! ### Words that are lexed as themselves -/

/-- What may follow a word: nothing, or a blank. -/
def Spaced (rest : List Char) : Prop := rest = [] ∨ ∃ more, rest = ' ' :: more

/-- A word is lexed as itself where nothing or a blank follows. -/
def Word.Lexes (w : Word) : Prop :=
  ∃ c cs, w.2.toList = c :: cs ∧ isBlank c = false ∧
    ∀ rest, Spaced rest → Lexeme.next c (cs ++ rest) = (.token w.1, cs.length)

/-- The characters of a word end at a blank. -/
theorem takeWhile_isIdentRest {cs rest : List Char} (h : ∀ x ∈ cs, isIdentRest x = true)
    (hrest : Spaced rest) : (cs ++ rest).takeWhile isIdentRest = cs := by
  rw [List.takeWhile_append_of_pos h]
  rcases hrest with rfl | ⟨more, rfl⟩
  · rw [List.takeWhile_nil, List.append_nil]
  · rw [List.takeWhile_cons_of_neg (by decide), List.append_nil]

theorem Word.lexes_of_chars {w : Word} {c : Char} {cs : List Char} (htext : w.2.toList = c :: cs)
    (hc : isIdentStart c = true) (hcs : ∀ x ∈ cs, isIdentRest x = true)
    (hkind : (TokenKind.ofKeyword? w.2).getD .identifier = w.1) : w.Lexes := by
  refine ⟨c, cs, htext, isBlank_of_isIdentStart hc, fun rest hrest => ?_⟩
  have hword : String.ofList (c :: cs) = w.2 := by rw [← htext, String.ofList_toList]
  have hstarts := @Lexeme.Starts.word c (cs ++ rest) hc
  rw [takeWhile_isIdentRest hcs hrest, hword, hkind] at hstarts
  exact hstarts.next

/-- The marks among the words. -/
def Word.marks : List Word :=
  [leftBrace, rightBrace, leftParen, rightParen, leftBracket, rightBracket, semicolon, comma, dot,
    atSign, question, less, greater, ampersand, minus, star]

theorem Word.lexes_of_mem_marks {w : Word} (h : w ∈ marks) : w.Lexes := by
  have hmarks : ∀ w ∈ marks, w.Lexes := by
    simp only [marks, List.forall_mem_cons]
    refine ⟨?_, ?_, ?_, ?_, ?_, ?_, ?_, ?_, ?_, ?_, ?_, ?_, ?_, ?_, ?_, ?_,
      List.forall_mem_nil _⟩ <;>
      exact ⟨_, [], rfl, rfl, fun rest hrest => by rcases hrest with rfl | ⟨more, rfl⟩ <;> rfl⟩
  exact hmarks w h

/-- Whether a word is a mark, a reserved word or an identifier. -/
def Word.isPlain (w : Word) : Bool :=
  marks.contains w ||
    match w.2.toList with
    | [] => false
    | c :: cs =>
      isIdentStart c && cs.all isIdentRest && (TokenKind.ofKeyword? w.2).getD .identifier = w.1

theorem Word.lexes_of_isPlain {w : Word} (h : w.isPlain = true) : w.Lexes := by
  rcases Bool.or_eq_true_iff.1 h with h | h
  · exact lexes_of_mem_marks (List.contains_iff_mem.1 h)
  · split at h
    · cases h
    · rename_i c cs htext
      obtain ⟨h, hkind⟩ := Bool.and_eq_true_iff.1 h
      obtain ⟨hc, hcs⟩ := Bool.and_eq_true_iff.1 h
      exact lexes_of_chars htext hc (List.all_eq_true.1 hcs) (of_decide_eq_true hkind)

/-! ### Lexing -/

section Lexing

variable {file pos : Nat} {w : Word} {rest : List Char}

theorem all_word (pos : Nat) (h : w.Lexes) (hrest : Spaced rest) :
    Lexeme.all pos (w.2.toList ++ rest) =
      ⟨.token w.1, w.2.toList, pos⟩ :: Lexeme.all (pos + byteLength w.2.toList) rest := by
  obtain ⟨c, cs, htext, -, hnext⟩ := h
  rw [htext, List.cons_append, Lexeme.all, hnext rest hrest]
  simp

theorem all_blank {c : Char} {more : List Char} (h : isBlank c = false) :
    Lexeme.all pos (' ' :: c :: more) =
      ⟨.blank, [' '], pos⟩ :: Lexeme.all (pos + 1) (c :: more) := by
  have hnext : Lexeme.next ' ' (c :: more) = (.blank, 0) := by
    rw [(Lexeme.Starts.blank (by decide)).next, List.takeWhile_cons_of_neg (by rw [h]; decide)]
    rfl
  rw [Lexeme.all, hnext]
  rfl

/-- Words with blanks between them are lexed as these words. -/
theorem all_blanked (file pos : Nat) {ws : List Word} (h : ∀ w ∈ ws, w.Lexes) :
    ((Lexeme.all pos (blanked ws)).filterMap (Lexeme.token? file)).map Token.word = ws ∧
      (Lexeme.all pos (blanked ws)).filterMap (Lexeme.error? file) = [] := by
  have htoken : ∀ (w : Word) (pos : Nat),
      (Lexeme.token? file ⟨.token w.1, w.2.toList, pos⟩).map Token.word = some w := by
    intro w pos
    show some (w.1, String.ofList w.2.toList) = _
    rw [String.ofList_toList]
  induction ws generalizing pos with
  | nil => simp [blanked, Lexeme.all]
  | cons w rest ih =>
    obtain ⟨hw, hrest⟩ := List.forall_mem_cons.1 h
    cases rest with
    | nil =>
      have hall := all_word pos hw (.inl rfl)
      rw [List.append_nil] at hall
      rw [blanked, hall, Lexeme.all]
      obtain ⟨token, htok, hword⟩ := Option.map_eq_some_iff.1 (htoken w pos)
      refine ⟨?_, rfl⟩
      rw [List.filterMap_cons_some htok, List.map_cons, hword]
      rfl
    | cons v rest =>
      obtain ⟨c, cs, htext, hc, -⟩ := hrest v List.mem_cons_self
      -- The next word begins behind a single blank.
      have hstart : ∃ more, blanked (v :: rest) = c :: more := by
        cases rest with
        | nil => exact ⟨cs, by rw [blanked, htext]⟩
        | cons x rest =>
          refine ⟨cs ++ ' ' :: blanked (x :: rest), ?_⟩
          rw [blanked, htext]
          · rfl
          · simp
      obtain ⟨more, hmore⟩ := hstart
      obtain ⟨htokens, herrors⟩ := ih (pos + byteLength w.2.toList + 1) hrest
      rw [blanked, all_word pos hw (.inr ⟨_, rfl⟩), hmore, all_blank hc, ← hmore]
      · obtain ⟨token, htok, hword⟩ := Option.map_eq_some_iff.1 (htoken w pos)
        refine ⟨?_, herrors⟩
        rw [List.filterMap_cons_some htok, List.map_cons, hword]
        exact congrArg _ htokens
      · simp

/-- **The tokens of printed words** are these words, and `eof`. -/
theorem lex_printed {ws : List Word} (h : ∀ w ∈ ws, w.Lexes) :
    (lex file (printed ws)).1.map Token.word = ws ++ [(.eof, "")] ∧
      (lex file (printed ws)).2 = [] := by
  obtain ⟨htokens, herrors⟩ := all_blanked file 0 h
  have htext : (printed ws).toList = blanked ws := String.toList_ofList
  constructor
  · rw [lex, htext]
    dsimp only
    rw [List.map_append, htokens]
    rfl
  · rw [lex, htext]
    exact herrors

end Lexing

/-! ### The words of trees -/

section Trees

variable {t : NameTable}

theorem lexes_separated {separator : Word} {pieces : List (List Word)} (hs : separator.Lexes)
    (h : ∀ piece ∈ pieces, ∀ w ∈ piece, w.Lexes) : ∀ w ∈ separated separator pieces, w.Lexes := by
  cases pieces with
  | nil => exact List.forall_mem_nil _
  | cons piece rest =>
    obtain ⟨hpiece, hrest⟩ := List.forall_mem_cons.1 h
    intro w hw
    rcases List.mem_append.1 hw with hw | hw
    · exact hpiece w hw
    · obtain ⟨next, hnext, hw⟩ := List.mem_flatMap.1 hw
      rcases List.mem_cons.1 hw with rfl | hw
      · exact hs
      · exact hrest next hnext w hw

theorem Name.Written.lexes {n : Name} (h : n.Written t) : (n.word t).Lexes := by
  obtain ⟨-, ⟨c, cs, htext, hc, hcs⟩, hfree, -⟩ := h
  refine Word.lexes_of_chars htext hc hcs ?_
  show (TokenKind.ofKeyword? (t.text n)).getD .identifier = .identifier
  rw [hfree]
  rfl

theorem lexes_append {as bs : List Word} (ha : ∀ w ∈ as, w.Lexes) (hb : ∀ w ∈ bs, w.Lexes) :
    ∀ w ∈ as ++ bs, w.Lexes := fun w hw =>
  (List.mem_append.1 hw).elim (ha w) (hb w)

theorem lexes_cons {a : Word} {bs : List Word} (ha : a.isPlain = true) (hb : ∀ w ∈ bs, w.Lexes) :
    ∀ w ∈ a :: bs, w.Lexes := List.forall_mem_cons.2 ⟨Word.lexes_of_isPlain ha, hb⟩

theorem lexes_singleton {a : Word} (ha : a.isPlain = true) : ∀ w ∈ [a], w.Lexes :=
  lexes_cons ha (List.forall_mem_nil _)

theorem lexes_flatten {pieces : List (List Word)} (h : ∀ piece ∈ pieces, ∀ w ∈ piece, w.Lexes) :
    ∀ w ∈ pieces.flatten, w.Lexes := by
  intro w hw
  obtain ⟨piece, hpiece, hw⟩ := List.mem_flatten.1 hw
  exact h piece hpiece w hw

theorem lexes_map {α : Type} {items : List α} {f : α → List Word}
    (h : ∀ a ∈ items, ∀ w ∈ f a, w.Lexes) : ∀ piece ∈ items.map f, ∀ w ∈ piece, w.Lexes := by
  intro piece hpiece
  obtain ⟨a, ha, rfl⟩ := List.mem_map.1 hpiece
  exact h a ha

theorem lexes_flatMap {α : Type} {items : List α} {f : α → List Word}
    (h : ∀ a ∈ items, ∀ w ∈ f a, w.Lexes) : ∀ w ∈ items.flatMap f, w.Lexes := by
  intro w hw
  obtain ⟨a, ha, hw⟩ := List.mem_flatMap.1 hw
  exact h a ha w hw

theorem Modifier.lexes_words (ms : List Modifier) :
    ∀ w ∈ ms.flatMap Modifier.words, w.Lexes := by
  refine lexes_flatMap fun m _ w hw => Word.lexes_of_isPlain ?_
  have hplain : ∀ w ∈ m.words, w.isPlain = true := by cases m <;> decide
  exact hplain w hw

theorem lexes_dimensionWords (n : Nat) : ∀ w ∈ dimensionWords n, w.Lexes := by
  induction n with
  | zero => exact List.forall_mem_nil _
  | succ n ih => exact lexes_cons (by decide) (lexes_cons (by decide) ih)

mutual

theorem TypeRef.lexes_words (r : TypeRef) (h : r.Argument t) : ∀ w ∈ r.words t, w.Lexes := by
  match r with
  | .primitive p _ =>
    rw [TypeRef.words]
    exact lexes_singleton (by cases p <;> decide)
  | .void _ =>
    rw [TypeRef.words]
    exact lexes_singleton (by decide)
  | .classType segments _ =>
    cases h with
    | type plain =>
      cases plain with
      | classType _ names args =>
        rw [TypeRef.words]
        exact lexes_separated (Word.lexes_of_isPlain (by decide))
          (ClassSegment.lexes_eachWords segments names args)
  | .array component _ =>
    cases h with
    | type plain =>
      cases plain with
      | array inner =>
        rw [TypeRef.words]
        exact lexes_append (TypeRef.lexes_words component (.type inner))
          (lexes_cons (by decide) (lexes_singleton (by decide)))
  | .wildcard _ =>
    rw [TypeRef.words]
    exact lexes_singleton (by decide)
  | .wildcardExtends bound _ =>
    cases h with
    | type plain => cases plain
    | wildcardExtends inner =>
      rw [TypeRef.words]
      exact lexes_cons (by decide)
        (lexes_cons (by decide) (TypeRef.lexes_words bound (.type inner)))
  | .wildcardSuper bound _ =>
    cases h with
    | type plain => cases plain
    | wildcardSuper inner =>
      rw [TypeRef.words]
      exact lexes_cons (by decide)
        (lexes_cons (by decide) (TypeRef.lexes_words bound (.type inner)))
  | .error _ =>
    rw [TypeRef.words]
    exact List.forall_mem_nil _

theorem ClassSegment.lexes_eachWords (segments : List ClassSegment)
    (names : ∀ seg ∈ segments, seg.name.Written t)
    (args : ∀ seg ∈ segments, ∀ a ∈ seg.args, a.Argument t) :
    ∀ piece ∈ ClassSegment.eachWords t segments, ∀ w ∈ piece, w.Lexes := by
  match segments with
  | [] =>
    rw [ClassSegment.eachWords]
    exact List.forall_mem_nil _
  | .mk name [] :: rest =>
    obtain ⟨hname, names⟩ := List.forall_mem_cons.1 names
    rw [ClassSegment.eachWords]
    exact List.forall_mem_cons.2 ⟨List.forall_mem_singleton.2 hname.lexes,
      ClassSegment.lexes_eachWords rest names (List.forall_mem_cons.1 args).2⟩
  | .mk name (arg :: more) :: rest =>
    obtain ⟨hname, names⟩ := List.forall_mem_cons.1 names
    obtain ⟨hargs, args⟩ := List.forall_mem_cons.1 args
    obtain ⟨harg, hmore⟩ := List.forall_mem_cons.1 hargs
    rw [ClassSegment.eachWords]
    refine List.forall_mem_cons.2 ⟨List.forall_mem_cons.2 ⟨hname.lexes, ?_⟩,
      ClassSegment.lexes_eachWords rest names args⟩
    refine lexes_append (lexes_cons (by decide) ?_) (lexes_singleton (by decide))
    refine lexes_separated (Word.lexes_of_isPlain (by decide)) ?_
    exact List.forall_mem_cons.2
      ⟨TypeRef.lexes_words arg harg, TypeRef.lexes_eachWords more hmore⟩

theorem TypeRef.lexes_eachWords (types : List TypeRef) (h : ∀ a ∈ types, a.Argument t) :
    ∀ piece ∈ TypeRef.eachWords t types, ∀ w ∈ piece, w.Lexes := by
  match types with
  | [] =>
    rw [TypeRef.eachWords]
    exact List.forall_mem_nil _
  | type :: rest =>
    obtain ⟨htype, hrest⟩ := List.forall_mem_cons.1 h
    rw [TypeRef.eachWords]
    exact List.forall_mem_cons.2
      ⟨TypeRef.lexes_words type htype, TypeRef.lexes_eachWords rest hrest⟩

end

theorem lexes_clauseWords {keyword separator : Word} {types : List TypeRef}
    (hk : keyword.isPlain = true) (hs : separator.isPlain = true)
    (h : ∀ r ∈ types, r.Surface t) : ∀ w ∈ clauseWords t keyword separator types, w.Lexes := by
  rw [clauseWords]
  split
  · exact List.forall_mem_nil _
  · refine lexes_cons hk (lexes_separated (Word.lexes_of_isPlain hs) ?_)
    exact lexes_map fun r hr => r.lexes_words (.type (h r hr))

theorem lexes_typeParamWords {params : List TypeParam} (h : ∀ p ∈ params, p.Surface t) :
    ∀ w ∈ typeParamWords t params, w.Lexes := by
  rw [typeParamWords]
  split
  · exact List.forall_mem_nil _
  · refine lexes_append (lexes_cons (by decide) ?_) (lexes_singleton (by decide))
    refine lexes_separated (Word.lexes_of_isPlain (by decide)) (lexes_map fun p hp => ?_)
    exact List.forall_mem_cons.2
      ⟨(h p hp).name.lexes, lexes_clauseWords (by decide) (by decide) (h p hp).bounds⟩

theorem FieldDecl.Surface.lexes_component {f : FieldDecl} (h : f.Surface t) :
    ∀ w ∈ f.componentWords t, w.Lexes := by
  refine lexes_append (f.type.lexes_words (.type h.type)) ?_
  refine lexes_separated (Word.lexes_of_isPlain (by decide)) (lexes_map fun v hv => ?_)
  exact List.forall_mem_cons.2 ⟨(h.names v hv).lexes, lexes_dimensionWords v.dims⟩

theorem FieldDecl.Surface.lexes_words {f : FieldDecl} (h : f.Surface t) :
    ∀ w ∈ f.words t, w.Lexes := by
  rw [FieldDecl.words, List.append_assoc (f.modifiers.flatMap Modifier.words)]
  exact lexes_append (lexes_append (Modifier.lexes_words f.modifiers) h.lexes_component)
    (lexes_singleton (by decide))

/-- The components that members start with are among the members. -/
theorem mem_of_leadingComponents {members : List Member} {f : FieldDecl}
    (h : f ∈ leadingComponents members) : .field f ∈ members := by
  induction members with
  | nil => cases h
  | cons m rest ih =>
    cases m with
    | field g =>
      rw [leadingComponents] at h
      split at h
      · rcases List.mem_cons.1 h with rfl | h
        · exact List.mem_cons_self
        · exact List.mem_cons_of_mem _ (ih h)
      · cases h
    | type d => cases h
    | constant name body span => cases h

theorem lexes_bodyWords {kind : DeclKind} {members : List Member} {each : List (List Word)}
    (h : ∀ piece ∈ each, ∀ w ∈ piece, w.Lexes) : ∀ w ∈ bodyWords kind members each, w.Lexes := by
  have hdrop : ∀ n, ∀ w ∈ (each.drop n).flatten, w.Lexes := fun n =>
    lexes_flatten fun piece hpiece => h piece (List.drop_subset n each hpiece)
  have htake : ∀ n, ∀ w ∈ (each.take n).flatten, w.Lexes := fun n =>
    lexes_flatten fun piece hpiece => h piece (List.take_subset n each hpiece)
  have hclose := lexes_singleton (a := .rightBrace) (by decide)
  unfold bodyWords
  split
  · refine lexes_append (lexes_append (lexes_cons (by decide) (htake _)) ?_) hclose
    exact lexes_cons (by decide) (hdrop _)
  · exact lexes_append (lexes_cons (by decide) (hdrop _)) hclose

theorem DeclHead.Surface.lexes {h : DeclHead} (hs : h.Surface t) {members : List Member}
    (hm : ∀ f, .field f ∈ members → f.Surface t) :
    ∀ w ∈ h.startWords t ++ componentWords t h.kind members ++ h.clauses t, w.Lexes := by
  obtain ⟨n, hn, hwritten⟩ := hs.name
  have hkind : ∀ w ∈ h.kind.words, w.Lexes := fun w hw =>
    Word.lexes_of_isPlain ((show ∀ k : DeclKind, ∀ w ∈ k.words, w.isPlain = true by
      intro k; cases k <;> decide) h.kind w hw)
  refine lexes_append (lexes_append (lexes_append (lexes_append hkind ?_) ?_) ?_)
    (lexes_append ?_ ?_)
  · rw [hn]
    exact List.forall_mem_singleton.2 hwritten.lexes
  · exact lexes_typeParamWords hs.typeParams
  · rw [componentWords]
    split
    · refine lexes_append (lexes_cons (by decide) ?_) (lexes_singleton (by decide))
      refine lexes_separated (Word.lexes_of_isPlain (by decide)) (lexes_map fun f hf => ?_)
      exact (hm f (mem_of_leadingComponents hf)).lexes_component
    · exact List.forall_mem_nil _
  · exact lexes_clauseWords (by decide) (by decide) hs.extended
  · exact lexes_clauseWords (by decide) (by decide) hs.implemented

theorem Member.Surface.of_field {f : FieldDecl} (h : (Member.field f).Surface t) : f.Surface t := by
  cases h with
  | field decl => exact decl

mutual

theorem TypeDecl.lexes_words (d : TypeDecl) (h : d.Surface t) : ∀ w ∈ d.words t, w.Lexes := by
  match d with
  | .mk head members =>
    cases h with
    | mk header _ body =>
      rw [TypeDecl.words]
      exact lexes_append (header.lexes fun f hf => (body _ hf).of_field)
        (lexes_bodyWords (Member.lexes_eachWords members body))

theorem Member.lexes_words (m : Member) (h : m.Surface t) : ∀ w ∈ m.words t, w.Lexes := by
  match m with
  | .type (.mk head members) =>
    cases h with
    | type decl =>
      rw [Member.words]
      exact lexes_append (Modifier.lexes_words head.modifiers)
        (TypeDecl.lexes_words (.mk head members) decl)
  | .field f =>
    rw [Member.words]
    exact h.of_field.lexes_words
  | .constant name none _ =>
    cases h with
    | constant named =>
      rw [Member.words]
      exact List.forall_mem_cons.2 ⟨named.lexes, lexes_singleton (by decide)⟩
  | .constant name (some (.mk head members)) _ =>
    cases h with
    | withBody named _ _ body =>
      rw [Member.words]
      refine List.forall_mem_cons.2 ⟨named.lexes, lexes_append (lexes_cons (by decide) ?_) ?_⟩
      · exact lexes_flatten (Member.lexes_eachWords members body)
      · exact lexes_cons (by decide) (lexes_singleton (by decide))

theorem Member.lexes_eachWords (members : List Member) (h : ∀ m ∈ members, m.Surface t) :
    ∀ piece ∈ Member.eachWords t members, ∀ w ∈ piece, w.Lexes := by
  match members with
  | [] =>
    rw [Member.eachWords]
    exact List.forall_mem_nil _
  | m :: rest =>
    obtain ⟨hm, hrest⟩ := List.forall_mem_cons.1 h
    rw [Member.eachWords]
    exact List.forall_mem_cons.2 ⟨Member.lexes_words m hm, Member.lexes_eachWords rest hrest⟩

end

theorem Path.Surface.lexes {p : Path} (h : p.Surface t) : ∀ w ∈ p.words t, w.Lexes :=
  lexes_separated (Word.lexes_of_isPlain (by decide))
    (lexes_map fun n hn => List.forall_mem_singleton.2 (h.names n hn).lexes)

/-- **The words of a tree** are lexed as themselves. -/
theorem CompilationUnit.lexes_words {u : CompilationUnit} (h : u.Surface t) :
    ∀ w ∈ u.words t, w.Lexes := by
  refine lexes_append (lexes_append ?_ (lexes_flatMap fun i hi => ?_))
    (lexes_flatMap fun d hd => ?_)
  · cases hp : u.package with
    | none => exact List.forall_mem_nil _
    | some p =>
      exact lexes_append (lexes_cons (by decide) (h.package p hp).lexes)
        (lexes_singleton (by decide))
  · rw [ImportDecl.words]
    refine lexes_append (lexes_append (lexes_append (lexes_cons (by decide) ?_)
      (h.imports i hi).lexes) ?_) (lexes_singleton (by decide))
    · split
      · exact lexes_singleton (by decide)
      · exact List.forall_mem_nil _
    · split
      · exact lexes_cons (by decide) (lexes_singleton (by decide))
      · exact List.forall_mem_nil _
  · exact lexes_append (Modifier.lexes_words _) (d.lexes_words (h.types d hd))

end Trees

end JavaAbi
