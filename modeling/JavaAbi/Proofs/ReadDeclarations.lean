import JavaAbi.Proofs.PrintedTokens
import JavaAbi.Proofs.ReadFields

namespace JavaAbi

/-!
# Reading declarations back

Declarations nest in one another; all their parsers are read back together, by induction on the
bound that they carry. The tokens left pay for the calls, as in the bounds of the parser.

* `StartsMember` — what is so of the words that a member starts with;
* `components_append` — the members of a record are its components and the members of its body;
* `Parser.typeDecl_reads` — declarations with all their members.
-/

/-! ### First words of members -/

section MemberWords

variable {t : NameTable} {ws rest : List Word}

/-- What is so of the words that a member starts with. -/
structure StartsMember (ws : List Word) : Prop where
  plain : firstKind ws ∉ [TokenKind.leftBrace, .rightBrace, .semicolon, .eof]
  static : firstKind ws = .kwStatic → firstKind (ws.drop 1) ≠ .leftBrace

theorem StartsMember.ne {k : TokenKind} (h : StartsMember ws)
    (hk : k ∈ [TokenKind.leftBrace, .rightBrace, .semicolon, .eof]) : firstKind ws ≠ k :=
  fun h' => h.plain (h' ▸ hk)

/-- Modifiers may come first. -/
theorem StartsMember.modifiers (ms : List Modifier) (h : StartsMember rest) :
    StartsMember (ms.flatMap Modifier.words ++ rest) := by
  have hne : ∀ (ms : List Modifier), ∀ k ∈ [TokenKind.leftBrace, .rightBrace, .semicolon, .eof],
      firstKind (ms.flatMap Modifier.words ++ rest) ≠ k := fun ms k hk =>
    Modifier.firstKind_ne (fun m hm => by rw [← hm] at hk; cases m <;> revert hk <;> decide)
      (h.ne hk)
  refine ⟨fun hmem => hne ms _ hmem rfl, fun hstatic => ?_⟩
  cases ms with
  | nil => exact h.static hstatic
  | cons m ms =>
    cases m <;> first | exact hne ms .leftBrace List.mem_cons_self | cases hstatic

theorem TypeRef.Surface.startsMember {r : TypeRef} (h : r.Surface t) :
    StartsMember (r.words t ++ rest) := by
  obtain ⟨w, ws, hwords, hw⟩ := h.starts
  rw [hwords]
  obtain ⟨k, text⟩ := w
  refine ⟨fun hmem => ?_, fun hstatic => ?_⟩
  · have hnot : ∀ k : TokenKind, k.startsType = true →
        k ∉ [TokenKind.leftBrace, .rightBrace, .semicolon, .eof] := fun k => by cases k <;> decide
    exact hnot k hw hmem
  · rw [show k = .kwStatic from hstatic] at hw
    cases hw

theorem DeclKind.startsMember (k : DeclKind) : StartsMember (k.words ++ rest) := by
  cases k <;> exact ⟨of_decide_eq_false rfl, fun h => absurd h (of_decide_eq_false rfl)⟩

theorem DeclKind.noModifier (k : DeclKind) : NoModifier (k.words ++ rest) := by
  cases k with
  | recordType =>
    refine ⟨rfl, fun w hw _ => ?_, Parser.unannotated_of_ne (of_decide_eq_false rfl)⟩
    cases hw
    exact ⟨by decide, by decide⟩
  | annotationType =>
    refine ⟨rfl, fun w hw hk => ?_, fun _ => rfl⟩
    cases hw
    cases hk
  | _ => exact .of_kind rfl (of_decide_eq_false rfl) (of_decide_eq_false rfl)

theorem DeclKind.continues {k : DeclKind}
    (h : k = .classType ∨ k = .interfaceType ∨ k = .annotationType) :
    Parser.continuesDeclaration (firstKind (k.words ++ rest)) = true := by
  rcases h with rfl | rfl | rfl <;> rfl

/-- A declaration starts with its keyword, its name and what a name is followed by. -/
theorem startsDeclaration_words {s : ParserState} {k : DeclKind} {n : Name}
    {params : List TypeParam} {members : List Member}
    (hs : s.ahead = k.words ++ n.word t :: (typeParamWords t params ++
      (componentWords t k members ++ rest))) : Parser.startsDeclaration s = true := by
  unfold Parser.startsDeclaration
  rw [s.current_kind, s.peek_eq, s.peek_eq, hs]
  cases k with
  | recordType =>
    have htext : s.current.text = "record" := s.current_text hs
    rw [htext]
    cases params with
    | nil => rfl
    | cons p params => rfl
  | _ => rfl

/-! ### Members in order -/

theorem Member.eachWords_eq_map (members : List Member) :
    Member.eachWords t members = members.map (Member.words t) := by
  induction members with
  | nil => rw [Member.eachWords, List.map_nil]
  | cons m rest ih => rw [Member.eachWords, ih, List.map_cons]

theorem Member.bareAll_eq_map (members : List Member) :
    Member.bareAll members = members.map Member.bare := by
  induction members with
  | nil => rw [Member.bareAll, List.map_nil]
  | cons m rest ih => rw [Member.bareAll, ih, List.map_cons]

theorem isComponent_of_mem {members : List Member} {f : FieldDecl}
    (h : f ∈ leadingComponents members) : f.isComponent = true := by
  induction members with
  | nil => cases h
  | cons m rest ih =>
    cases m with
    | field g =>
      rw [leadingComponents] at h
      split at h
      · rename_i hg
        rcases List.mem_cons.1 h with rfl | h
        · exact hg
        · exact ih h
      · cases h
    | type d => cases h
    | constant name body span => cases h

/-- Components come before all other members. -/
theorem components_append (kind : DeclKind) (members : List Member) :
    (recordComponents kind members).map Member.field ++
      members.drop (recordComponents kind members).length = members := by
  rw [recordComponents]
  split
  · induction members with
    | nil => rfl
    | cons m rest ih =>
      cases m with
      | field g =>
        rw [leadingComponents]
        split
        · exact congrArg (Member.field g :: ·) ih
        · rfl
      | type d => rfl
      | constant name body span => rfl
  · rfl

/-- The words of the body of an enum: the constants, then the other members. -/
theorem bodyWords_enum (members : List Member) :
    bodyWords .enumType members (Member.eachWords t members) =
      .leftBrace :: (((members.takeWhile Member.isConstant).map (Member.words t)).flatten ++
        .semicolon :: (((members.dropWhile Member.isConstant).map (Member.words t)).flatten ++
          [.rightBrace])) := by
  have hsplit : members.takeWhile Member.isConstant ++ members.dropWhile Member.isConstant =
      members := List.takeWhile_append_dropWhile
  have htake := List.prefix_iff_eq_take.1 (List.takeWhile_prefix (l := members) Member.isConstant)
  have hdrop := List.append_cancel_left ((List.prefix_iff_eq_append.1
    (List.takeWhile_prefix (l := members) Member.isConstant)).trans hsplit.symm)
  rw [bodyWords, if_pos rfl, Member.eachWords_eq_map]
  simp only [← List.map_take, ← List.map_drop, ← htake, hdrop, List.cons_append, List.append_assoc]

/-- The words of any other body. -/
theorem bodyWords_other {kind : DeclKind} (h : kind ≠ .enumType) (members : List Member) :
    bodyWords kind members (Member.eachWords t members) =
      .leftBrace :: (((members.drop (recordComponents kind members).length).map
        (Member.words t)).flatten ++ [.rightBrace]) := by
  rw [bodyWords, if_neg h, Member.eachWords_eq_map, ← List.map_drop]
  rfl

theorem bodyWords_eq_cons (kind : DeclKind) (members : List Member) (each : List (List Word)) :
    ∃ inner, bodyWords kind members each = .leftBrace :: inner := by
  unfold bodyWords
  split <;> exact ⟨_, rfl⟩

/-- The words of a declaration in the order in which its parser meets them. -/
theorem TypeDecl.words_append {head : DeclHead} {members : List Member} {name : Name}
    (hname : head.name = some name) : (TypeDecl.mk head members).words t ++ rest =
      head.kind.words ++ name.word t :: (typeParamWords t head.typeParams ++
        (componentWords t head.kind members ++ (clauseWords t .kwExtends .comma head.extended ++
          (clauseWords t .kwImplements .comma head.implemented ++
            (bodyWords head.kind members (Member.eachWords t members) ++ rest))))) := by
  rw [TypeDecl.words, DeclHead.startWords, DeclHead.clauses, hname]
  simp only [List.append_assoc, Option.toList_some, List.map_cons, List.map_nil, List.cons_append,
    List.nil_append]

theorem TypeDecl.Surface.startsDeclaration {d : TypeDecl} {s : ParserState} (h : d.Surface t)
    (hs : s.ahead = d.words t ++ rest) : Parser.startsDeclaration s = true := by
  cases h with | mk header constants body =>
  obtain ⟨name, hname, -⟩ := header.name
  exact startsDeclaration_words (hs.trans (TypeDecl.words_append hname))

theorem TypeDecl.Surface.startsMember {d : TypeDecl} (h : d.Surface t) :
    StartsMember (d.head.modifiers.flatMap Modifier.words ++ (d.words t ++ rest)) := by
  cases h with | mk header constants body =>
  obtain ⟨name, hname, -⟩ := header.name
  rw [TypeDecl.words_append hname]
  exact .modifiers _ (DeclKind.startsMember _)

theorem TypeDecl.Surface.words_pos {d : TypeDecl} (h : d.Surface t) : 0 < (d.words t).length := by
  cases h with | mk header constants body =>
  obtain ⟨name, hname, -⟩ := header.name
  rw [← List.append_nil (TypeDecl.words t _), TypeDecl.words_append hname, List.length_append,
    List.length_cons]
  exact Nat.lt_of_lt_of_le (Nat.succ_pos _) (Nat.le_add_left _ _)

theorem WrittenField.Readable.startsMember {f : WrittenField} (h : f.Readable t) :
    StartsMember (f.words t ++ rest) := by
  rw [WrittenField.words, List.append_assoc, List.append_assoc, List.append_assoc]
  exact .modifiers _ h.type.startsMember

/-- A member that is no constant starts like one. -/
theorem Member.Surface.startsMember {m : Member} (h : m.Surface t) (hm : m.isConstant = false) :
    StartsMember (m.words t ++ rest) := by
  cases h with
  | @type d decl =>
    cases d with | mk head members =>
    rw [Member.words, List.append_assoc]
    exact decl.startsMember
  | @field f decl =>
    rw [Member.words, ← f.words_written]
    exact decl.readable.startsMember
  | constant named => cases hm
  | withBody named header constants body => cases hm

theorem Member.Surface.words_ne_nil {m : Member} (h : m.Surface t) (hm : m.isConstant = false) :
    0 < (m.words t).length := by
  have hstarts : StartsMember (m.words t ++ []) := h.startsMember hm
  refine List.length_pos_iff.2 fun hnil => hstarts.ne (k := .eof) (by simp) ?_
  rw [hnil]
  rfl

theorem Member.exists_words_of_isConstant (t : NameTable) {m : Member}
    (h : m.isConstant = true) : ∃ name ws, m.words t = Name.word t name :: ws := by
  match m with
  | .constant name none span => exact ⟨name, _, by rw [Member.words]⟩
  | .constant name (some (.mk head members)) span =>
    exact ⟨name, _, by rw [Member.words, List.cons_append]⟩

theorem Member.map_bare_field (fields : List FieldDecl) :
    (fields.map Member.field).map Member.bare = (fields.map FieldDecl.bare).map Member.field := by
  induction fields with
  | nil => rfl
  | cons f fields ih => exact congrArg (Member.field f.bare :: ·) ih

/-- A clause starts with its keyword. -/
theorem firstKind_clauseWords_ne {keyword separator : Word} {types : List TypeRef} {k : TokenKind}
    (hk : keyword.1 ≠ k) (hrest : firstKind rest ≠ k) :
    firstKind (clauseWords t keyword separator types ++ rest) ≠ k := by
  cases types with
  | nil => exact hrest
  | cons r types => exact hk

theorem DeclHead.Nameless.bare_eq {h h' : DeclHead} (hs : h.Nameless) (hs' : h'.Nameless) :
    h.bare = h'.bare := by
  rw [DeclHead.bare, DeclHead.bare, hs.kind, hs.name, hs.modifiers, hs.typeParams, hs.extended,
    hs.implemented, hs'.kind, hs'.name, hs'.modifiers, hs'.typeParams, hs'.extended,
    hs'.implemented]

end MemberWords

namespace Parser

variable {t : NameTable} {s : ParserState}

/-! ### Declarations and their members -/

theorem moveOn_reads {before : Nat} {rest : List Word} (hs : s.ahead = rest)
    (hbefore : s.remaining ≠ before) : (moveOn before).Reads t s rest fun _ => True := by
  rw [moveOn, reads_state]
  exact .neg hbefore (.pure hs trivial)

/-- Where no arguments stand, none are stepped over. -/
theorem skipArguments_reads {rest : List Word} (hs : s.ahead = rest)
    (h : firstKind rest ≠ .leftParen) : skipArguments.Reads t s rest fun _ => True := by
  rw [skipArguments]
  exact .isAt_no (by rw [hs]; exact h) (.no rfl (.pure hs trivial))

theorem afterConstants_reads {others : Parser (List Member)} {rest rest' : List Word}
    {P : List Member → Prop} (hs : s.ahead = .semicolon :: rest)
    (h : ∀ u : ParserState, u.ahead = rest → others.Reads t u rest' P) :
    (afterConstants others).Reads t s rest' P := by
  rw [afterConstants]
  exact .eat_yes hs rfl fun u hu => .yes rfl (h u hu)

/-- The modifiers before a keyword. -/
theorem headModifiers_reads {head : DeclHead} {rest : List Word} (h : head.Surface t)
    (hs : s.ahead = head.modifiers.flatMap Modifier.words ++ (head.kind.words ++ rest)) :
    modifiers.Reads t s (head.kind.words ++ rest) (· = head.modifiers) :=
  modifiers_reads hs h.modifiers h.contextual
    (fun m hm hc => DeclKind.continues (h.sealing m hm hc)) (DeclKind.noModifier _)

/-- The modifiers of a declaration. -/
theorem declModifiers_reads {d : TypeDecl} {rest : List Word} (h : d.Surface t)
    (hs : s.ahead = d.head.modifiers.flatMap Modifier.words ++ (d.words t ++ rest)) :
    modifiers.Reads t s (d.words t ++ rest) (· = d.head.modifiers) := by
  cases h with | mk header constants body =>
  obtain ⟨name, hname, -⟩ := header.name
  rw [TypeDecl.words_append hname] at hs ⊢
  exact headModifiers_reads header hs

/-- The components of a record, and none of any other declaration. -/
theorem recordComponents_reads {kind : DeclKind} {members : List Member} {rest : List Word}
    (h : ∀ f ∈ recordComponents kind members, f.Surface t) (hs : s.ahead = componentWords t kind members ++ rest) :
    (if kind = .recordType then components else pure []).Reads t s rest fun found =>
      found.map FieldDecl.bare = (recordComponents kind members).map FieldDecl.bare := by
  rw [componentWords] at hs
  rw [recordComponents]
  by_cases hk : kind = .recordType
  · rw [if_pos hk] at hs
    rw [if_pos hk, if_pos hk]
    rw [recordComponents, if_pos hk] at h
    exact components_reads (fun f hf => isComponent_of_mem hf) h hs
  · rw [if_neg hk] at hs
    rw [if_neg hk, if_neg hk]
    exact .pure hs rfl

/-- A declaration is read back where its body is. -/
theorem declWithin_reads_of_body {rest inner : List Word} {fuel : Nat} {head : DeclHead}
    {name : Name} {members : List Member} {start : Span} {P : List Member → Prop}
    (header : head.Surface t) (hname : head.name = some name)
    (hcomponents : ∀ f ∈ recordComponents head.kind members, f.Surface t)
    (hs : s.ahead = head.kind.words ++ name.word t :: (typeParamWords t head.typeParams ++
      (componentWords t head.kind members ++ (clauseWords t .kwExtends .comma head.extended ++
        (clauseWords t .kwImplements .comma head.implemented ++ .leftBrace :: inner)))))
    (hbody : ∀ u : ParserState, u.ahead = .leftBrace :: inner →
      (if head.kind = .enumType then enumBody fuel else classBody fuel).Reads t u rest P) :
    (declWithin head.modifiers start (fuel + 1)).Reads t s rest fun found =>
      ∃ (fields : List FieldDecl) (body : List Member), found.head.bare = head.bare ∧
        found.members = fields.map Member.field ++ body ∧
        fields.map FieldDecl.bare = (recordComponents head.kind members).map FieldDecl.bare ∧
        P body := by
  obtain ⟨name', hname', hwritten⟩ := header.name
  obtain rfl : name' = name := Option.some.inj (hname'.symm.trans hname)
  -- Behind the clause of supertypes comes the next one or the body.
  have himplement : firstKind (clauseWords t .kwImplements .comma head.implemented ++
        .leftBrace :: inner) = .kwImplements ∨
      firstKind (clauseWords t .kwImplements .comma head.implemented ++
        .leftBrace :: inner) = .leftBrace := by
    cases head.implemented with
    | nil => exact .inr rfl
    | cons r types => exact .inl rfl
  rw [declWithin]
  refine (declKeyword_reads hs).bind fun k a ha hk => .place fun nameSpan => ?_
  rw [hk]
  refine .ident ha hwritten.1 fun b hb => ?_
  refine (optionalTypeParams_reads header.typeParams hb ?_).bind fun params c hc hparams => ?_
  · rw [componentWords]
    split
    · exact of_decide_eq_false rfl
    · exact firstKind_clauseWords_ne (by decide)
        (firstKind_clauseWords_ne (by decide) (of_decide_eq_false rfl))
  refine .join (recordComponents_reads hcomponents hc) fun fields d hd hfields => ?_
  refine (extendsClause_reads header.extended header.extending hd himplement).bind
    fun extended e he hextended => ?_
  refine (implementsClause_reads header.implemented header.implementing he).bind
    fun implemented g hg himplemented => ?_
  refine (permitsClause_reads hg).bind fun _ x hx _ => ?_
  refine .join (hbody x hx) fun found y hy hfound => .spanFrom fun place => .pure hy ?_
  refine ⟨fields, found, ?_, rfl, hfields, hfound⟩
  show DeclHead.bare ⟨_, _, _, _, _, _, _, _⟩ = _
  rw [DeclHead.bare, DeclHead.bare, hname, hparams, hextended, himplemented]

/-- The first of some members, and then the others. -/
theorem members_reads_cons {mid rest : List Word} {fuel : Nat} {P : Option Member → Prop}
    {Q : List Member → Prop} (hstarts : StartsMember s.ahead) (hlt : mid.length < s.ahead.length)
    (hone : (member fuel).Reads t s mid P)
    (hmore : ∀ u : ParserState, u.ahead = mid → (members fuel).Reads t u rest Q) :
    (members (fuel + 1)).Reads t s rest fun found =>
      ∃ m more, found = m.toList ++ more ∧ P m ∧ Q more := by
  rw [members]
  refine .isAt_no (hstarts.ne (by simp)) (.isAt_no (hstarts.ne (by simp)) (.no rfl ?_))
  rw [reads_state]
  refine hone.bind fun m u hu hm => ?_
  have hmoved : u.remaining ≠ s.remaining := by
    rw [u.remaining_eq_length, s.remaining_eq_length, hu]
    exact Nat.ne_of_lt hlt
  refine (moveOn_reads hu hmoved).bind fun _ v hv _ => ?_
  exact (hmore v hv).bind fun more x hx hq => .pure hx ⟨m, more, rfl, hm, hq⟩

/-- **A field declaration**, whatever its initializers are, is read as it is written. -/
theorem member_reads_field {rest : List Word} {fuel : Nat} {f : WrittenField} (h : f.Readable t)
    (hs : s.ahead = f.words t ++ rest) :
    (member (fuel + 1)).Reads t s rest fun found =>
      ∃ g, found = some (.field g) ∧ g.bare = f.decl.bare := by
  have hstarts : StartsMember s.ahead := by
    rw [hs]
    exact h.startsMember
  rw [WrittenField.words, List.append_assoc, List.append_assoc, List.append_assoc] at hs
  have hnone : (f.modifiers.filter Modifier.isContextual).length ≤ 1 := by
    rw [List.filter_eq_nil_iff.2 fun m hm => by rw [h.plain m hm]; exact of_decide_eq_false rfl]
    exact Nat.zero_le _
  rw [member, reads_state, s.current_kind]
  refine .neg (hstarts.ne (by simp)) (.neg (hstarts.ne (by simp)) (.neg ?_ (.place fun start => ?_)))
  · rw [s.peek_eq, Bool.and_eq_true, decide_eq_true_iff, decide_eq_true_iff]
    exact fun hblock => hstarts.static hblock.1 hblock.2
  refine (modifiers_reads hs h.modifiers hnone
    (fun m hm hc => absurd hc (by rw [h.plain m hm]; exact of_decide_eq_false rfl))
    h.type.noModifier).bind fun found u hu hfound => ?_
  rw [reads_state]
  refine .neg (by rw [startsDeclaration_type h.type hu]; exact of_decide_eq_false rfl) ?_
  rw [hfound]
  exact plainMember_reads h hu

mutual

theorem declWithin_reads {rest : List Word} (fuel : Nat) (d : TypeDecl) (start : Span)
    (s : ParserState) (h : d.Surface t) (hs : s.ahead = d.words t ++ rest)
    (hf : 5 * s.ahead.length ≤ fuel) :
    (declWithin d.head.modifiers start fuel).Reads t s rest fun found => found.bare = d.bare := by
  match d, h with
  | .mk head members, .mk header constants body =>
    obtain ⟨name, hname, -⟩ := header.name
    rw [TypeDecl.words_append hname] at hs
    obtain ⟨inner, hinner⟩ := bodyWords_eq_cons head.kind members (Member.eachWords t members)
    have hlen := congrArg List.length hs
    simp only [List.length_append, List.length_cons] at hlen
    match fuel, hf with
    | 0, hf => omega
    | fuel + 1, hf =>
      -- The fields of a record that are its components are written in its header.
      have hcomponents : ∀ f ∈ recordComponents head.kind members, f.Surface t := by
        intro f hf
        refine (body (.field f) ?_).of_field
        rw [← components_append head.kind members]
        exact List.mem_append_left _ (List.mem_map_of_mem hf)
      rw [hinner] at hs
      refine (declWithin_reads_of_body (P := fun found => found.map Member.bare =
        (members.drop (recordComponents head.kind members).length).map Member.bare)
        header hname hcomponents hs fun x hx => ?_).mono fun found hfound => ?_
      · have hx : x.ahead = bodyWords head.kind members (Member.eachWords t members) ++ rest := by
          rw [hinner]
          exact hx
        have hxlen := congrArg List.length hx
        rw [List.length_append] at hxlen
        have hfirst := constants
        by_cases hk : head.kind = .enumType
        · rw [if_pos hk]
          rw [hk] at hx hfirst ⊢
          exact enumBody_reads fuel members x body hfirst hx (by omega)
        · rw [if_neg hk]
          rw [bodyWords_other hk, List.cons_append, List.append_assoc] at hx
          rw [ConstantsFirst, if_neg hk] at hfirst
          exact classBody_reads fuel _ x (fun m hm => body m (List.drop_subset _ _ hm))
            (fun m hm => hfirst m (List.drop_subset _ _ hm)) hx (by omega)
      · -- Components and body together are the members.
        obtain ⟨fields, others, hhead, hmembers, hfields, hothers⟩ := hfound
        obtain ⟨head', members'⟩ := found
        have hhead : head'.bare = head.bare := hhead
        have hmembers : members' = fields.map Member.field ++ others := hmembers
        have hall : members'.map Member.bare = members.map Member.bare := by
          rw [hmembers, List.map_append, hothers, Member.map_bare_field, hfields,
            ← Member.map_bare_field, ← List.map_append, components_append]
        rw [TypeDecl.bare, TypeDecl.bare, Member.bareAll_eq_map, Member.bareAll_eq_map, hall, hhead]
termination_by fuel

theorem classBody_reads {rest : List Word} (fuel : Nat) (ms : List Member) (s : ParserState)
    (h : ∀ m ∈ ms, m.Surface t) (hplain : ∀ m ∈ ms, m.isConstant = false)
    (hs : s.ahead = .leftBrace :: ((ms.map (Member.words t)).flatten ++ .rightBrace :: rest))
    (hf : 5 * s.ahead.length + 3 ≤ fuel) :
    (classBody fuel).Reads t s rest fun found => found.map Member.bare = ms.map Member.bare := by
  match fuel, hf with
  | fuel + 1, hf =>
    have hlen := congrArg List.length hs
    rw [List.length_cons] at hlen
    rw [classBody]
    refine .expect hs rfl fun u hu => ?_
    rw [← hu] at hlen
    refine (members_reads fuel ms u h hplain hu (by omega)).bind fun found v hv hfound => ?_
    exact .expect hv rfl fun x hx => .pure hx hfound
termination_by fuel

theorem members_reads {rest : List Word} (fuel : Nat) (ms : List Member) (s : ParserState)
    (h : ∀ m ∈ ms, m.Surface t) (hplain : ∀ m ∈ ms, m.isConstant = false)
    (hs : s.ahead = (ms.map (Member.words t)).flatten ++ .rightBrace :: rest)
    (hf : 5 * s.ahead.length + 2 ≤ fuel) :
    (members fuel).Reads t s (.rightBrace :: rest) fun found =>
      found.map Member.bare = ms.map Member.bare := by
  match fuel, hf with
  | fuel + 1, hf =>
    match ms with
    | [] =>
      have hs : s.ahead = .rightBrace :: rest := hs
      rw [members, reads_isAt, reads_isAt, s.current_kind, hs]
      exact .yes rfl (.pure hs rfl)
    | m :: ms =>
      obtain ⟨hm, hms⟩ := List.forall_mem_cons.1 h
      obtain ⟨hmplain, hmsplain⟩ := List.forall_mem_cons.1 hplain
      rw [List.map_cons, List.flatten_cons, List.append_assoc] at hs
      have hstarts : StartsMember s.ahead := by
        rw [hs]
        exact hm.startsMember hmplain
      have hlen := congrArg List.length hs
      rw [List.length_append] at hlen
      have hpos := hm.words_ne_nil hmplain
      refine (members_reads_cons hstarts (by omega) (member_reads fuel m s hm hmplain hs (by omega))
        fun u hu => members_reads fuel ms u hms hmsplain hu (by rw [hu]; omega)).mono ?_
      rintro found ⟨found, more, rfl, ⟨m', rfl, hm'⟩, hmore⟩
      rw [Option.toList_some, List.singleton_append, List.map_cons, List.map_cons, hm', hmore]
termination_by fuel

theorem member_reads {rest : List Word} (fuel : Nat) (m : Member) (s : ParserState)
    (h : m.Surface t) (hplain : m.isConstant = false) (hs : s.ahead = m.words t ++ rest)
    (hf : 5 * s.ahead.length + 1 ≤ fuel) :
    (member fuel).Reads t s rest fun found => ∃ m', found = some m' ∧ m'.bare = m.bare := by
  match fuel, hf with
  | fuel + 1, hf =>
    -- What starts a member is none of the things that are stepped over.
    have hstarts : StartsMember s.ahead := by
      rw [hs]
      exact h.startsMember hplain
    match m, h with
    | .type (.mk head members), .type (.mk header constants body) =>
      have hdecl : (TypeDecl.mk head members).Surface t := .mk header constants body
      rw [Member.words, List.append_assoc] at hs
      rw [member, reads_state, s.current_kind]
      refine .neg (hstarts.ne (by simp)) (.neg (hstarts.ne (by simp)) (.neg ?_ ?_))
      · rw [s.peek_eq, Bool.and_eq_true, decide_eq_true_iff, decide_eq_true_iff]
        exact fun hblock => hstarts.static hblock.1 hblock.2
      refine .place fun start => (declModifiers_reads hdecl hs).bind fun found u hu hfound => ?_
      have hule : u.ahead.length ≤ s.ahead.length := by
        rw [hs, ← hu, List.length_append]
        exact Nat.le_add_left _ _
      rw [reads_state]
      refine .yes (hdecl.startsDeclaration hu) ?_
      rw [hfound]
      refine (declWithin_reads fuel (.mk head members) start u hdecl hu (by omega)).bind
        fun d v hv hd => .pure hv ⟨_, rfl, ?_⟩
      rw [Member.bare, Member.bare, hd]
    | .field f, .field decl =>
      rw [Member.words, ← f.words_written] at hs
      refine (member_reads_field decl.readable hs).mono ?_
      rintro found ⟨g, rfl, hg⟩
      refine ⟨_, rfl, ?_⟩
      rw [Member.bare, Member.bare, hg, f.bare_written]
termination_by fuel

theorem enumBody_reads {rest : List Word} (fuel : Nat) (ms : List Member) (s : ParserState)
    (h : ∀ m ∈ ms, m.Surface t) (hfirst : ConstantsFirst .enumType ms)
    (hs : s.ahead = bodyWords .enumType ms (Member.eachWords t ms) ++ rest)
    (hf : 5 * s.ahead.length + 3 ≤ fuel) :
    (enumBody fuel).Reads t s rest fun found => found.map Member.bare = ms.map Member.bare := by
  match fuel, hf with
  | fuel + 1, hf =>
    -- The constants come first, and are read up to the other members.
    have hsplit : ms.takeWhile Member.isConstant ++ ms.dropWhile Member.isConstant = ms :=
      List.takeWhile_append_dropWhile
    have hmem : ∀ m, m ∈ ms.takeWhile Member.isConstant ∨ m ∈ ms.dropWhile Member.isConstant →
        m.Surface t := fun m hm => h m (by rw [← hsplit]; exact List.mem_append.2 hm)
    rw [bodyWords_enum, List.cons_append, List.append_assoc, List.cons_append,
      List.append_assoc] at hs
    have hlen := congrArg List.length hs
    rw [List.length_cons] at hlen
    rw [enumBody]
    refine .expect hs rfl fun u hu => ?_
    rw [← hu] at hlen
    refine (enumConstants_reads fuel _ u (fun m hm => hmem m (.inl hm))
      (List.all_eq_true.1 List.all_takeWhile) hu (by omega)).bind
      fun constants v hv hconstants => ?_
    refine (afterConstants_reads hv fun x hx => members_reads fuel _ x
      (fun m hm => hmem m (.inr hm)) hfirst hx ?_).bind fun others y hy hothers => ?_
    · have := congrArg List.length hu
      rw [List.length_append, List.length_cons, ← hx] at this
      omega
    · refine .expect hy rfl fun z hz => .pure hz ?_
      rw [List.map_append, hconstants, hothers, ← List.map_append, hsplit]
termination_by fuel

theorem enumConstants_reads {rest : List Word} (fuel : Nat) (ms : List Member) (s : ParserState)
    (h : ∀ m ∈ ms, m.Surface t) (hconstant : ∀ m ∈ ms, m.isConstant = true)
    (hs : s.ahead = (ms.map (Member.words t)).flatten ++ .semicolon :: rest)
    (hf : 5 * s.ahead.length + 1 ≤ fuel) :
    (enumConstants fuel).Reads t s (.semicolon :: rest) fun found =>
      found.map Member.bare = ms.map Member.bare := by
  match fuel, hf with
  | fuel + 1, hf =>
    rw [enumConstants]
    match ms with
    | [] =>
      have hs : s.ahead = .semicolon :: rest := hs
      refine .unannotated (unannotated_of_ne (by rw [hs]; exact of_decide_eq_false rfl)) fun u hu => ?_
      rw [hs] at hu
      exact .isAt_no (by rw [hu]; exact of_decide_eq_false rfl) (.no rfl (.pure hu rfl))
    | m :: ms =>
      obtain ⟨hm, hms⟩ := List.forall_mem_cons.1 h
      obtain ⟨hmconstant, hmsconstant⟩ := List.forall_mem_cons.1 hconstant
      rw [List.map_cons, List.flatten_cons, List.append_assoc] at hs
      obtain ⟨name, ws, hwords⟩ := Member.exists_words_of_isConstant t hmconstant
      have hident : firstKind s.ahead = .identifier := by
        rw [hs, hwords]
        rfl
      have hlen := congrArg List.length hs
      rw [List.length_append, hwords, List.length_cons] at hlen
      refine .unannotated (unannotated_of_ne (by rw [hident]; exact of_decide_eq_false rfl)) fun u hu => ?_
      rw [hs] at hu
      refine .isAt_yes (by rw [hu, ← hs, hident]) (.yes rfl ?_)
      refine (enumConstant_reads fuel m u hm hmconstant hu ?_).bind fun found v hv hfound => ?_
      · rw [hu, ← hs]
        omega
      refine .eat_yes hv rfl fun x hx => .yes rfl ?_
      -- A constant has tokens, so one step less is enough for the others.
      refine (enumConstants_reads fuel ms x hms hmsconstant hx ?_).bind
        fun more y hy hmore => .pure hy ?_
      · rw [hx]
        omega
      · rw [List.map_cons, List.map_cons, hfound, hmore]
termination_by fuel

theorem enumConstant_reads {rest : List Word} (fuel : Nat) (m : Member) (s : ParserState)
    (h : m.Surface t) (hconstant : m.isConstant = true) (hs : s.ahead = m.words t ++ rest)
    (hf : 5 * s.ahead.length ≤ fuel) :
    (enumConstant fuel).Reads t s (.comma :: rest) fun found => found.bare = m.bare := by
  match m, h with
  | .constant name none span, .constant named =>
    rw [Member.words] at hs
    have hs : s.ahead = name.word t :: .comma :: rest := hs
    have hlen := congrArg List.length hs
    rw [List.length_cons] at hlen
    match fuel, hf with
    | 0, hf => omega
    | fuel + 1, hf =>
      rw [enumConstant]
      refine .place fun start => .ident hs named.1 fun u hu => ?_
      refine (skipArguments_reads hu (of_decide_eq_false rfl)).bind fun _ v hv _ =>
        .place fun bodyStart => ?_
      exact .isAt_no (by rw [hv]; exact of_decide_eq_false rfl) (.no rfl (.spanFrom fun place => .pure hv rfl))
  | .constant name (some (.mk head members)) span, .withBody named header constants body =>
    rw [Member.words, Member.eachWords_eq_map, List.cons_append, List.cons_append, List.cons_append,
      List.cons_append, List.append_assoc] at hs
    have hlen := congrArg List.length hs
    rw [List.length_cons] at hlen
    match fuel, hf with
    | 0, hf => omega
    | fuel + 1, hf =>
      rw [enumConstant]
      refine .place fun start => .ident hs named.1 fun u hu => ?_
      rw [← hu] at hlen
      refine (skipArguments_reads hu (of_decide_eq_false rfl)).bind fun _ v hv _ =>
        .place fun bodyStart => ?_
      rw [hu, ← hv] at hlen
      refine .isAt_yes (by rw [hv]; rfl) (.yes rfl ?_)
      refine (classBody_reads fuel members v body constants hv (by omega)).bind
        fun found x hx hfound => .spanFrom fun place => .spanFrom fun place' => .pure hx ?_
      -- The header of a body has nothing but places of its own.
      have hhead : DeclHead.bare ⟨.classType, none, bodyStart, [], [], [], [], place⟩ = head.bare :=
        DeclHead.Nameless.bare_eq ⟨rfl, rfl, rfl, rfl, rfl, rfl⟩ header
      rw [Member.bare, Member.bare, TypeDecl.bare, TypeDecl.bare, Member.bareAll_eq_map,
        Member.bareAll_eq_map, hfound, hhead]
termination_by fuel

end

/-- **Declarations** are read back with all their members. -/
theorem typeDecl_reads {rest : List Word} {d : TypeDecl} {start : Span} (h : d.Surface t)
    (hs : s.ahead = d.words t ++ rest) :
    (typeDecl d.head.modifiers start).Reads t s rest fun found => found.bare = d.bare := by
  rw [typeDecl, reads_steps]
  exact declWithin_reads _ d start s h hs (by rw [s.remaining_eq_length]; omega)

end Parser

end JavaAbi
