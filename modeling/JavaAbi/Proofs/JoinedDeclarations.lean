import JavaAbi.Proofs.JoinedTypes
import JavaAbi.Syntax.Parser.Declarations

namespace JavaAbi

/-!
# Declarations in a part of a longer text

The declarations that a run over a part reads are read by a run over the whole text, carried over. A
declaration may be the last one of the part: after the brace or the `;` that closes it, no token is
looked at.

* `Abreast.currentModifier?`, `Abreast.startsDeclaration` — what both runs see ahead;
* `Parser.DeclStart` — what precedes the body of a declaration;
* `Parser.declWithin_along`, `Parser.typeDecl_along` — declarations.
-/

namespace Abreast

variable {J : Joint} {b : Prop} {s s' : ParserState}

theorem currentModifier? (h : Abreast J b s s') (hr : 1 < s.remaining) :
    Parser.currentModifier? s' = Parser.currentModifier? s := by
  unfold Parser.currentModifier?
  rw [h.kind hr, h.text hr]
  cases Parser.modifier? s.current.kind with
  | some m => rfl
  | none =>
    dsimp only
    by_cases hk : s.current.kind = .identifier
    · have hopen : s.current.kind ≠ .semicolon ∧ s.current.kind ≠ .rightBrace := by rw [hk]; decide
      rw [(h.peek_one hr hopen).1]
      by_cases hminus : s.peek 1 = .minus
      · have hopen' : s.peek 1 ≠ .semicolon ∧ s.peek 1 ≠ .rightBrace := by rw [hminus]; decide
        obtain ⟨-, htext, hthree⟩ := h.peek_two hr hopen hopen'
        rw [htext]
        by_cases hsealed : s.peekText 2 = "sealed"
        · rw [hthree hsealed]
        · simp only [beq_false_of_ne hsealed, Bool.and_false, Bool.false_and]
      · simp only [decide_eq_false hminus, Bool.and_false, Bool.false_and]
    · rw [if_pos hk, if_pos hk]

theorem startsDeclaration (h : Abreast J b s s') (hr : 1 < s.remaining) :
    Parser.startsDeclaration s' = Parser.startsDeclaration s := by
  unfold Parser.startsDeclaration
  rw [h.kind hr, h.text hr]
  split
  · rfl
  · rfl
  · rfl
  · rename_i hk
    rw [(h.peek_one hr (by rw [hk]; decide)).1]
  · rename_i hk
    have hopen : s.current.kind ≠ .semicolon ∧ s.current.kind ≠ .rightBrace := by rw [hk]; decide
    rw [(h.peek_one hr hopen).1]
    by_cases hident : s.peek 1 = .identifier
    · rw [(h.peek_two hr hopen (by rw [hident]; decide)).1]
    · simp only [decide_eq_false hident, Bool.and_false, Bool.false_and]
  · rfl

theorem separatesVariables (h : Abreast J b s s') (hr : 1 < s.remaining)
    (hk : s.current.kind ≠ .semicolon ∧ s.current.kind ≠ .rightBrace) :
    Parser.separatesVariables s' = Parser.separatesVariables s := by
  unfold Parser.separatesVariables
  rw [(h.peek_one hr hk).1]
  by_cases hident : s.peek 1 = .identifier
  · rw [(h.peek_two hr hk (by rw [hident]; decide)).1]
  · simp only [decide_eq_false hident, Bool.false_and]

end Abreast

namespace Parser

variable {J : Joint} {k : Nat} {b : Prop} {s s' : ParserState}

/-! ### Modifiers -/

theorem advanceBy_along (n : Nat) {s s' : ParserState} (h : Abreast J b s s') :
    Along J 1 b (advanceBy n) (advanceBy n) s s' fun _ _ => True := by
  induction n generalizing s s' with
  | zero => exact .pure h trivial
  | succ n ih =>
    rw [advanceBy]
    exact (advance_along h).after fun _ _ u u' hu => ih (hu.weaken fun _ => trivial)

theorem modifiersAfter_along (n n' : Nat) (found : List Modifier) {s s' : ParserState}
    (h : Abreast J b s s') :
    Along J 1 b (modifiersAfter n found) (modifiersAfter n' found) s s' (· = ·) := by
  refine .bounded (l := fun n => modifiersAfter n found)
    (g := fun n => modifiersAfter n found) rfl rfl fun m m' hm hm' => ?_
  rw [modifiersAfter, modifiersAfter]
  refine .annotated h fun y => .ite (fun _ => ?_) fun _ => .state (.ongoing fun hr => ?_)
  · exact (skipAnnotation_along h).after fun _ _ u u' hu =>
      modifiersAfter_along m m' found (hu.weaken fun _ => trivial)
  · rw [h.currentModifier? hr]
    cases currentModifier? s with
    | none => exact .pure h rfl
    | some found =>
      exact (advanceBy_along _ h).after fun _ _ u u' hu => modifiersAfter_along m m' _ hu
  termination_by n

theorem modifiers_along (h : Abreast J b s s') : Along J 1 b modifiers modifiers s s' (· = ·) := by
  rw [modifiers]
  exact .state (modifiersAfter_along _ _ [] h)

/-! ### Skipped code -/

theorem skipExpression_along (n n' depth : Nat) {s s' : ParserState} (h : Abreast J b s s') :
    Along J 1 b (skipExpression n depth) (skipExpression n' depth) s s' fun _ _ => True := by
  refine .bounded (l := fun n => skipExpression n depth) (g := fun n => skipExpression n depth)
    rfl rfl fun m m' hm hm' => ?_
  have hnext : ∀ depth, Along J 1 b (Parser.advance >>= fun _ => skipExpression m depth)
      (Parser.advance >>= fun _ => skipExpression m' depth) s s' fun _ _ => True := fun depth =>
    (advance_along h).after fun _ _ u u' hu =>
      skipExpression_along m m' depth (hu.weaken fun _ => trivial)
  unfold skipExpression
  refine .kind h fun x hx _ => ?_
  split
  · -- The end of the file, then opening brackets, closing brackets, `;`, `,` and all other words.
    exact .pure h trivial
  · exact hnext _
  · exact hnext _
  · exact hnext _
  · cases depth with
    | zero => exact .pure h trivial
    | succ depth => exact hnext depth
  · cases depth with
    | zero => exact .pure h trivial
    | succ depth => exact hnext depth
  · cases depth with
    | zero => exact .pure h trivial
    | succ depth => exact hnext depth
  · exact .ite (fun _ => .pure h trivial) fun _ => hnext depth
  · refine .state (.ongoing fun hr => ?_)
    -- Whether a comma separates variables is decided by words that are there in both.
    rw [h.separatesVariables hr (by rw [hx]; decide)]
    exact .ite (fun _ => .pure h trivial) fun _ => hnext depth
  · exact hnext depth
  termination_by n

theorem skipMethod_along (n n' : Nat) {s s' : ParserState} (h : Abreast J b s s') :
    Along J 1 b (skipMethod n) (skipMethod n') s s' fun _ _ => True := by
  refine .bounded rfl rfl fun m m' hm hm' => ?_
  rw [skipMethod, skipMethod]
  refine .kind h fun x _ _ => ?_
  split
  · exact (skipParens_along h).after fun _ _ u u' hu => skipMethod_along m m' hu
  · exact skipBraces_along h
  · exact (advance_along h).mono (fun _ => trivial) fun _ _ _ => trivial
  · refine (advance_along h).after fun _ _ u u' hu => .state ?_
    refine (skipExpression_along _ _ 0 hu).after fun _ _ v v' hv => ?_
    exact (expect_along (by decide) hv).mono (fun _ => trivial) fun _ _ _ => trivial
  · exact .of_reports expected_gives
  · exact .of_reports expected_gives
  · exact (advance_along h).after fun _ _ u u' hu => skipMethod_along m m' (hu.weaken fun _ => trivial)
  termination_by n

/-! ### Fields -/

theorem dimensions_along (n n' : Nat) {s s' : ParserState} (h : Abreast J b s s') :
    Along J 1 b (dimensions n) (dimensions n') s s' (· = ·) := by
  refine .bounded rfl rfl fun m m' hm hm' => ?_
  rw [dimensions, dimensions]
  refine .isAtDimension h fun y => .ite (fun _ => ?_) fun _ => .pure h rfl
  refine (advance_along h).after fun _ _ u u' hu => (advance_along hu).after fun _ _ v v' hv => ?_
  exact (dimensions_along m m' (hv.weaken fun _ => trivial)).bind_eq fun _ w w' hw => .pure hw rfl
  termination_by n

theorem skipInitializer_along (h : Abreast J b s s') :
    Along J 1 b skipInitializer skipInitializer s s' fun _ _ => True := by
  rw [skipInitializer]
  refine .eat (by decide) h fun y u u' hu => .ite (fun _ => .state ?_) fun _ => ?_
  · exact skipExpression_along _ _ 0 (hu.weaken .inr)
  · exact .pure (hu.weaken .inr) trivial

theorem declarators_along (n n' : Nat) {b : Prop} {s s' : ParserState} (h : Abreast J b s s') :
    Along J 1 True (declarators n) (declarators n') s s' fun vars vars' =>
      vars' = vars.map J.carrier.declarator := by
  refine .bounded rfl rfl fun m m' hm hm' => ?_
  rw [declarators, declarators]
  refine .place h ((identifier_along h).bind fun name name' u u' hu hname => .state ?_)
  refine (dimensions_along _ _ hu).bind_eq fun dims v v' hv => ?_
  refine (skipInitializer_along hv).after fun _ _ w w' hw => ?_
  refine .eat (by decide) hw fun y x x' hx => .ite (fun _ => ?_) fun _ => ?_
  · refine (declarators_along m m' hx).bind fun rest rest' y y' hy hrest => .pure hy ?_
    rw [hname, hrest]
    rfl
  · refine .pure (hx.weaken .inr) ?_
    rw [hname]
    rfl
  termination_by n

theorem endField_along (h : Abreast J b s s') :
    Along J 1 b endField endField s s' fun _ _ => True := by
  rw [endField]
  refine .eat (by decide) h fun y u u' hu => .ite (fun _ => ?_) fun _ => .after_report expected_gives
  exact .pure (hu.weaken .inr) trivial

theorem field_along {start : Span} {ms : List Modifier} {r : TypeRef} (h : Abreast J b s s') :
    Along J 1 True (field start ms r) (field (start.shift J.offset) ms (J.carrier.type r)) s s'
      fun f f' => f' = J.carrier.field f := by
  rw [field, field]
  refine .state ((declarators_along _ _ h).bind fun vars vars' u u' hu hvars => ?_)
  refine (endField_along hu).after fun _ _ v v' hv => .spanFrom hv fun place => .pure hv ?_
  rw [hvars]
  rfl

theorem componentType_along {start : Span} (h : Abreast J b s s') :
    Along J 1 True (componentType start) (componentType (start.shift J.offset)) s s'
      fun r r' => r' = J.carrier.type r := by
  rw [componentType, componentType]
  refine (type_along h).bind fun plain plain' u u' hu hplain => ?_
  refine .eat (by decide) hu fun y v v' hv => .ite (fun _ => ?_) fun _ => .pure (hv.weaken .inr) hplain
  have hbegun : Abreast J True v v' := hv.weaken .inr
  refine .spanFrom hbegun fun place => .pure hbegun ?_
  rw [Carrier.type, hplain]
  rfl

theorem component_along (h : Abreast J b s s') :
    Along J 1 True component component s s' fun f f' => f' = J.carrier.field f := by
  rw [component]
  refine .place h ((skipAnnotations_along h).after fun _ _ u u' hu => ?_)
  refine (componentType_along hu).bind fun r r' v v' hv hr => .place hv ?_
  refine (identifier_along hv).bind fun name name' w w' hw hname => .spanFrom hw fun place => .pure hw ?_
  rw [hr, hname]
  rfl

theorem componentList_along (n n' : Nat) {s s' : ParserState} (h : Abreast J b s s') :
    Along J 1 b (componentList n) (componentList n') s s' fun fields fields' =>
      fields' = fields.map J.carrier.field := by
  refine .bounded rfl rfl fun m m' hm hm' => ?_
  rw [componentList, componentList]
  refine .isAt h fun y _ => .isAt h fun y' _ => .ite (fun _ => .pure h rfl) fun _ => ?_
  refine (component_along h).bind fun f f' u u' hu hf => ?_
  refine .eat (by decide) hu fun y v v' hv => .ite (fun _ => ?_) fun _ => ?_
  · have hnext := componentList_along m m' (hv.weaken fun _ : b => .inr trivial)
    refine hnext.bind fun rest rest' w w' hw hrest => .pure hw ?_
    rw [List.map_cons, hf, hrest]
  · refine .pure (hv.weaken fun _ => .inr trivial) ?_
    rw [List.map_singleton, hf]
  termination_by n

theorem components_along (h : Abreast J b s s') : Along J 1 True components components s s'
    fun fields fields' => fields' = fields.map J.carrier.field := by
  rw [components]
  refine (expect_along (by decide) h).after fun _ _ u u' hu => .state ?_
  refine (componentList_along _ _ hu).bind fun fields fields' v v' hv hfields => ?_
  exact (expect_along (by decide) hv).after fun _ _ w w' hw => .pure hw hfields

/-! ### Headers -/

theorem declKeyword_along (h : Abreast J b s s') :
    Along J 1 True declKeyword declKeyword s s' (· = ·) := by
  rw [declKeyword]
  have hword : ∀ {c : Prop} (kind : DeclKind) {u u' : ParserState}, Abreast J c u u' →
      Along J 1 True (Parser.advance >>= fun _ => Pure.pure kind)
        (Parser.advance >>= fun _ => Pure.pure kind) u u' (· = ·) := fun kind u u' hu =>
    (advance_along hu).after fun _ _ v v' hv => .pure hv rfl
  refine .kind h fun x _ _ => .ite (fun _ => ?_) fun _ => hword _ h
  exact (advance_along h).after fun _ _ u u' hu => hword _ hu

theorem extendsClause_along (kind : DeclKind) (h : Abreast J b s s') :
    Along J 1 b (extendsClause kind) (extendsClause kind) s s' fun types types' =>
      types' = types.map J.carrier.type := by
  unfold extendsClause
  refine .eat (by decide) h fun y u u' hu => .ite (fun _ => ?_) fun _ => .pure (hu.weaken .inr) rfl
  cases kind with
  | classType =>
    refine (type_along hu).bind fun r r' v v' hv hr => .pure (hv.weaken fun _ => trivial) ?_
    rw [List.map_singleton, hr]
  | interfaceType => exact (typeList_along hu).mono (fun _ => trivial) fun _ _ htypes => htypes
  | _ => exact .after_report error_gives

theorem checkImplements_along (kind : DeclKind) (h : Abreast J b s s') :
    Along J 1 b (checkImplements kind) (checkImplements kind) s s' fun _ _ => True := by
  rw [checkImplements]
  exact .ite (fun _ => .of_reports error_gives) fun _ => .pure h trivial

theorem implementsClause_along (kind : DeclKind) (h : Abreast J b s s') :
    Along J 1 b (implementsClause kind) (implementsClause kind) s s' fun types types' =>
      types' = types.map J.carrier.type := by
  rw [implementsClause]
  refine .eat (by decide) h fun y u u' hu => .ite (fun _ => ?_) fun _ => .pure (hu.weaken .inr) rfl
  refine (typeList_along hu).bind fun types types' v v' hv htypes => ?_
  exact (checkImplements_along kind hv).after fun _ _ w w' hw =>
    .pure (hw.weaken fun _ => trivial) htypes

theorem permitsClause_along (h : Abreast J b s s') :
    Along J 1 b permitsClause permitsClause s s' fun _ _ => True := by
  rw [permitsClause]
  refine .isAtWord h fun y => .ite (fun _ => ?_) fun _ => .pure h trivial
  refine (advance_along h).after fun _ _ u u' hu => ?_
  exact (typeList_along hu).bind fun _ _ v v' hv _ => .pure (hv.weaken fun _ => trivial) trivial

/-! ### Bodies -/

theorem fieldOrMethod_along {start : Span} (ms : List Modifier) (h : Abreast J b s s') :
    Along J 1 b (fieldOrMethod start ms) (fieldOrMethod (start.shift J.offset) ms) s s'
      fun m m' => m' = m.map J.carrier.member := by
  rw [fieldOrMethod, fieldOrMethod]
  refine (type_along h).bind_gives (type_gives s) fun r r' u u' hu hr htyped => ?_
  rw [hr, Carrier.isError_type]
  refine .ite (fun herror => .of_errors (htyped.2 herror)) fun _ => ?_
  refine .kindThen (x := .identifier) (by decide) (fun x => decide (x = .leftParen))
    (f := fun y => if y then _ else _) (g := fun y => if y then _ else _) hu
    fun y => .ite (fun _ => .state ?_) fun _ => ?_
  · exact (skipMethod_along _ _ hu).after fun _ _ v v' hv => .pure (hv.weaken fun _ => trivial) rfl
  · refine (field_along hu).bind fun f f' v v' hv hf => .pure (hv.weaken fun _ => trivial) ?_
    rw [hf, Option.map_some, Carrier.member]

theorem plainMember_along {start : Span} (ms : List Modifier) (h : Abreast J b s s') :
    Along J 1 b (plainMember start ms) (plainMember (start.shift J.offset) ms) s s'
      fun m m' => m' = m.map J.carrier.member := by
  rw [plainMember, plainMember]
  refine .state (.ongoing fun hr => ?_)
  have hpeek : ∀ next, (decide (s.current.kind = .identifier) && decide (s'.peek 1 = next)) =
      (decide (s.current.kind = .identifier) && decide (s.peek 1 = next)) := fun next => by
    have hpeek := h.and_peek hr (k := .identifier) (by decide) fun x => decide (x = next)
    rwa [h.kind hr] at hpeek
  rw [h.kind hr, hpeek, hpeek]
  refine .ite (fun _ => ?_) fun _ => .ite (fun _ => ?_) fun _ => .ite (fun _ => ?_) fun _ => ?_
  · refine (skipBalanced_along h).after fun _ _ u u' hu => .state ?_
    exact (skipMethod_along _ _ hu).after fun _ _ v v' hv => .pure hv rfl
  · exact (skipMethod_along _ _ h).after fun _ _ u u' hu => .pure hu rfl
  · refine (advance_along h).after fun _ _ u u' hu => ?_
    exact (skipBraces_along hu).after fun _ _ v v' hv => .pure (hv.weaken fun _ => trivial) rfl
  · exact fieldOrMethod_along ms h

theorem moveOn_along {before before' : ParserState} (hbefore : Abreast J b before before')
    (h : Abreast J b s s') :
    Along J 1 b (moveOn before.remaining) (moveOn before'.remaining) s s' fun _ _ => True := by
  rw [moveOn, moveOn]
  refine .state ?_
  simp only [hbefore.stayed h]
  refine .ite (fun _ => ?_) fun _ => .pure h trivial
  exact (advance_along h).mono (fun _ => trivial) fun _ _ _ => trivial

theorem afterConstants_along {others others' : Parser (List Member)}
    (hothers : ∀ {u u' : ParserState}, Abreast J b u u' → Along J 1 b others others' u u'
      fun ms ms' => ms' = J.carrier.members ms) (h : Abreast J b s s') :
    Along J 1 b (afterConstants others) (afterConstants others') s s' fun ms ms' =>
      ms' = J.carrier.members ms := by
  rw [afterConstants, afterConstants]
  refine .eat (by decide) h fun y u u' hu => ?_
  have hu' : Abreast J b u u' := hu.weaken .inr
  refine .ite (fun _ => hothers hu') fun _ => ?_
  refine .isAt hu' fun y _ => .ite (fun _ => .pure hu' ?_) fun _ => .after_report expected_gives
  rw [Carrier.members]

/-! ### Declarations -/

/-- What precedes the body of a declaration, and the components of a record. -/
structure DeclStart where
  kind : DeclKind
  nameSpan : Span
  name : Name
  params : List TypeParam
  fields : List FieldDecl
  extended : List TypeRef
  implemented : List TypeRef

/-- What precedes the body of a declaration, from its keyword on. -/
def declStart : Parser DeclStart := do
  let kind ← declKeyword
  let nameSpan ← currentSpan
  let name ← identifier
  let params ← optionalTypeParams
  let fields ← if kind = .recordType then components else pure []
  let extended ← extendsClause kind
  let implemented ← implementsClause kind
  permitsClause
  return ⟨kind, nameSpan, name, params, fields, extended, implemented⟩

/-- The declaration that starts so. -/
def DeclStart.decl (d : DeclStart) (modifiers : List Modifier) (body : List Member) (span : Span) :
    TypeDecl :=
  .mk ⟨d.kind, some d.name, d.nameSpan, modifiers, d.params, d.extended, d.implemented, span⟩
    (d.fields.map Member.field ++ body)

/-- A declaration from its body on. -/
def declBody (modifiers : List Modifier) (start : Span) (fuel : Nat) (d : DeclStart) :
    Parser TypeDecl := do
  let body ← if d.kind = .enumType then enumBody fuel else classBody fuel
  return d.decl modifiers body (← spanFrom start)

instance : LawfulMonad Parser :=
  .mk' Parser (fun _ => rfl) (fun _ _ => rfl) (fun _ _ _ => rfl)

theorem declWithin_succ (ms : List Modifier) (start : Span) (n : Nat) :
    declWithin ms start (n + 1) = declStart >>= declBody ms start n := by
  rw [declWithin, declStart]
  simp only [bind_assoc, pure_bind]
  refine bind_congr fun kind => bind_congr fun place => bind_congr fun name =>
    bind_congr fun params => ?_
  split
  · simp only [bind_assoc, pure_bind]
    refine bind_congr fun fields => bind_congr fun extended => bind_congr fun implemented =>
      bind_congr fun _ => ?_
    rw [declBody]
    rfl
  · rfl

/-- What precedes the body of a declaration, carried over. -/
def DeclStart.carried (c : Carrier) (d : DeclStart) : DeclStart where
  kind := d.kind
  nameSpan := c.place d.nameSpan
  name := c.name d.name
  params := d.params.map c.typeParam
  fields := d.fields.map c.field
  extended := d.extended.map c.type
  implemented := d.implemented.map c.type

theorem DeclStart.decl_carried (c : Carrier) (d : DeclStart) (ms : List Modifier)
    (body : List Member) (span : Span) :
    c.decl (d.decl ms body span) = (d.carried c).decl ms (c.members body) (c.place span) := by
  have hfields : (d.fields.map Member.field).map c.member =
      (d.fields.map c.field).map Member.field := by
    rw [List.map_map, List.map_map]
    refine List.map_congr_left fun f _ => ?_
    rw [Function.comp_apply, Carrier.member]
    rfl
  rw [decl, Carrier.decl, Carrier.members_eq_map, List.map_append, hfields,
    ← Carrier.members_eq_map]
  rfl

theorem declStart_along (h : Abreast J b s s') :
    Along J 1 True declStart declStart s s' fun d d' => d' = d.carried J.carrier := by
  rw [declStart]
  refine (declKeyword_along h).bind_eq fun kind u u' hu => .place hu ?_
  refine (identifier_along hu).bind fun name name' v v' hv hname => ?_
  refine (optionalTypeParams_along hv).bind fun params params' w w' hw hparams => ?_
  refine .join (b := True) (R := fun fields fields' => fields' = fields.map J.carrier.field) ?_
    fun fields fields' x x' hx hfields => ?_
  · exact .ite (fun _ => components_along hw) fun _ => .pure hw rfl
  refine (extendsClause_along kind hx).bind fun ext ext' y y' hy hext => ?_
  refine (implementsClause_along kind hy).bind fun imp imp' z z' hz himp => ?_
  refine (permitsClause_along hz).after fun _ _ v v' hv => .pure hv ?_
  rw [hname, hparams, hfields, hext, himp]
  rfl

theorem classBody_costs {t : NameTable} (n : Nat) : (classBody n).Costs t s := by
  cases n with
  | zero => exact fun hu => nomatch hu.whole
  | succ n =>
    rw [classBody]
    exact (expect_costs (by decide)).bind

theorem enumBody_costs {t : NameTable} (n : Nat) : (enumBody n).Costs t s := by
  cases n with
  | zero => exact fun hu => nomatch hu.whole
  | succ n =>
    rw [enumBody]
    exact (expect_costs (by decide)).bind

mutual

theorem declWithin_along {ms : List Modifier} {start : Span} (n n' : Nat) {b : Prop}
    {s s' : ParserState} (h : Abreast J b s s') :
    Along J 0 True (declWithin ms start n) (declWithin ms (start.shift J.offset) n') s s'
      fun d d' => d' = J.carrier.decl d := by
  refine .bounded (l := fun n => declWithin ms start n)
    (g := fun n => declWithin ms (start.shift J.offset) n) rfl rfl fun m m' hm hm' => ?_
  rw [declWithin_succ, declWithin_succ]
  -- the brace that opens the body stands behind the header, so the part does not end before it
  have hcost : ∀ (d : DeclStart) u, (declBody ms start m d).Costs J.names u := by
    intro d u
    rw [declBody]
    exact .ite (enumBody_costs m).bind (classBody_costs m).bind
  refine (declStart_along h).bindTo hcost fun d d' u u' hu hd => ?_
  rw [hd, declBody, declBody]
  refine .join (b := True) (R := fun body body' => body' = J.carrier.members body) ?_
    fun body body' v v' hv hbody => .spanFrom hv fun place => .pure hv ?_
  · exact .ite (fun _ => enumBody_along m m' hu) fun _ => classBody_along m m' hu
  rw [DeclStart.decl_carried, hbody]
  rfl
  termination_by n

theorem classBody_along (n n' : Nat) {b : Prop} {s s' : ParserState} (h : Abreast J b s s') :
    Along J 0 True (classBody n) (classBody n') s s' fun ms ms' => ms' = J.carrier.members ms := by
  refine .bounded rfl rfl fun m m' hm hm' => ?_
  rw [classBody, classBody]
  refine (expect_along (by decide) h).after fun _ _ u u' hu => ?_
  refine (members_along m m' hu).bindTo (fun _ _ => (expect_costs (by decide)).bind)
    fun found found' v v' hv hfound => ?_
  exact (expect_along (by decide) hv).after fun _ _ w w' hw => .pure hw hfound
  termination_by n

theorem members_along (n n' : Nat) {b : Prop} {s s' : ParserState} (h : Abreast J b s s') :
    Along J 1 b (members n) (members n') s s' fun ms ms' => ms' = J.carrier.members ms := by
  refine .bounded rfl rfl fun m m' hm hm' => ?_
  rw [members, members]
  refine .isAt h fun y _ => .isAt h fun y' _ => .ite (fun _ => .pure h ?_) fun _ => .state ?_
  · rw [Carrier.members]
  refine (member_along m m' h).bind fun found found' u u' hu hfound => ?_
  refine (moveOn_along h hu).after fun _ _ v v' hv => ?_
  refine (members_along m m' hv).bind fun rest rest' w w' hw hrest => .pure hw ?_
  rw [hfound, hrest, Carrier.members_eq_map, Carrier.members_eq_map, List.map_append,
    Option.toList_map]
  termination_by n

theorem member_along (n n' : Nat) {b : Prop} {s s' : ParserState} (h : Abreast J b s s') :
    Along J 1 b (member n) (member n') s s' fun m m' => m' = m.map J.carrier.member := by
  refine .bounded rfl rfl fun m m' hm hm' => ?_
  rw [member, member]
  refine .state (.ongoing fun hr => ?_)
  have hpeek := h.and_peek hr (k := .kwStatic) (by decide) fun x => decide (x = .leftBrace)
  rw [h.kind hr] at hpeek ⊢
  rw [hpeek]
  refine .ite (fun _ => ?_) fun _ => .ite (fun _ => ?_) fun _ => .ite (fun _ => ?_) fun _ => ?_
  · exact (advance_along h).after fun _ _ u u' hu => .pure (hu.weaken fun _ => trivial) rfl
  · exact (skipBraces_along h).after fun _ _ u u' hu => .pure hu rfl
  · refine (advance_along h).after fun _ _ u u' hu => ?_
    exact (skipBraces_along hu).after fun _ _ v v' hv => .pure (hv.weaken fun _ => trivial) rfl
  · refine .place h ((modifiers_along h).bind_eq fun ms u u' hu => .state (.ongoing fun hru => ?_))
    rw [hu.startsDeclaration hru]
    refine .ite (fun _ => ?_) fun _ => plainMember_along ms hu
    refine (declWithin_along m m' hu).more.bind fun d d' v v' hv hd => ?_
    refine .pure (hv.weaken fun _ => trivial) ?_
    rw [Option.map_some, hd, Carrier.member]
  termination_by n

theorem enumBody_along (n n' : Nat) {b : Prop} {s s' : ParserState} (h : Abreast J b s s') :
    Along J 0 True (enumBody n) (enumBody n') s s' fun ms ms' => ms' = J.carrier.members ms := by
  refine .bounded rfl rfl fun m m' hm hm' => ?_
  rw [enumBody, enumBody]
  refine (expect_along (by decide) h).after fun _ _ u u' hu => ?_
  refine (enumConstants_along m m' hu).bindTo (fun _ _ => .after fun _ _ =>
    (expect_costs (by decide)).bind) fun constants constants' v v' hv hconstants => ?_
  refine (afterConstants_along (fun hu => members_along m m' hu) hv).bindTo
    (fun _ _ => (expect_costs (by decide)).bind) fun others others' w w' hw hothers => ?_
  refine (expect_along (by decide) hw).after fun _ _ x x' hx => .pure hx ?_
  rw [hconstants, hothers, Carrier.members_eq_map, Carrier.members_eq_map, Carrier.members_eq_map,
    List.map_append]
  termination_by n

theorem enumConstants_along (n n' : Nat) {b : Prop} {s s' : ParserState} (h : Abreast J b s s') :
    Along J 1 b (enumConstants n) (enumConstants n') s s' fun ms ms' =>
      ms' = J.carrier.members ms := by
  refine .bounded rfl rfl fun m m' hm hm' => ?_
  rw [enumConstants, enumConstants]
  refine (skipAnnotations_along h).after fun _ _ u u' hu => .isAt hu fun y _ => ?_
  refine .ite (fun _ => ?_) fun _ => .pure hu ?_
  · refine (enumConstant_along m m' hu).bind fun c c' v v' hv hc => ?_
    refine .eat (by decide) hv fun y w w' hw => ?_
    have hw' : Abreast J b w w' := hw.weaken fun _ => .inr trivial
    refine .ite (fun _ => ?_) fun _ => ?_
    · refine (enumConstants_along m m' hw').bind fun rest rest' x x' hx hrest => .pure hx ?_
      rw [Carrier.members, hc, hrest]
    · refine .pure hw' ?_
      rw [Carrier.members, Carrier.members, hc]
  · rw [Carrier.members]
  termination_by n

theorem enumConstant_along (n n' : Nat) {b : Prop} {s s' : ParserState} (h : Abreast J b s s') :
    Along J 1 True (enumConstant n) (enumConstant n') s s' fun m m' => m' = J.carrier.member m := by
  refine .bounded rfl rfl fun m m' hm hm' => ?_
  rw [enumConstant, enumConstant]
  refine .place h ((identifier_along h).bind fun name name' u u' hu hname => ?_)
  refine (skipArguments_along hu).after fun _ _ v v' hv => .place hv (.isAt hv fun y _ => ?_)
  refine .ite (fun _ => ?_) fun _ => ?_
  · refine (classBody_along m m' hv).more.bind fun found found' w w' hw hfound => ?_
    refine .spanFrom hw fun place => .spanFrom hw fun place' => .pure hw ?_
    rw [Carrier.member, Carrier.decl, hname, hfound]
    rfl
  · refine .spanFrom hv fun place => .pure hv ?_
    rw [Carrier.member, hname]
    rfl
  termination_by n

end

end Parser

end JavaAbi
