import JavaAbi.Proofs.PairedTypes
import JavaAbi.Syntax.Parser.Unit

namespace JavaAbi

/-!
# Two runs of the parser on declarations

Where two runs meet the same words, they read the same declarations, but for places. What a parser
looks at ahead of it lies before the first delimiter that may open a group to step over.

* `Matched.currentModifier?`, `Matched.startsDeclaration` — what two runs see ahead;
* `Parser.declWithin_pairs`, `Parser.typeDecl_pairs` — declarations;
* `Parser.imports_pairs`, `Parser.topLevel_pairs` — the parts of a file.
-/

namespace Matched

variable {d : Difference} {s s' : ParserState}

/-- The second word after two that open no group. -/
theorem peek_two (h : Matched d s s') (hk : s.current.kind.closing? = none)
    (h1 : (s.peek 1).closing? = none) :
    s'.peek 2 = s.peek 2 ∧ s'.peekText 2 = s.peekText 2 := by
  have hopens : ∀ i < 2, ¬ Opens s i := by
    intro i hi
    obtain rfl | rfl : i = 0 ∨ i = 1 := by omega
    · refine not_opens ?_
      rwa [ParserState.peek_eq, List.drop_zero, ← ParserState.current_kind]
    · exact not_opens h1
  exact ⟨h.peek hopens, h.peekText hopens⟩

/-- The third word after two that open no group and the word `sealed`. -/
theorem peek_three (h : Matched d s s') (hk : s.current.kind.closing? = none)
    (h1 : (s.peek 1).closing? = none) (h2 : s.peekText 2 = "sealed") : s'.peek 3 = s.peek 3 := by
  refine h.peek fun i hi => ?_
  obtain rfl | rfl | rfl : i = 0 ∨ i = 1 ∨ i = 2 := by omega
  · refine not_opens ?_
    rwa [ParserState.peek_eq, List.drop_zero, ← ParserState.current_kind]
  · exact not_opens h1
  · exact fun ho => ho.2 h2

theorem currentModifier? (h : Matched d s s') :
    Parser.currentModifier? s' = Parser.currentModifier? s := by
  unfold Parser.currentModifier?
  rw [h.kind, h.text]
  cases Parser.modifier? s.current.kind with
  | some m => rfl
  | none =>
    dsimp only
    by_cases hk : s.current.kind = .identifier
    · have hclosing : s.current.kind.closing? = none := by rw [hk]; rfl
      rw [(h.peek_one hclosing).1]
      by_cases hminus : s.peek 1 = .minus
      · have hclosing' : (s.peek 1).closing? = none := by rw [hminus]; rfl
        rw [(h.peek_two hclosing hclosing').2]
        by_cases hsealed : s.peekText 2 = "sealed"
        · rw [h.peek_three hclosing hclosing' hsealed]
        · simp only [beq_false_of_ne hsealed, Bool.and_false, Bool.false_and]
      · simp only [decide_eq_false hminus, Bool.and_false, Bool.false_and]
    · rw [if_pos hk, if_pos hk]

theorem startsDeclaration (h : Matched d s s') :
    Parser.startsDeclaration s' = Parser.startsDeclaration s := by
  unfold Parser.startsDeclaration
  rw [h.kind, h.text]
  split
  · rfl
  · rfl
  · rfl
  · rename_i hk
    rw [(h.peek_one (by rw [hk]; rfl)).1]
  · rename_i hk
    have hclosing : s.current.kind.closing? = none := by rw [hk]; rfl
    rw [(h.peek_one hclosing).1]
    by_cases hident : s.peek 1 = .identifier
    · rw [(h.peek_two hclosing (by rw [hident]; rfl)).1]
    · simp only [decide_eq_false hident, Bool.and_false, Bool.false_and]
  · rfl

theorem separatesVariables (h : Matched d s s') (hk : s.current.kind.closing? = none) :
    Parser.separatesVariables s' = Parser.separatesVariables s := by
  unfold Parser.separatesVariables
  rw [(h.peek_one hk).1]
  by_cases hident : s.peek 1 = .identifier
  · rw [(h.peek_two hk (by rw [hident]; rfl)).1]
  · simp only [decide_eq_false hident, Bool.false_and]

end Matched

namespace Parser

variable {d : Difference} {s s' : ParserState}

/-! ### Modifiers -/

theorem advanceBy_pairs (n : Nat) {s s' : ParserState} (h : Matched d s s') :
    Pairs d (advanceBy n) (advanceBy n) s s' fun _ _ => True := by
  induction n generalizing s s' with
  | zero => exact .pure h trivial
  | succ n ih =>
    rw [advanceBy]
    exact (advance_pairs h).bind fun _ _ u u' hu _ => ih hu

theorem modifiersAfter_pairs (n n' : Nat) (found : List Modifier) {s s' : ParserState}
    (h : Matched d s s') (hn : d.Bounds n n') :
    Pairs d (modifiersAfter n found) (modifiersAfter n' found) s s' (· = ·) := by
  refine .bounded (l := fun n => modifiersAfter n found)
    (k := fun n => modifiersAfter n found) h hn rfl rfl rfl fun m m' hm hm' hb => ?_
  rw [modifiersAfter, modifiersAfter]
  refine .annotated h fun b _ => .ite (fun _ => ?_) fun _ => .state ?_
  · exact (skipAnnotation_pairs h).bind fun _ _ u u' hu _ => modifiersAfter_pairs m m' found hu hb
  · rw [h.currentModifier?]
    cases currentModifier? s with
    | none => exact .pure h rfl
    | some found =>
      exact (advanceBy_pairs _ h).bind fun _ _ u u' hu _ => modifiersAfter_pairs m m' _ hu hb
  termination_by n

theorem modifiers_pairs (h : Matched d s s') : Pairs d modifiers modifiers s s' (· = ·) := by
  rw [modifiers]
  exact .state (modifiersAfter_pairs _ _ [] h h.bounds)

/-! ### Recovery and skipped code -/

theorem recoverMember_pairs (n n' : Nat) {s s' : ParserState} (h : Matched d s s')
    (hn : d.Bounds n n') :
    Pairs d (recoverMember n) (recoverMember n') s s' fun _ _ => True := by
  refine .bounded h hn rfl rfl trivial fun m m' hm hm' hb => ?_
  rw [recoverMember, recoverMember]
  refine .kind h fun k _ => ?_
  split
  · exact .pure h trivial
  · exact .pure h trivial
  · exact advance_pairs h
  · exact skipBraces_pairs h
  · exact (skipParens_pairs h).bind fun _ _ u u' hu _ => recoverMember_pairs m m' hu hb
  · exact (advance_pairs h).bind fun _ _ u u' hu _ => recoverMember_pairs m m' hu hb
  termination_by n

theorem skipExpression_pairs (n n' depth : Nat) {s s' : ParserState} (h : Matched d s s')
    (hn : d.Bounds n n') :
    Pairs d (skipExpression n depth) (skipExpression n' depth) s s' fun _ _ => True := by
  refine .bounded (l := fun n => skipExpression n depth) (k := fun n => skipExpression n depth)
    h hn rfl rfl trivial fun m m' hm hm' hb => ?_
  have hnext : ∀ depth, Pairs d (Parser.advance >>= fun _ => skipExpression m depth)
      (Parser.advance >>= fun _ => skipExpression m' depth) s s' fun _ _ => True := fun depth =>
    (advance_pairs h).bind fun _ _ u u' hu _ => skipExpression_pairs m m' depth hu hb
  unfold skipExpression
  refine .kind h fun k hk => ?_
  split
  · -- The end of the file, then opening brackets, closing brackets, `;`, `,` and all other words.
    exact .pure h trivial
  · exact hnext _
  · exact hnext _
  · exact hnext _
  · cases depth with
    | zero => exact .pure h trivial
    | succ depth => exact hnext depth
  · cases depth with
    | zero => exact .pure h trivial
    | succ depth => exact hnext depth
  · cases depth with
    | zero => exact .pure h trivial
    | succ depth => exact hnext depth
  · exact .ite (fun _ => .pure h trivial) fun _ => hnext depth
  · refine .state ?_
    rw [h.separatesVariables (by rw [hk]; rfl)]
    exact .ite (fun _ => .pure h trivial) fun _ => hnext depth
  · exact hnext depth
  termination_by n

theorem skipMethod_pairs (n n' : Nat) {s s' : ParserState} (h : Matched d s s')
    (hn : d.Bounds n n') : Pairs d (skipMethod n) (skipMethod n') s s' fun _ _ => True := by
  refine .bounded h hn rfl rfl trivial fun m m' hm hm' hb => ?_
  rw [skipMethod, skipMethod]
  refine .kind h fun k _ => ?_
  split
  · exact (skipParens_pairs h).bind fun _ _ u u' hu _ => skipMethod_pairs m m' hu hb
  · exact skipBraces_pairs h
  · exact advance_pairs h
  · refine (advance_pairs h).bind fun _ _ u u' hu _ => .state ?_
    refine (skipExpression_pairs _ _ 0 hu hu.bounds).bind fun _ _ v v' hv _ => ?_
    exact expect_pairs _ hv
  · exact expected_pairs _ h
  · exact expected_pairs _ h
  · exact (advance_pairs h).bind fun _ _ u u' hu _ => skipMethod_pairs m m' hu hb
  termination_by n

/-! ### Fields -/

theorem dimensions_pairs (n n' : Nat) {s s' : ParserState} (h : Matched d s s')
    (hn : d.Bounds n n') : Pairs d (dimensions n) (dimensions n') s s' (· = ·) := by
  refine .bounded h hn rfl rfl rfl fun m m' hm hm' hb => ?_
  rw [dimensions, dimensions]
  refine .isAtDimension h fun b => .ite (fun _ => ?_) fun _ => .pure h rfl
  refine (advance_pairs h).bind fun _ _ u u' hu _ => (advance_pairs hu).bind fun _ _ v v' hv _ => ?_
  exact (dimensions_pairs m m' hv hb).bind_eq fun _ w w' hw => .pure hw rfl
  termination_by n

theorem skipInitializer_pairs (h : Matched d s s') :
    Pairs d skipInitializer skipInitializer s s' fun _ _ => True := by
  rw [skipInitializer]
  refine (eat_pairs _ h).bind_eq fun b u u' hu => .ite (fun _ => .state ?_) fun _ => .pure hu trivial
  exact skipExpression_pairs _ _ 0 hu hu.bounds

theorem declarators_pairs (n n' : Nat) {s s' : ParserState} (h : Matched d s s')
    (hn : d.Bounds n n') : Pairs d (declarators n) (declarators n') s s' fun vars vars' =>
      vars.map Variable.bare = vars'.map Variable.bare := by
  refine .bounded h hn rfl rfl rfl fun m m' hm hm' hb => ?_
  rw [declarators, declarators]
  refine .place fun _ _ => (identifier_pairs h).bind_eq fun name u u' hu => .state ?_
  refine (dimensions_pairs _ _ hu hu.bounds).bind_eq fun dims v v' hv => ?_
  refine (skipInitializer_pairs hv).bind fun _ _ w w' hw _ => ?_
  refine (eat_pairs _ hw).bind_eq fun b x x' hx => .ite (fun _ => ?_) fun _ => .pure hx rfl
  refine (declarators_pairs m m' hx hb).bind fun rest rest' y y' hy hrest => .pure hy ?_
  rw [List.map_cons, List.map_cons, hrest, Variable.bare, Variable.bare]
  termination_by n

theorem endField_pairs (h : Matched d s s') :
    Pairs d endField endField s s' fun _ _ => True := by
  rw [endField]
  refine (eat_pairs _ h).bind_eq fun b u u' hu => .ite (fun _ => .pure hu trivial) fun _ => ?_
  refine (expected_pairs _ hu).bind fun _ _ v v' hv _ => .state ?_
  exact recoverMember_pairs _ _ hv hv.bounds

theorem field_pairs {start start' : Span} {ms : List Modifier} {r r' : TypeRef}
    (h : Matched d s s') (hr : r.bare = r'.bare) :
    Pairs d (field start ms r) (field start' ms r') s s' fun f f' => f.bare = f'.bare := by
  rw [field, field]
  refine .state ((declarators_pairs _ _ h (h.bounds.map (· + 1))).bind fun vars vars' u u' hu hvars => ?_)
  refine (endField_pairs hu).bind fun _ _ v v' hv _ => .spanFrom fun _ _ => .pure hv ?_
  rw [FieldDecl.bare, FieldDecl.bare, hr, hvars]

theorem componentType_pairs {start start' : Span} (h : Matched d s s') :
    Pairs d (componentType start) (componentType start') s s' fun r r' => r.bare = r'.bare := by
  rw [componentType, componentType]
  refine (type_pairs h).bind fun plain plain' u u' hu hplain => ?_
  refine (eat_pairs _ hu).bind_eq fun b v v' hv => .ite (fun _ => ?_) fun _ => .pure hv hplain
  refine .spanFrom fun _ _ => .pure hv ?_
  rw [TypeRef.bare, TypeRef.bare, hplain]

theorem component_pairs (h : Matched d s s') :
    Pairs d component component s s' fun f f' => f.bare = f'.bare := by
  rw [component]
  refine .place fun _ _ => (skipAnnotations_pairs h).bind fun _ _ u u' hu _ => ?_
  refine (componentType_pairs hu).bind fun r r' v v' hv hr => .place fun _ _ => ?_
  refine (identifier_pairs hv).bind_eq fun name w w' hw => .spanFrom fun _ _ => .pure hw ?_
  rw [FieldDecl.bare, FieldDecl.bare, hr]
  rfl

theorem componentList_pairs (n n' : Nat) {s s' : ParserState} (h : Matched d s s')
    (hn : d.Bounds n n') : Pairs d (componentList n) (componentList n') s s' fun fields fields' =>
      fields.map FieldDecl.bare = fields'.map FieldDecl.bare := by
  refine .bounded h hn rfl rfl rfl fun m m' hm hm' hb => ?_
  rw [componentList, componentList]
  refine .isAt h fun b _ => .isAt h fun b' _ => .ite (fun _ => .pure h rfl) fun _ => ?_
  refine (component_pairs h).bind fun f f' u u' hu hf => ?_
  refine (eat_pairs _ hu).bind_eq fun b v v' hv => .ite (fun _ => ?_) fun _ => ?_
  · refine (componentList_pairs m m' hv hb).bind fun rest rest' w w' hw hrest => .pure hw ?_
    rw [List.map_cons, List.map_cons, hf, hrest]
  · exact .pure hv (by rw [List.map_singleton, List.map_singleton, hf])
  termination_by n

theorem components_pairs (h : Matched d s s') : Pairs d components components s s'
    fun fields fields' => fields.map FieldDecl.bare = fields'.map FieldDecl.bare := by
  rw [components]
  refine (expect_pairs _ h).bind fun _ _ u u' hu _ => .state ?_
  refine (componentList_pairs _ _ hu hu.bounds).bind fun fields fields' v v' hv hfields => ?_
  exact (expect_pairs _ hv).bind fun _ _ w w' hw _ => .pure hw hfields

/-! ### Headers -/

theorem declKeyword_pairs (h : Matched d s s') :
    Pairs d declKeyword declKeyword s s' (· = ·) := by
  rw [declKeyword]
  have hword : ∀ (k : DeclKind) {u u' : ParserState}, Matched d u u' →
      Pairs d (Parser.advance >>= fun _ => Pure.pure k) (Parser.advance >>= fun _ => Pure.pure k) u u'
        (· = ·) := fun k u u' hu => (advance_pairs hu).bind fun _ _ v v' hv _ => .pure hv rfl
  refine .kind h fun k _ => .ite (fun _ => ?_) fun _ => hword _ h
  exact (advance_pairs h).bind fun _ _ u u' hu _ => hword _ hu

theorem extendsClause_pairs (k : DeclKind) (h : Matched d s s') :
    Pairs d (extendsClause k) (extendsClause k) s s' fun types types' =>
      types.map TypeRef.bare = types'.map TypeRef.bare := by
  unfold extendsClause
  refine (eat_pairs _ h).bind_eq fun b u u' hu => .ite (fun _ => ?_) fun _ => .pure hu rfl
  cases k with
  | classType =>
    refine (type_pairs hu).bind fun r r' v v' hv hr => .pure hv ?_
    rw [List.map_singleton, List.map_singleton, hr]
  | interfaceType => exact typeList_pairs hu
  | _ =>
    refine (error_pairs _ hu).bind fun _ _ v v' hv _ => ?_
    exact (typeList_pairs hv).bind fun _ _ w w' hw _ => .pure hw rfl

theorem checkImplements_pairs (k : DeclKind) (h : Matched d s s') :
    Pairs d (checkImplements k) (checkImplements k) s s' fun _ _ => True := by
  rw [checkImplements]
  exact .ite (fun _ => error_pairs _ h) fun _ => .pure h trivial

theorem implementsClause_pairs (k : DeclKind) (h : Matched d s s') :
    Pairs d (implementsClause k) (implementsClause k) s s' fun types types' =>
      types.map TypeRef.bare = types'.map TypeRef.bare := by
  rw [implementsClause]
  refine (eat_pairs _ h).bind_eq fun b u u' hu => .ite (fun _ => ?_) fun _ => .pure hu rfl
  refine (typeList_pairs hu).bind fun types types' v v' hv htypes => ?_
  exact (checkImplements_pairs k hv).bind fun _ _ w w' hw _ => .pure hw htypes

theorem permitsClause_pairs (h : Matched d s s') :
    Pairs d permitsClause permitsClause s s' fun _ _ => True := by
  rw [permitsClause]
  refine .isAtWord h fun b => .ite (fun _ => ?_) fun _ => .pure h trivial
  refine (advance_pairs h).bind fun _ _ u u' hu _ => ?_
  exact (typeList_pairs hu).bind fun _ _ v v' hv _ => .pure hv trivial

/-! ### Bodies -/

theorem isError_bare (r : TypeRef) : r.bare.isError = r.isError := by
  cases r <;> rw [TypeRef.bare] <;> rfl

theorem fieldOrMethod_pairs {start start' : Span} (ms : List Modifier) (h : Matched d s s') :
    Pairs d (fieldOrMethod start ms) (fieldOrMethod start' ms) s s' fun m m' =>
      m.map Member.bare = m'.map Member.bare := by
  rw [fieldOrMethod, fieldOrMethod]
  refine (type_pairs h).bind fun r r' u u' hu hr => ?_
  rw [← isError_bare r, ← isError_bare r', hr]
  refine .ite (fun _ => .state ?_) fun _ => ?_
  · exact (recoverMember_pairs _ _ hu hu.bounds).bind fun _ _ v v' hv _ => .pure hv rfl
  · refine .kindThen (c := .identifier) rfl (fun k => decide (k = .leftParen))
      (f := fun b => if b then _ else _) (g := fun b => if b then _ else _) hu
      fun b => .ite (fun _ => .state ?_) fun _ => ?_
    · exact (skipMethod_pairs _ _ hu hu.bounds).bind fun _ _ v v' hv _ => .pure hv rfl
    · refine (field_pairs hu hr).bind fun f f' v v' hv hf => .pure hv ?_
      rw [Option.map_some, Option.map_some, Member.bare, Member.bare, hf]

theorem plainMember_pairs {start start' : Span} (ms : List Modifier) (h : Matched d s s') :
    Pairs d (plainMember start ms) (plainMember start' ms) s s' fun m m' =>
      m.map Member.bare = m'.map Member.bare := by
  rw [plainMember, plainMember]
  have hpeek : ∀ next, (decide (s.current.kind = .identifier) && decide (s'.peek 1 = next)) =
      (decide (s.current.kind = .identifier) && decide (s.peek 1 = next)) := fun next => by
    have hpeek := h.and_peek (c := .identifier) rfl fun k => decide (k = next)
    rwa [h.kind] at hpeek
  refine .state ?_
  rw [h.kind, hpeek, hpeek]
  refine .ite (fun _ => ?_) fun _ => .ite (fun _ => ?_) fun _ => .ite (fun _ => ?_) fun _ => ?_
  · refine (skipBalanced_pairs rfl h).bind fun _ _ u u' hu _ => .state ?_
    exact (skipMethod_pairs _ _ hu hu.bounds).bind fun _ _ v v' hv _ => .pure hv rfl
  · exact (skipMethod_pairs _ _ h h.bounds).bind fun _ _ u u' hu _ => .pure hu rfl
  · refine (advance_pairs h).bind fun _ _ u u' hu _ => ?_
    exact (skipBraces_pairs hu).bind fun _ _ v v' hv _ => .pure hv rfl
  · exact fieldOrMethod_pairs ms h

theorem moveOn_pairs {before before' : ParserState} (hbefore : Matched d before before')
    (hl : before.Leads s) (h : Matched d s s') :
    Pairs d (moveOn before.remaining) (moveOn before'.remaining) s s' fun _ _ => True := by
  rw [moveOn, moveOn]
  refine .state ?_
  simp only [← hbefore.stayed hl h]
  exact .ite (fun _ => advance_pairs h) fun _ => .pure h trivial

theorem afterConstants_pairs {others others' : Parser (List Member)}
    (hothers : ∀ {u u' : ParserState}, Matched d u u' → Pairs d others others' u u' fun ms ms' =>
      Member.bareAll ms = Member.bareAll ms') (h : Matched d s s') :
    Pairs d (afterConstants others) (afterConstants others') s s' fun ms ms' =>
      Member.bareAll ms = Member.bareAll ms' := by
  rw [afterConstants, afterConstants]
  refine (eat_pairs _ h).bind_eq fun b u u' hu => .ite (fun _ => hothers hu) fun _ => ?_
  refine .isAt hu fun b _ => .ite (fun _ => .pure hu rfl) fun _ => ?_
  exact (expected_pairs _ hu).bind fun _ _ v v' hv _ => hothers hv

theorem bareAll_append (as bs : List Member) :
    Member.bareAll (as ++ bs) = Member.bareAll as ++ Member.bareAll bs := by
  induction as with
  | nil => rfl
  | cons a as ih => rw [List.cons_append, Member.bareAll, Member.bareAll, ih, List.cons_append]

theorem bareAll_toList {m m' : Option Member} (h : m.map Member.bare = m'.map Member.bare) :
    Member.bareAll m.toList = Member.bareAll m'.toList := by
  cases m with
  | none => cases m' with
    | none => rfl
    | some m' => cases h
  | some m => cases m' with
    | none => cases h
    | some m' =>
      have hbare : m.bare = m'.bare := Option.some.inj h
      simp only [Option.toList_some, Member.bareAll, hbare]

theorem bareAll_fields {fields fields' : List FieldDecl}
    (h : fields.map FieldDecl.bare = fields'.map FieldDecl.bare) :
    Member.bareAll (fields.map .field) = Member.bareAll (fields'.map .field) := by
  induction fields generalizing fields' with
  | nil => cases fields' <;> cases h; rfl
  | cons f fields ih =>
    cases fields' with
    | nil => cases h
    | cons f' fields' =>
      rw [List.map_cons, List.map_cons, List.cons.injEq] at h
      rw [List.map_cons, List.map_cons, Member.bareAll, Member.bareAll, Member.bare, Member.bare,
        h.1, ih h.2]

mutual

theorem declWithin_pairs {ms : List Modifier} {start start' : Span} (n n' : Nat)
    {s s' : ParserState} (h : Matched d s s') (hn : d.Bounds n n') :
    Pairs d (declWithin ms start n) (declWithin ms start' n') s s' fun x x' => x.bare = x'.bare := by
  refine .bounded (l := fun n => declWithin ms start n) (k := fun n => declWithin ms start' n)
    h hn rfl rfl rfl fun m m' hm hm' hb => ?_
  rw [declWithin, declWithin]
  refine (declKeyword_pairs h).bind_eq fun k a a' ha => .place fun _ _ => ?_
  refine (identifier_pairs ha).bind_eq fun name b b' hb' => ?_
  refine (optionalTypeParams_pairs hb').bind fun params params' c c' hc hparams => ?_
  refine .join (R := fun fields fields' => fields.map FieldDecl.bare = fields'.map FieldDecl.bare) ?_
    fun fields fields' x x' hx hfields => ?_
  · exact .ite (fun _ => components_pairs hc) fun _ => .pure hc rfl
  refine (extendsClause_pairs k hx).bind fun ext ext' e e' he hext => ?_
  refine (implementsClause_pairs k he).bind fun imp imp' f f' hf himp => ?_
  refine (permitsClause_pairs hf).bind fun _ _ g g' hg _ => ?_
  refine .join (R := fun ms ms' => Member.bareAll ms = Member.bareAll ms') ?_
    fun body body' y y' hy hbody => .spanFrom fun _ _ => .pure hy ?_
  · exact .ite (fun _ => enumBody_pairs m m' hg hb) fun _ => classBody_pairs m m' hg hb
  rw [TypeDecl.bare, TypeDecl.bare, bareAll_append, bareAll_append, bareAll_fields hfields, hbody,
    DeclHead.bare, DeclHead.bare, hparams, hext, himp]
  termination_by n

theorem classBody_pairs (n n' : Nat) {s s' : ParserState} (h : Matched d s s')
    (hn : d.Bounds n n') : Pairs d (classBody n) (classBody n') s s' fun ms ms' =>
      Member.bareAll ms = Member.bareAll ms' := by
  refine .bounded h hn rfl rfl rfl fun m m' hm hm' hb => ?_
  rw [classBody, classBody]
  refine (expect_pairs _ h).bind fun _ _ u u' hu _ => ?_
  refine (members_pairs m m' hu hb).bind fun found found' v v' hv hfound => ?_
  exact (expect_pairs _ hv).bind fun _ _ w w' hw _ => .pure hw hfound
  termination_by n

theorem members_pairs (n n' : Nat) {s s' : ParserState} (h : Matched d s s')
    (hn : d.Bounds n n') : Pairs d (members n) (members n') s s' fun ms ms' =>
      Member.bareAll ms = Member.bareAll ms' := by
  refine .bounded h hn rfl rfl rfl fun m m' hm hm' hb => ?_
  rw [members, members]
  refine .isAt h fun b _ => .isAt h fun b' _ => .ite (fun _ => .pure h rfl) fun _ => .state ?_
  refine (member_pairs m m' h hb).bind_leads fun found found' u u' hl _ hu hfound => ?_
  refine (moveOn_pairs h hl hu).bind fun _ _ v v' hv _ => ?_
  refine (members_pairs m m' hv hb).bind fun rest rest' w w' hw hrest => .pure hw ?_
  rw [bareAll_append, bareAll_append, bareAll_toList hfound, hrest]
  termination_by n

theorem member_pairs (n n' : Nat) {s s' : ParserState} (h : Matched d s s')
    (hn : d.Bounds n n') : Pairs d (member n) (member n') s s' fun m m' =>
      m.map Member.bare = m'.map Member.bare := by
  refine .bounded h hn rfl rfl rfl fun m m' hm hm' hb => ?_
  rw [member, member]
  refine .state ?_
  have hpeek := h.and_peek (c := .kwStatic) rfl fun k => decide (k = .leftBrace)
  rw [h.kind] at hpeek ⊢
  rw [hpeek]
  refine .ite (fun _ => ?_) fun _ => .ite (fun _ => ?_) fun _ => .ite (fun _ => ?_) fun _ => ?_
  · exact (advance_pairs h).bind fun _ _ u u' hu _ => .pure hu rfl
  · exact (skipBraces_pairs h).bind fun _ _ u u' hu _ => .pure hu rfl
  · refine (advance_pairs h).bind fun _ _ u u' hu _ => ?_
    exact (skipBraces_pairs hu).bind fun _ _ v v' hv _ => .pure hv rfl
  · refine .place fun _ _ => (modifiers_pairs h).bind_eq fun ms u u' hu => .state ?_
    rw [hu.startsDeclaration]
    refine .ite (fun _ => ?_) fun _ => plainMember_pairs ms hu
    refine (declWithin_pairs m m' hu hb).bind fun x x' v v' hv hx => .pure hv ?_
    rw [Option.map_some, Option.map_some, Member.bare, Member.bare, hx]
  termination_by n

theorem enumBody_pairs (n n' : Nat) {s s' : ParserState} (h : Matched d s s')
    (hn : d.Bounds n n') : Pairs d (enumBody n) (enumBody n') s s' fun ms ms' =>
      Member.bareAll ms = Member.bareAll ms' := by
  refine .bounded h hn rfl rfl rfl fun m m' hm hm' hb => ?_
  rw [enumBody, enumBody]
  refine (expect_pairs _ h).bind fun _ _ u u' hu _ => ?_
  refine (enumConstants_pairs m m' hu hb).bind fun constants constants' v v' hv hconstants => ?_
  refine (afterConstants_pairs (fun hu => members_pairs m m' hu hb) hv).bind
    fun others others' w w' hw hothers => ?_
  refine (expect_pairs _ hw).bind fun _ _ x x' hx _ => .pure hx ?_
  rw [bareAll_append, bareAll_append, hconstants, hothers]
  termination_by n

theorem enumConstants_pairs (n n' : Nat) {s s' : ParserState} (h : Matched d s s')
    (hn : d.Bounds n n') : Pairs d (enumConstants n) (enumConstants n') s s' fun ms ms' =>
      Member.bareAll ms = Member.bareAll ms' := by
  refine .bounded h hn rfl rfl rfl fun m m' hm hm' hb => ?_
  rw [enumConstants, enumConstants]
  refine (skipAnnotations_pairs h).bind fun _ _ u u' hu _ => .isAt hu fun b _ => ?_
  refine .ite (fun _ => ?_) fun _ => .pure hu rfl
  refine (enumConstant_pairs m m' hu hb).bind fun c c' v v' hv hc => ?_
  refine (eat_pairs _ hv).bind_eq fun b w w' hw => .ite (fun _ => ?_) fun _ => ?_
  · refine (enumConstants_pairs m m' hw hb).bind fun rest rest' x x' hx hrest => .pure hx ?_
    rw [Member.bareAll, Member.bareAll, hc, hrest]
  · exact .pure hw (by simp only [Member.bareAll, hc])
  termination_by n

theorem enumConstant_pairs (n n' : Nat) {s s' : ParserState} (h : Matched d s s')
    (hn : d.Bounds n n') :
    Pairs d (enumConstant n) (enumConstant n') s s' fun m m' => m.bare = m'.bare := by
  refine .bounded h hn rfl rfl rfl fun m m' hm hm' hb => ?_
  rw [enumConstant, enumConstant]
  refine .place fun _ _ => (identifier_pairs h).bind_eq fun name u u' hu => ?_
  refine (skipArguments_pairs hu).bind fun _ _ v v' hv _ => .place fun _ _ => .isAt hv fun b _ => ?_
  refine .ite (fun _ => ?_) fun _ => .spanFrom fun _ _ => .pure hv rfl
  refine (classBody_pairs m m' hv hb).bind fun found found' w w' hw hfound => ?_
  refine .spanFrom fun _ _ => .spanFrom fun _ _ => .pure hw ?_
  rw [Member.bare, Member.bare, TypeDecl.bare, TypeDecl.bare, hfound]
  rfl
  termination_by n

end

/-- **Declarations** are the same, but for places. -/
theorem typeDecl_pairs {ms : List Modifier} {start start' : Span} (h : Matched d s s') :
    Pairs d (typeDecl ms start) (typeDecl ms start') s s' fun x x' => x.bare = x'.bare := by
  rw [typeDecl, typeDecl]
  exact .steps (declWithin_pairs _ _ h (h.bounds.map fun n => 5 * n + 5))

/-! ### Files -/

theorem packageDecl_pairs (h : Matched d s s') :
    Pairs d packageDecl packageDecl s s' fun p p' => p.bare = p'.bare := by
  rw [packageDecl]
  refine .place fun _ _ => (expect_pairs _ h).bind fun _ _ u u' hu _ => ?_
  refine (path_pairs hu).bind fun p p' v v' hv hp => (expect_pairs _ hv).bind fun _ _ w w' hw _ => ?_
  refine .spanFrom fun _ _ => .pure hw ?_
  rw [PackageDecl.bare, PackageDecl.bare, Path.bare, Path.bare, hp]

theorem importSegments_pairs (n n' : Nat) {s s' : ParserState} (h : Matched d s s')
    (hn : d.Bounds n n') : Pairs d (importSegments n) (importSegments n') s s' (· = ·) := by
  refine .bounded h hn rfl rfl rfl fun m m' hm hm' hb => ?_
  rw [importSegments, importSegments]
  refine .isAt h fun b hdot => .ite (fun hb' => .state ?_) fun _ => .pure h rfl
  obtain ⟨hpeek, htext⟩ := h.peek_one (by rw [hdot.1 hb']; rfl)
  rw [hpeek, htext]
  refine .ite (fun _ => ?_) fun _ => .ite (fun _ => ?_) fun _ => ?_
  · refine (advance_pairs h).bind fun _ _ u u' hu _ => (identifier_pairs hu).bind_eq fun n v v' hv => ?_
    exact (importSegments_pairs m m' hv hb).bind_eq fun more w w' hw => .pure hw rfl
  · refine (advance_pairs h).bind fun _ _ u u' hu _ => ?_
    exact (advance_pairs hu).bind fun _ _ v v' hv _ => .pure hv rfl
  · refine (advance_pairs h).bind fun _ _ u u' hu _ => ?_
    exact (expected_pairs _ hu).bind fun _ _ v v' hv _ => .pure hv rfl
  termination_by n

theorem importDecl_pairs (h : Matched d s s') :
    Pairs d importDecl importDecl s s' fun i i' => i.bare = i'.bare := by
  rw [importDecl]
  refine .place fun _ _ => (expect_pairs _ h).bind fun _ _ u u' hu _ => ?_
  refine (eat_pairs _ hu).bind_eq fun isStatic v v' hv => .place fun _ _ => ?_
  refine (identifier_pairs hv).bind_eq fun first w w' hw => .state ?_
  refine (importSegments_pairs _ _ hw hw.bounds).bind_eq fun more x x' hx => ?_
  obtain ⟨rest, onDemand⟩ := more
  refine .spanFrom fun _ _ => (expect_pairs _ hx).bind fun _ _ y y' hy _ => ?_
  exact .spanFrom fun _ _ => .pure hy rfl

theorem imports_pairs (n n' : Nat) {s s' : ParserState} (h : Matched d s s')
    (hn : d.Bounds n n') : Pairs d (imports n) (imports n') s s' fun is is' =>
      is.map ImportDecl.bare = is'.map ImportDecl.bare := by
  refine .bounded h hn rfl rfl rfl fun m m' hm hm' hb => ?_
  rw [imports, imports]
  refine .isAt h fun b _ => .ite (fun _ => ?_) fun _ => .pure h rfl
  refine (importDecl_pairs h).bind fun i i' u u' hu hi => ?_
  refine (imports_pairs m m' hu hb).bind fun rest rest' v v' hv hrest => .pure hv ?_
  rw [List.map_cons, List.map_cons, hi, hrest]
  termination_by n

theorem recoverDeclaration_pairs (n n' : Nat) {s s' : ParserState} (h : Matched d s s')
    (hn : d.Bounds n n') :
    Pairs d (recoverDeclaration n) (recoverDeclaration n') s s' fun _ _ => True := by
  refine .bounded h hn rfl rfl trivial fun m m' hm hm' hb => ?_
  rw [recoverDeclaration, recoverDeclaration]
  refine .isAt h fun b _ => .ite (fun _ => .pure h trivial) fun _ => ?_
  refine (eat_pairs _ h).bind_eq fun b u u' hu => .ite (fun _ => .pure hu trivial) fun _ => .state ?_
  rw [hu.startsDeclaration, hu.kind]
  refine .ite (fun _ => .pure hu trivial) fun _ => ?_
  exact (advance_pairs hu).bind fun _ _ v v' hv _ => recoverDeclaration_pairs m m' hv hb
  termination_by n

/-- A top-level declaration after its modifiers, or what is reported and stepped over in its place,
    and the declarations that follow. -/
def afterModifiers (start : Span) (fuel : Nat) (ms : List Modifier) : Parser (List TypeDecl) := do
  if startsDeclaration (← state) then
    let d ← typeDecl ms start
    return d :: (← topLevel fuel)
  else
    expected "class, interface, enum, record or annotation type declaration"
    advance
    recoverDeclaration (← state).remaining
    topLevel fuel

theorem topLevel_succ (fuel : Nat) : topLevel (fuel + 1) = (do
    if ← isAt .eof then
      return []
    if ← eat .semicolon then
      topLevel fuel
    else
      let start ← currentSpan
      afterModifiers start fuel (← modifiers)) := rfl

theorem afterModifiers_pairs {start start' : Span} {n n' : Nat} {ms : List Modifier}
    (htop : ∀ {u u'}, Matched d u u' → Pairs d (topLevel n) (topLevel n') u u' fun ts ts' =>
      ts.map TypeDecl.bare = ts'.map TypeDecl.bare) (h : Matched d s s') :
    Pairs d (afterModifiers start n ms) (afterModifiers start' n' ms) s s' fun ts ts' =>
      ts.map TypeDecl.bare = ts'.map TypeDecl.bare := by
  rw [afterModifiers, afterModifiers]
  refine .state ?_
  rw [h.startsDeclaration]
  refine .ite (fun _ => ?_) fun _ => ?_
  · refine (typeDecl_pairs h).bind fun x x' u u' hu hx => ?_
    refine (htop hu).bind fun rest rest' v v' hv hrest => .pure hv ?_
    rw [List.map_cons, List.map_cons, hx, hrest]
  · refine (expected_pairs _ h).bind fun _ _ u u' hu _ => ?_
    refine (advance_pairs hu).bind fun _ _ v v' hv _ => .state ?_
    exact (recoverDeclaration_pairs _ _ hv hv.bounds).bind fun _ _ w w' hw _ => htop hw

theorem topLevel_pairs (n n' : Nat) {s s' : ParserState} (h : Matched d s s')
    (hn : d.Bounds n n') : Pairs d (topLevel n) (topLevel n') s s' fun ts ts' =>
      ts.map TypeDecl.bare = ts'.map TypeDecl.bare := by
  refine .bounded h hn rfl rfl rfl fun m m' hm hm' hb => ?_
  rw [topLevel_succ, topLevel_succ]
  refine .isAt h fun b _ => .ite (fun _ => .pure h rfl) fun _ => ?_
  refine (eat_pairs _ h).bind_eq fun b u u' hu => .ite (fun _ => topLevel_pairs m m' hu hb) fun _ => ?_
  refine .place fun _ _ => (modifiers_pairs hu).bind_eq fun ms v v' hv => ?_
  exact afterModifiers_pairs (fun hw => topLevel_pairs m m' hw hb) hv
  termination_by n

theorem packageHeader_pairs (h : Matched d s s') :
    Pairs d packageHeader packageHeader s s' fun p p' =>
      p.map PackageDecl.bare = p'.map PackageDecl.bare := by
  rw [packageHeader]
  refine (skipAnnotations_pairs h).bind fun _ _ u u' hu _ => .isAt hu fun b _ => ?_
  refine .ite (fun _ => ?_) fun _ => .pure hu rfl
  refine (packageDecl_pairs hu).bind fun p p' v v' hv hp => .pure hv ?_
  rw [Option.map_some, Option.map_some, hp]

end Parser

end JavaAbi
