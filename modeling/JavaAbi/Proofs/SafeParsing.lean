import JavaAbi.Diagnostics.Render
import JavaAbi.Proofs.ParserBounds

namespace JavaAbi

/-!
# The front end is total and safe

Whatever the text, lexing and parsing it comes to an end by itself: no loop of the parser is cut off,
`eof` is never passed, and all places in the tree and in the diagnostics are spans of the file, so
that their texts can be taken and the diagnostics rendered.

* `TypeDecl.Placed`, `CompilationUnit.Placed` — the places of a tree;
* `Parser.declWithin_runs`, `Parser.unit_runs` — the parsers of declarations and of files;
* `parse_safe` — what is so of every text.

A declaration, its body, its members and one of them are four calls for at least one token; an enum
constant with its body is no more.
-/

/-! ### Places of trees -/

section Placed

variable (T : SourceText)

/-- All places in a field declaration are spans of a file. -/
structure FieldDecl.Placed (f : FieldDecl) : Prop where
  type : f.type.Placed T
  declarators : ∀ v ∈ f.declarators, T.Holds v.span
  place : T.Holds f.span

/-- All places in the head of a declaration are spans of a file. -/
structure DeclHead.Placed (h : DeclHead) : Prop where
  namePlace : T.Holds h.nameSpan
  typeParams : ∀ p ∈ h.typeParams, p.Placed T
  extended : ∀ r ∈ h.extended, r.Placed T
  implemented : ∀ r ∈ h.implemented, r.Placed T
  place : T.Holds h.span

mutual

/-- All places in a declaration are spans of a file. -/
inductive TypeDecl.Placed : TypeDecl → Prop
  | mk {head : DeclHead} {members : List Member} (header : head.Placed T)
      (body : ∀ m ∈ members, Member.Placed m) : TypeDecl.Placed (.mk head members)

/-- All places in a member are spans of a file. -/
inductive Member.Placed : Member → Prop
  | type {d : TypeDecl} (decl : TypeDecl.Placed d) : Member.Placed (.type d)
  | field {f : FieldDecl} (decl : f.Placed T) : Member.Placed (.field f)
  | constant {name : Name} {body : Option TypeDecl} {span : Span} (place : T.Holds span)
      (decl : ∀ d ∈ body, TypeDecl.Placed d) : Member.Placed (.constant name body span)

end

/-- All places in an import are spans of a file. -/
structure ImportDecl.Placed (i : ImportDecl) : Prop where
  path : T.Holds i.path.span
  place : T.Holds i.span

/-- All places in a compilation unit are spans of a file. -/
structure CompilationUnit.Placed (u : CompilationUnit) : Prop where
  package : ∀ p ∈ u.package, T.Holds p.path.span ∧ T.Holds p.span
  imports : ∀ i ∈ u.imports, i.Placed T
  types : ∀ d ∈ u.types, d.Placed T
  place : T.Holds u.span

end Placed

namespace Parser

variable {T : SourceText} {s : ParserState} {start : Span}

/-! ### Modifiers -/

theorem advanceBy_runs (n : Nat) : (advanceBy n).Runs T s fun _ u =>
    0 < n → s.current.kind ≠ .eof → u.remaining < s.remaining := by
  induction n generalizing s with
  | zero => exact .pure fun h => absurd h (Nat.lt_irrefl 0)
  | succ n ih =>
    rw [advanceBy]
    refine advance_runs.bind fun _ u _ hlt => ih.mono fun _ v hv _ _ hk => ?_
    exact Nat.lt_of_le_of_lt hv.remaining_le (hlt hk)

/-- A modifier has a token, and there is one. -/
theorem currentModifier?_tokens {m : Modifier} {n : Nat} (h : currentModifier? s = some (m, n)) :
    0 < n ∧ s.current.kind ≠ .eof := by
  unfold currentModifier? at h
  split at h
  · rename_i m' hm
    cases h
    refine ⟨by decide, fun heof => ?_⟩
    rw [heof] at hm
    cases hm
  · split at h
    · cases h
    · rename_i hident
      have hident : s.current.kind = .identifier := Decidable.not_not.1 hident
      refine ⟨?_, by rw [hident]; decide⟩
      split at h
      · cases h
        decide
      · split at h
        · cases h
          decide
        · cases h

theorem modifiersAfter_runs (fuel : Nat) (found : List Modifier) (s : ParserState)
    (hf : s.remaining ≤ fuel) : (modifiersAfter fuel found).Runs T s fun _ _ => True := by
  induction fuel generalizing found s with
  | zero => exact .cutOff hf
  | succ fuel ih =>
    rw [modifiersAfter, runs_isAtAnnotation]
    split
    · rename_i h
      have hat : s.current.kind = .atSign := of_decide_eq_true (Bool.and_eq_true_iff.1 h).1
      refine skipAnnotation_runs.bind fun _ u _ hlt => ih found u ?_
      have := hlt hat
      omega
    · rw [runs_state]
      split
      · exact .pure trivial
      · rename_i m n hm
        obtain ⟨hn, heof⟩ := currentModifier?_tokens hm
        refine (advanceBy_runs n).bind fun _ u _ hlt => ih _ u ?_
        have := hlt hn heof
        omega

theorem modifiers_runs : modifiers.Runs T s fun _ _ => True := by
  rw [modifiers, runs_state]
  exact modifiersAfter_runs _ _ s (Nat.le_refl _)

/-! ### Recovery and skipped code -/

theorem recoverMember_runs (fuel : Nat) (s : ParserState) (hf : s.remaining ≤ fuel) :
    (recoverMember fuel).Runs T s fun _ _ => True := by
  induction fuel generalizing s with
  | zero => exact .cutOff hf
  | succ fuel ih =>
    rw [recoverMember, runs_kind]
    split
    · exact .pure trivial
    · exact .pure trivial
    · exact advance_runs.mono fun _ _ _ _ => trivial
    · exact skipBraces_runs.mono fun _ _ _ _ => trivial
    · rename_i hopen
      refine skipParens_runs.bind fun _ u _ hlt => ih u ?_
      have := hlt hopen
      omega
    · rename_i heof _ _ _ _
      refine advance_runs.bind fun _ u _ hlt => ih u ?_
      have := hlt heof
      omega

theorem skipExpression_runs (fuel depth : Nat) (s : ParserState) (hf : s.remaining ≤ fuel) :
    (skipExpression fuel depth).Runs T s fun _ _ => True := by
  induction fuel generalizing depth s with
  | zero => exact .cutOff hf
  | succ fuel ih =>
    have hnext : ∀ depth, s.current.kind ≠ .eof → (advance >>= fun _ =>
        skipExpression fuel depth).Runs T s fun _ _ => True := fun depth heof =>
      advance_runs.bind fun _ u _ hlt => ih depth u (by have := hlt heof; omega)
    unfold skipExpression
    rw [runs_kind]
    split
    · exact .pure trivial
    · exact hnext _ (by simp [*])
    · exact hnext _ (by simp [*])
    · exact hnext _ (by simp [*])
    -- a closing bracket ends the expression, unless it closes one inside
    iterate 3
      cases depth with
      | zero => exact .pure trivial
      | succ depth => exact hnext depth (by simp [*])
    · split
      · exact .pure trivial
      · exact hnext _ (by simp [*])
    · rw [runs_state]
      split
      · exact .pure trivial
      · exact hnext _ (by simp [*])
    · rename_i heof _ _ _ _ _ _ _ _
      exact hnext _ heof

theorem skipMethod_runs (fuel : Nat) (s : ParserState) (hf : s.remaining ≤ fuel) :
    (skipMethod fuel).Runs T s fun _ _ => True := by
  induction fuel generalizing s with
  | zero => exact .cutOff hf
  | succ fuel ih =>
    rw [skipMethod, runs_kind]
    split
    · rename_i hopen
      refine skipParens_runs.bind fun _ u _ hlt => ih u ?_
      have := hlt hopen
      omega
    · exact skipBraces_runs.mono fun _ _ _ _ => trivial
    · exact advance_runs.mono fun _ _ _ _ => trivial
    · refine advance_runs.after fun _ u _ => ?_
      rw [runs_state]
      refine (skipExpression_runs _ _ u (Nat.le_refl _)).after fun _ v _ => ?_
      exact (expect_runs (by decide)).mono fun _ _ _ _ => trivial
    · exact expected_runs.mono fun _ _ _ _ => trivial
    · exact expected_runs.mono fun _ _ _ _ => trivial
    · rename_i heof _
      refine advance_runs.bind fun _ u _ hlt => ih u ?_
      have := hlt heof
      omega

/-! ### Fields -/

theorem dimensions_runs (fuel : Nat) (s : ParserState) (hf : s.remaining ≤ fuel) :
    (dimensions fuel).Runs T s fun _ _ => True := by
  induction fuel generalizing s with
  | zero => exact .cutOff hf
  | succ fuel ih =>
    rw [dimensions, runs_isAtDimension]
    split
    · rename_i h
      have hopen : s.current.kind = .leftBracket := of_decide_eq_true (Bool.and_eq_true_iff.1 h).1
      refine advance_runs.bind fun _ u _ hlt => advance_runs.after fun _ v hv => ?_
      have := hlt (by rw [hopen]; decide)
      have := hv.remaining_le
      exact (ih v (by omega)).after fun _ _ _ => .pure trivial
    · exact .pure trivial

theorem skipInitializer_runs : skipInitializer.Runs T s fun _ _ => True := by
  rw [skipInitializer]
  refine (eat_runs (by decide)).after fun given u _ => ?_
  split
  · rw [runs_state]
    exact skipExpression_runs _ _ u (Nat.le_refl _)
  · exact .pure trivial

theorem declarators_runs (fuel : Nat) (s : ParserState) (hf : s.remaining ≤ fuel) :
    (declarators fuel).Runs T s fun vars _ => ∀ v ∈ vars, T.Holds v.span := by
  induction fuel generalizing s with
  | zero => exact .cutOff hf
  | succ fuel ih =>
    rw [declarators]
    refine currentSpan_runs fun hplace => identifier_runs.after fun name u hu => ?_
    rw [runs_state]
    refine (dimensions_runs _ u (Nat.le_refl _)).after fun dims v hv => ?_
    refine skipInitializer_runs.after fun _ w hw => ?_
    refine (eat_runs (by decide)).bind fun more x _ heat => ?_
    split
    · rename_i hmore
      have := heat.1 hmore
      have := ((hu.trans hv).trans hw).remaining_le
      refine (ih x (by omega)).bind fun rest _ _ hrest => .pure ?_
      exact List.forall_mem_cons.2 ⟨hplace, hrest⟩
    · exact .pure (List.forall_mem_singleton.2 hplace)

theorem endField_runs : endField.Runs T s fun _ _ => True := by
  rw [endField]
  refine (eat_runs (by decide)).after fun ended u _ => ?_
  split
  · exact .pure trivial
  · refine expected_runs.after fun _ v _ => ?_
    rw [runs_state]
    exact recoverMember_runs _ v (Nat.le_refl _)

theorem field_runs {ms : List Modifier} {type : TypeRef} (hstart : T.Holds start)
    (htype : type.Placed T) : (field start ms type).Runs T s fun f _ => f.Placed T := by
  rw [field, runs_state]
  refine (declarators_runs _ s (Nat.le_succ _)).bind fun vars u _ hvars => ?_
  refine endField_runs.after fun _ v _ => (spanFrom_runs hstart).bind fun _ _ _ hplace => ?_
  exact .pure ⟨htype, hvars, hplace⟩

theorem componentType_runs (hstart : T.Holds start) :
    (componentType start).Runs T s fun r _ => r.Placed T := by
  rw [componentType]
  refine type_runs.bind fun plain u _ hplain => (eat_runs (by decide)).after fun many v _ => ?_
  split
  · exact (spanFrom_runs hstart).bind fun _ _ _ hplace => .pure (.array hplace hplain)
  · exact .pure hplain

theorem component_runs : component.Runs T s fun f _ => f.Placed T := by
  rw [component]
  refine currentSpan_runs fun hstart => skipAnnotations_runs.after fun _ u _ => ?_
  refine (componentType_runs hstart).bind fun type v _ htype => currentSpan_runs fun hname => ?_
  refine identifier_runs.after fun name w _ => (spanFrom_runs hstart).bind fun _ _ _ hplace => ?_
  exact .pure ⟨htype, List.forall_mem_singleton.2 hname, hplace⟩

theorem componentList_runs (fuel : Nat) (s : ParserState) (hf : s.remaining ≤ fuel) :
    (componentList fuel).Runs T s fun fs _ => ∀ f ∈ fs, f.Placed T := by
  induction fuel generalizing s with
  | zero => exact .cutOff hf
  | succ fuel ih =>
    rw [componentList, runs_isAt, runs_isAt]
    split
    · exact .pure (List.forall_mem_nil _)
    · refine component_runs.bind fun first u hu hfirst =>
        more_runs (by decide) hfirst fun v hless => ih v ?_
      have hle := hu.remaining_le
      omega

theorem components_runs : components.Runs T s fun fs _ => ∀ f ∈ fs, f.Placed T := by
  rw [components]
  refine (expect_runs (by decide)).after fun _ u _ => ?_
  rw [runs_state]
  refine (componentList_runs _ u (Nat.le_refl _)).bind fun fs v _ hfs => ?_
  exact (expect_runs (by decide)).after fun _ _ _ => .pure hfs

/-! ### Headers -/

theorem declKeyword_runs : declKeyword.Runs T s fun _ u =>
    s.current.kind ≠ .eof → u.remaining < s.remaining := by
  rw [declKeyword, runs_kind]
  by_cases hat : s.current.kind = .atSign
  · dsimp only
    rw [if_pos hat]
    refine advance_runs.bind fun _ u _ hlt => advance_runs.after fun _ v hv => .pure fun h => ?_
    exact Nat.lt_of_le_of_lt hv.remaining_le (hlt h)
  · dsimp only
    rw [if_neg hat]
    exact advance_runs.bind fun _ u _ hlt => .pure hlt

theorem extendsClause_runs (k : DeclKind) :
    (extendsClause k).Runs T s fun types _ => ∀ r ∈ types, r.Placed T := by
  unfold extendsClause
  refine (eat_runs (by decide)).after fun given u _ => ?_
  split
  · split
    · exact type_runs.bind fun r _ _ hr => .pure (List.forall_mem_singleton.2 hr)
    · exact typeList_runs
    · refine error_runs.after fun _ v _ => typeList_runs.after fun _ _ _ => ?_
      exact .pure (List.forall_mem_nil _)
  · exact .pure (List.forall_mem_nil _)

theorem checkImplements_runs (k : DeclKind) : (checkImplements k).Runs T s fun _ _ => True := by
  rw [checkImplements]
  split
  · exact error_runs.mono fun _ _ _ _ => trivial
  · exact .pure trivial

theorem implementsClause_runs (k : DeclKind) :
    (implementsClause k).Runs T s fun types _ => ∀ r ∈ types, r.Placed T := by
  rw [implementsClause]
  refine (eat_runs (by decide)).after fun given u _ => ?_
  split
  · refine typeList_runs.bind fun types v _ htypes => ?_
    exact (checkImplements_runs k).after fun _ _ _ => .pure htypes
  · exact .pure (List.forall_mem_nil _)

theorem permitsClause_runs : permitsClause.Runs T s fun _ _ => True := by
  rw [permitsClause]
  have hword : (isAtWord "permits").Runs T s fun _ _ => True := by
    rw [isAtWord, runs_state]
    exact .pure trivial
  refine hword.after fun given u _ => ?_
  split
  · exact advance_runs.after fun _ v _ => typeList_runs.after fun _ _ _ => .pure trivial
  · exact .pure trivial

/-! ### Bodies -/

theorem fieldOrMethod_runs {ms : List Modifier} (hstart : T.Holds start) :
    (fieldOrMethod start ms).Runs T s fun m _ => ∀ x ∈ m, x.Placed T := by
  rw [fieldOrMethod]
  refine type_runs.bind fun t u _ ht => ?_
  split
  · rw [runs_state]
    exact (recoverMember_runs _ u (Nat.le_refl _)).after fun _ _ _ =>
      .pure fun x hx => absurd hx (Option.not_mem_none x)
  · rw [runs_isAt, runs_peek]
    split
    · rw [runs_state]
      exact (skipMethod_runs _ u (Nat.le_refl _)).after fun _ _ _ =>
        .pure fun x hx => absurd hx (Option.not_mem_none x)
    · refine (field_runs hstart ht).bind fun f _ _ hf => .pure fun x hx => ?_
      obtain rfl := Option.some.inj hx
      exact .field hf

theorem plainMember_runs {ms : List Modifier} (hstart : T.Holds start) :
    (plainMember start ms).Runs T s fun m _ => ∀ x ∈ m, x.Placed T := by
  have none_placed : ∀ x ∈ (none : Option Member), x.Placed T := fun x hx =>
    absurd hx (Option.not_mem_none x)
  rw [plainMember, runs_state]
  split
  · refine (skipBalanced_runs (by decide)).after fun _ u _ => ?_
    rw [runs_state]
    exact (skipMethod_runs _ u (Nat.le_refl _)).after fun _ _ _ => .pure none_placed
  · split
    · exact (skipMethod_runs _ s (Nat.le_refl _)).after fun _ _ _ => .pure none_placed
    · split
      · exact advance_runs.after fun _ u _ => skipBraces_runs.after fun _ _ _ => .pure none_placed
      · exact fieldOrMethod_runs hstart

/-- A token is consumed where a member has consumed none. -/
theorem moveOn_runs {before : ParserState} (hl : before.Leads s)
    (heof : before.current.kind ≠ .eof) :
    (moveOn before.remaining).Runs T s fun _ u => u.remaining < before.remaining := by
  rw [moveOn, runs_state]
  split
  · rename_i hsame
    have htokens := hl.current_eq (Nat.le_of_eq hsame.symm)
    refine advance_runs.mono fun _ u _ hlt => ?_
    rw [current_eq htokens] at hlt
    exact hsame ▸ hlt heof
  · rename_i hdiff
    have := hl.remaining_le
    exact .pure (by omega)

theorem afterConstants_runs {others : Parser (List Member)}
    (h : ∀ u, s.Leads u → others.Runs T u fun ms _ => ∀ m ∈ ms, m.Placed T) :
    (afterConstants others).Runs T s fun ms _ => ∀ m ∈ ms, m.Placed T := by
  rw [afterConstants]
  refine (eat_runs (by decide)).after fun found u hu => ?_
  split
  · exact h u hu
  · rw [runs_isAt]
    split
    · exact .pure (List.forall_mem_nil _)
    · exact expected_runs.after fun _ v hv => h v (hu.trans hv)

/-- Where a declaration starts there is a token. -/
theorem current_of_startsDeclaration (h : startsDeclaration s = true) : s.current.kind ≠ .eof := by
  intro heof
  rw [startsDeclaration, heof] at h
  cases h

mutual

theorem declWithin_runs {ms : List Modifier} {start : Span} {fuel : Nat} {s : ParserState}
    (hstart : T.Holds start) (hk : s.current.kind ≠ .eof) (hf : 5 * s.remaining ≤ fuel) :
    (declWithin ms start fuel).Runs T s fun d u => d.Placed T ∧ u.remaining < s.remaining := by
  have hpos := remaining_pos hk
  match fuel, (show 5 ≤ fuel by omega) with
  | fuel + 1, _ =>
    rw [declWithin]
    refine declKeyword_runs.bind fun kind a ha hlt => currentSpan_runs fun hname => ?_
    have hlt := hlt hk
    refine identifier_runs.after fun name b hb => optionalTypeParams_runs.bind fun params c hc hparams => ?_
    refine Runs.join (P := fun fs _ => ∀ f ∈ fs, FieldDecl.Placed T f) ?_ ?_
    · split
      · exact components_runs
      · exact .pure (List.forall_mem_nil _)
    intro fields d hd hfields
    refine (extendsClause_runs kind).bind fun extended e he hextended => ?_
    refine (implementsClause_runs kind).bind fun implemented f hf' himplemented => ?_
    refine permitsClause_runs.after fun _ g hg => ?_
    -- The keyword has been read, so the steps are enough for the body.
    have hle := (((hb.trans hc).trans hd).trans (he.trans (hf'.trans hg))).remaining_le
    refine Runs.join (P := fun body _ => ∀ m ∈ body, m.Placed T) ?_ ?_
    · split
      · exact enumBody_runs (by omega)
      · exact classBody_runs (by omega)
    intro body h hh hbody
    refine (spanFrom_runs hstart).bind fun span i hi hplace => .pure ⟨.mk ?_ fun m hm => ?_, ?_⟩
    · exact ⟨hname, hparams, hextended, himplemented, hplace⟩
    · rcases List.mem_append.1 hm with hm | hm
      · obtain ⟨x, hx, rfl⟩ := List.mem_map.1 hm
        exact .field (hfields x hx)
      · exact hbody m hm
    · have := (hh.trans hi).remaining_le
      omega

theorem classBody_runs {fuel : Nat} {s : ParserState} (hf : 5 * s.remaining + 3 ≤ fuel) :
    (classBody fuel).Runs T s fun ms _ => ∀ m ∈ ms, m.Placed T := by
  match fuel, hf with
  | fuel + 1, hf =>
    rw [classBody]
    refine (expect_runs (by decide)).after fun _ u hu => ?_
    have := hu.remaining_le
    refine (members_runs (by omega)).bind fun found v _ hfound => ?_
    exact (expect_runs (by decide)).after fun _ _ _ => .pure hfound

theorem members_runs {fuel : Nat} {s : ParserState} (hf : 5 * s.remaining + 2 ≤ fuel) :
    (members fuel).Runs T s fun ms _ => ∀ m ∈ ms, m.Placed T := by
  match fuel, hf with
  | fuel + 1, hf =>
    rw [members, runs_isAt, runs_isAt]
    split
    · exact .pure (List.forall_mem_nil _)
    · rename_i hgoes
      have heof : s.current.kind ≠ .eof := fun heof => hgoes (by rw [heof]; rfl)
      rw [runs_state]
      refine (member_runs (by omega)).bind fun found u hu hfound => ?_
      refine (moveOn_runs hu heof).bind fun _ v _ hlt => ?_
      refine (members_runs (by omega)).bind fun rest _ _ hrest => .pure fun m hm => ?_
      rcases List.mem_append.1 hm with hm | hm
      · exact hfound m (Option.mem_toList.1 hm)
      · exact hrest m hm

theorem member_runs {fuel : Nat} {s : ParserState} (hf : 5 * s.remaining + 1 ≤ fuel) :
    (member fuel).Runs T s fun m _ => ∀ x ∈ m, x.Placed T := by
  have none_placed : ∀ x ∈ (none : Option Member), x.Placed T := fun x hx =>
    absurd hx (Option.not_mem_none x)
  match fuel, hf with
  | fuel + 1, hf =>
    rw [member, runs_state]
    split
    · exact advance_runs.after fun _ _ _ => .pure none_placed
    · split
      · exact skipBraces_runs.after fun _ _ _ => .pure none_placed
      · split
        · exact advance_runs.after fun _ u _ => skipBraces_runs.after fun _ _ _ => .pure none_placed
        · refine currentSpan_runs fun hstart => modifiers_runs.after fun ms u hu => ?_
          have hle := hu.remaining_le
          rw [runs_state]
          split
          · rename_i hstarts
            refine (declWithin_runs hstart (current_of_startsDeclaration hstarts) (by omega)).bind
              fun d v _ hdecl => .pure fun x hx => ?_
            obtain rfl := Option.some.inj hx
            exact .type hdecl.1
          · exact plainMember_runs hstart

theorem enumBody_runs {fuel : Nat} {s : ParserState} (hf : 5 * s.remaining + 3 ≤ fuel) :
    (enumBody fuel).Runs T s fun ms _ => ∀ m ∈ ms, m.Placed T := by
  match fuel, hf with
  | fuel + 1, hf =>
    rw [enumBody]
    refine (expect_runs (by decide)).after fun _ u hu => ?_
    have := hu.remaining_le
    refine (enumConstants_runs (by omega)).bind fun constants v hv hconstants => ?_
    have := hv.remaining_le
    refine (afterConstants_runs fun w hw => members_runs ?_).bind fun others _ _ hothers => ?_
    · have := hw.remaining_le
      omega
    refine (expect_runs (by decide)).after fun _ _ _ => .pure fun m hm => ?_
    rcases List.mem_append.1 hm with hm | hm
    · exact hconstants m hm
    · exact hothers m hm

theorem enumConstants_runs {fuel : Nat} {s : ParserState} (hf : 5 * s.remaining + 1 ≤ fuel) :
    (enumConstants fuel).Runs T s fun ms _ => ∀ m ∈ ms, m.Placed T := by
  match fuel, hf with
  | fuel + 1, hf =>
    rw [enumConstants]
    refine skipAnnotations_runs.after fun _ u hu => ?_
    have := hu.remaining_le
    rw [runs_isAt]
    split
    · rename_i hident
      refine (enumConstant_runs (of_decide_eq_true hident) (by omega)).bind fun constant v hv hc => ?_
      refine (eat_runs (by decide)).bind fun more w _ heat => ?_
      have := hv.remaining_le
      split
      · rename_i hmore
        have := heat.1 hmore
        refine (enumConstants_runs (by omega)).bind fun rest _ _ hrest => .pure ?_
        exact List.forall_mem_cons.2 ⟨hc, hrest⟩
      · exact .pure (List.forall_mem_singleton.2 hc)
    · exact .pure (List.forall_mem_nil _)

theorem enumConstant_runs {fuel : Nat} {s : ParserState} (hk : s.current.kind = .identifier)
    (hf : 5 * s.remaining ≤ fuel) : (enumConstant fuel).Runs T s fun m _ => m.Placed T := by
  have hpos := remaining_pos (s := s) (by rw [hk]; decide)
  match fuel, (show 5 ≤ fuel by omega) with
  | fuel + 1, _ =>
    rw [enumConstant]
    refine currentSpan_runs fun hstart => identifier_runs.bind fun name u _ hlt => ?_
    have := hlt hk
    refine skipArguments_runs.after fun _ v hv => currentSpan_runs fun hbody => ?_
    have := hv.remaining_le
    rw [runs_isAt]
    split
    · refine (classBody_runs (by omega)).bind fun found w _ hfound => ?_
      refine (spanFrom_runs hbody).bind fun span x _ hspan => ?_
      refine (spanFrom_runs hstart).bind fun place y _ hplace => ?_
      refine .pure (.constant hplace fun d hd => ?_)
      obtain rfl := Option.some.inj hd
      refine .mk ⟨hbody, ?_, ?_, ?_, hspan⟩ hfound
      · exact List.forall_mem_nil _
      · exact List.forall_mem_nil _
      · exact List.forall_mem_nil _
    · refine (spanFrom_runs hstart).bind fun place y _ hplace => ?_
      exact .pure (.constant hplace fun d hd => absurd hd (Option.not_mem_none d))

end

theorem typeDecl_runs {ms : List Modifier} (hstart : T.Holds start) (hk : s.current.kind ≠ .eof) :
    (typeDecl ms start).Runs T s fun d u => d.Placed T ∧ u.remaining < s.remaining := by
  rw [typeDecl, runs_steps]
  exact declWithin_runs hstart hk (by omega)

/-! ### Files -/

theorem packageDecl_runs :
    packageDecl.Runs T s fun p _ => T.Holds p.path.span ∧ T.Holds p.span := by
  rw [packageDecl]
  refine currentSpan_runs fun hstart => (expect_runs (by decide)).after fun _ u _ => ?_
  refine path_runs.bind fun p v _ hpath => (expect_runs (by decide)).after fun _ w _ => ?_
  exact (spanFrom_runs hstart).bind fun _ _ _ hplace => .pure ⟨hpath.1, hplace⟩

theorem packageHeader_runs :
    packageHeader.Runs T s fun p _ => ∀ x ∈ p, T.Holds x.path.span ∧ T.Holds x.span := by
  rw [packageHeader]
  refine skipAnnotations_runs.after fun _ u _ => ?_
  rw [runs_isAt]
  split
  · refine packageDecl_runs.bind fun p _ _ hp => .pure fun x hx => ?_
    obtain rfl := Option.some.inj hx
    exact hp
  · exact .pure fun x hx => absurd hx (Option.not_mem_none x)

/-- Going back to the start of a parser without an answer is going back to tokens of the file. -/
theorem orBack_runs {α : Type} {p : Parser (Option α)} {P : α → Prop}
    (h : p.Runs T s fun a _ => ∀ x ∈ a, P x) : (orBack p).Runs T s fun a _ => ∀ x ∈ a, P x := by
  intro hs
  have h := h hs
  unfold Gives orBack at *
  dsimp only
  split
  · rename_i heq
    rwa [heq] at h
  · rename_i heq
    rw [heq] at h
    obtain ⟨hu, hwalks, -⟩ := h
    exact ⟨⟨hu.whole, hs.ends, hs.tokens, hs.last, hu.errors, hs.ordered, hs.behind⟩,
      ⟨hwalks.interns, .of_eq rfl rfl⟩, fun x hx => absurd hx (Option.not_mem_none x)⟩

theorem importSegments_runs (fuel : Nat) (s : ParserState) (hf : s.remaining ≤ fuel) :
    (importSegments fuel).Runs T s fun _ _ => True := by
  induction fuel generalizing s with
  | zero => exact .cutOff hf
  | succ fuel ih =>
    rw [importSegments, runs_isAt]
    split
    · rename_i hdot
      rw [runs_state]
      split
      · refine advance_runs.bind fun _ u _ hlt => identifier_runs.after fun n v hv => ?_
        have := hlt (by rw [of_decide_eq_true hdot]; decide)
        have := hv.remaining_le
        exact (ih v (by omega)).after fun _ _ _ => .pure trivial
      · split
        · exact advance_runs.after fun _ _ _ => advance_runs.after fun _ _ _ => .pure trivial
        · exact advance_runs.after fun _ _ _ => expected_runs.after fun _ _ _ => .pure trivial
    · exact .pure trivial

theorem importDecl_runs : importDecl.Runs T s fun i u => i.Placed T ∧
    (s.current.kind = .kwImport → u.remaining < s.remaining) := by
  rw [importDecl]
  refine currentSpan_runs fun hstart => (expect_runs (by decide)).bind fun _ a _ hlt => ?_
  refine (eat_runs (by decide)).after fun isStatic b hb => currentSpan_runs fun hpath => ?_
  refine identifier_runs.after fun first c hc => ?_
  rw [runs_state]
  refine (importSegments_runs _ c (Nat.le_refl _)).after fun r d hd => ?_
  refine (spanFrom_runs hpath).bind fun span e he hspan => ?_
  refine (expect_runs (by decide)).after fun _ f hf => ?_
  refine (spanFrom_runs hstart).bind fun place g hg hplace => .pure ⟨⟨hspan, hplace⟩, fun h => ?_⟩
  have := ((((hb.trans hc).trans hd).trans he).trans (hf.trans hg)).remaining_le
  have := hlt h
  omega

theorem imports_runs (fuel : Nat) (s : ParserState) (hf : s.remaining ≤ fuel) :
    (imports fuel).Runs T s fun is _ => ∀ i ∈ is, i.Placed T := by
  induction fuel generalizing s with
  | zero => exact .cutOff hf
  | succ fuel ih =>
    rw [imports, runs_isAt]
    split
    · rename_i hat
      refine importDecl_runs.bind fun first u _ himport => ?_
      have := himport.2 (of_decide_eq_true hat)
      refine (ih u (by omega)).bind fun rest _ _ hrest => .pure ?_
      exact List.forall_mem_cons.2 ⟨himport.1, hrest⟩
    · exact .pure (List.forall_mem_nil _)

theorem recoverDeclaration_runs (fuel : Nat) (s : ParserState) (hf : s.remaining ≤ fuel) :
    (recoverDeclaration fuel).Runs T s fun _ _ => True := by
  induction fuel generalizing s with
  | zero => exact .cutOff hf
  | succ fuel ih =>
    rw [recoverDeclaration, runs_isAt]
    split
    · exact .pure trivial
    · rename_i heof
      have heof : s.current.kind ≠ .eof := fun h => heof (decide_eq_true h)
      refine (eat_runs (by decide)).bind fun eaten u _ heat => ?_
      cases eaten with
      | true => exact .pure trivial
      | false =>
        obtain ⟨rfl, -⟩ := heat.2 rfl
        rw [if_neg Bool.false_ne_true, runs_state]
        split
        · exact .pure trivial
        · refine advance_runs.bind fun _ v _ hlt => ih v ?_
          have := hlt heof
          omega

theorem topLevel_runs (fuel : Nat) (s : ParserState) (hf : s.remaining ≤ fuel) :
    (topLevel fuel).Runs T s fun ds _ => ∀ d ∈ ds, d.Placed T := by
  induction fuel generalizing s with
  | zero => exact .cutOff hf
  | succ fuel ih =>
    rw [topLevel, runs_isAt]
    split
    · exact .pure (List.forall_mem_nil _)
    · rename_i heof
      have heof : s.current.kind ≠ .eof := fun h => heof (decide_eq_true h)
      refine (eat_runs (by decide)).bind fun eaten u _ heat => ?_
      cases eaten with
      | true =>
        have := heat.1 rfl
        exact ih u (by omega)
      | false =>
        obtain ⟨rfl, -⟩ := heat.2 rfl
        rw [if_neg Bool.false_ne_true]
        refine currentSpan_runs fun hstart => modifiers_runs.after fun ms v hv => ?_
        have hle := hv.remaining_le
        rw [runs_state]
        split
        · rename_i hstarts
          refine (typeDecl_runs hstart (current_of_startsDeclaration hstarts)).bind
            fun d w _ hdecl => ?_
          refine (ih w (by omega)).bind fun rest _ _ hrest => .pure ?_
          exact List.forall_mem_cons.2 ⟨hdecl.1, hrest⟩
        · refine expected_runs.bind fun _ w _ hw => advance_runs.bind fun _ x hx hlt => ?_
          rw [runs_state]
          refine (recoverDeclaration_runs _ x (Nat.le_refl _)).after fun _ y hy => ih y ?_
          have := hy.remaining_le
          rw [current_eq hw, remaining_eq hw] at hlt
          -- where no modifier was consumed there is another token to consume
          by_cases hsame : u.remaining ≤ v.remaining
          · have hlt := hlt (by rw [current_eq (hv.current_eq hsame)]; exact heof)
            omega
          · have := hx.remaining_le
            have := remaining_eq hw
            omega

theorem unit_runs : unit.Runs T s fun u _ => u.Placed T := by
  rw [unit, runs_state]
  refine .sane fun hs => ?_
  refine (orBack_runs packageHeader_runs).bind fun package a _ hpackage => ?_
  rw [runs_state]
  refine (imports_runs _ a (Nat.le_refl _)).bind fun imported b _ himported => ?_
  rw [runs_state]
  refine (topLevel_runs _ b (Nat.le_refl _)).bind fun types c _ htypes => ?_
  exact currentSpan_runs fun hend => .pure ⟨hpackage, himported, htypes, hs.current.cover hend⟩

end Parser

/-! ### Texts of places, and rendering -/

section Rendering

variable {T : SourceText} {b : Batch}

end Rendering

/-! ### Every text -/

theorem ParserState.sane_start (file : Nat) (source : String) (names : NameTable) :
    (ParserState.start file source names).Sane ⟨file, source⟩ where
  whole := rfl
  ends := ⟨eofToken file source, List.mem_append_right _ (List.mem_singleton_self _), rfl⟩
  tokens t ht := (SourceText.lex_tokens (T := ⟨file, source⟩) t ht).1
  last p hp := absurd hp (Option.not_mem_none p)
  errors _ hd := absurd hd List.not_mem_nil
  ordered := (SourceText.lex_ordered file source).imp And.right
  behind p hp := absurd hp (Option.not_mem_none p)

theorem parse_eq (file : Nat) (source : String) (names : NameTable) :
    parse file source names =
      ((Parser.unit.run (.start file source names)).1,
        (Parser.unit.run (.start file source names)).2.names,
        (lex file source).2 ++ (Parser.unit.run (.start file source names)).2.errors.toList) := by
  rw [parse]

/-- **Files are numbered as they are read.** -/
theorem parseFrom_units {file : Nat} {names : NameTable} {files : List SourceFile} {k : Nat}
    {u : CompilationUnit} (h : (parseFrom file names files).1[k]? = some u) :
    ∃ source names, u = (parse (file + k) source names).1 := by
  induction files generalizing file names k with
  | nil => cases h
  | cons f rest ih =>
    rw [parseFrom] at h
    cases k with
    | zero => exact ⟨f.content, names, (Option.some.inj h).symm⟩
    | succ k =>
      obtain ⟨source, names, hu⟩ := ih h
      exact ⟨source, names, by rw [hu, Nat.add_assoc, Nat.add_comm 1 k]⟩

end JavaAbi
