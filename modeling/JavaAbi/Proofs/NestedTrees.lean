import JavaAbi.Proofs.NestedTypes

namespace JavaAbi

/-!
# Spans of trees

Each node of a tree starts where its parser started, its modifiers included, and ends with the token
that its parser consumed last. In a file that parses without diagnostics each parser consumed what it
requires, so the node covers its tokens and no others: its parts lie in it, one after the other.

* `Parser.field_lays`, `Parser.component_lays` — fields, and components of records;
* `Parser.declWithin_lays` — declarations, with one lemma for each parser they are built from;
* `Parser.unit_lays` — whole files;
* `parse_nested` — the spans of every file that parses without diagnostics nest.
-/

namespace ParserState

variable {T : SourceText} {s u : ParserState}

end ParserState

namespace Parser

open ParserState

variable {T : SourceText} {t : NameTable} {s s₀ : ParserState}

theorem declarators_lays (fuel : Nat) (s : ParserState) :
    (declarators fuel).Lays T t s fun vars u =>
      Row Variable.span (fun v => T.Reads t v.name v.span) (T.range s u) vars ∧
      u.remaining < s.remaining := by
  induction fuel generalizing s with
  | zero => exact .cutOff
  | succ fuel ih =>
    rw [declarators, lays_currentSpan]
    refine .ready fun hs => identifier_lays.bind fun name u hu hrun => ?_
    obtain ⟨hlt, hname⟩ := hrun
    rw [lays_state]
    refine (Lays.of_runs (dimensions_runs _ u (Nat.le_refl _))).after fun dims v hv => ?_
    refine (Lays.of_runs skipInitializer_runs).after fun _ w hw => ?_
    refine (eat_lays (by decide)).after fun more x hx => ?_
    have hplace := hu.contains_current hs hlt
    have htail := hv.trans (hw.trans hx)
    split
    · exact (ih x).bind fun rest y hy hrest => .pure
        ⟨hu.cons htail hy ⟨hname, hplace⟩ hrest.1, (htail.trans hy).remaining_lt hlt⟩
    · exact .pure ⟨htail.single ⟨hname, hplace⟩, htail.remaining_lt hlt⟩

/-- **The spans of a field nest**: its modifiers are in it, then its type and its variables follow. -/
theorem field_lays {ms : List Modifier} {type : TypeRef} (hs₀ : s₀.Ready T) (h : s₀.Goes T s)
    (htype : type.Nested) (hplace : (T.range s₀ s).Contains type.span) :
    (field s₀.current.span ms type).Lays T t s fun f u =>
      f.Nested (T.Reads t) ∧ (T.range s₀ u).Contains f.span := by
  rw [field, lays_state]
  refine (declarators_lays _ s).bind fun vars u hu hrun => ?_
  obtain ⟨hvars, hlt⟩ := hrun
  refine (Lays.of_runs endField_runs).after fun _ v hv => ?_
  have hgoes := h.trans (hu.trans hv)
  have hlt' : v.remaining < s₀.remaining :=
    Nat.lt_of_lt_of_le (hv.remaining_lt hlt) h.leads.remaining_le
  refine spanFrom_lays hs₀ hgoes hlt' (.pure ⟨⟨htype, ?_, hvars.fine⟩, hgoes.contains hs₀ hlt'⟩)
  exact (h.lines (.refl h.ready) hu (.singleton hplace) hvars.lines).widen (hv.inside_right s₀)

theorem componentType_lays (hs₀ : s₀.Ready T) (h : s₀.Goes T s) :
    (componentType s₀.current.span).Lays T t s fun r u =>
      r.Nested ∧ (T.range s₀ u).Contains r.span := by
  rw [componentType]
  refine type_lays.bind fun plain u hu hrun => ?_
  obtain ⟨hplain, hplace⟩ := hrun
  refine (eat_lays (by decide)).bind fun many v hv heat => ?_
  have hplace := hplace.widen (h.inside hv)
  have hgoes := h.trans (hu.trans hv)
  split
  · have hlt : v.remaining < s₀.remaining :=
      Nat.lt_of_lt_of_le (heat.1 ‹_›) (h.trans hu).leads.remaining_le
    exact spanFrom_lays hs₀ hgoes hlt (.pure ⟨.array hplace hplain, hgoes.contains hs₀ hlt⟩)
  · exact .pure ⟨hplain, hplace⟩

theorem component_lays : component.Lays T t s fun f u =>
    f.Nested (T.Reads t) ∧ (T.range s u).Contains f.span := by
  rw [component, lays_currentSpan]
  refine .ready fun hs => (Lays.of_runs skipAnnotations_runs).after fun _ u hu => ?_
  refine (componentType_lays hs hu).bind fun type v hv hrun => ?_
  obtain ⟨htype, hplace⟩ := hrun
  rw [lays_currentSpan]
  refine identifier_lays.bind fun name w hw hrun => ?_
  obtain ⟨hlt, hname⟩ := hrun
  have hgoes := (hu.trans hv).trans hw
  have hlt' : w.remaining < s.remaining :=
    Nat.lt_of_lt_of_le hlt (hu.trans hv).leads.remaining_le
  refine spanFrom_lays hs hgoes hlt' (.pure ⟨⟨htype, ?_, ?_⟩, hgoes.contains hs hlt'⟩)
  · exact (hu.trans hv).lines (.refl hv.ready) hw (.singleton hplace)
      (.singleton (hw.contains_current hv.ready hlt))
  · exact List.forall_mem_singleton.2 hname

theorem componentList_lays (fuel : Nat) (s : ParserState) :
    (componentList fuel).Lays T t s fun fs u =>
      Row FieldDecl.span (FieldDecl.Nested (T.Reads t)) (T.range s u) fs := by
  induction fuel generalizing s with
  | zero => exact .cutOff
  | succ fuel ih =>
    rw [componentList, lays_isAt, lays_isAt]
    split
    · exact .pure (.nil _)
    · exact separated_lays (by decide) component_lays ih

theorem components_lays : components.Lays T t s fun fs u =>
    Row FieldDecl.span (FieldDecl.Nested (T.Reads t)) (T.range s u) fs := by
  rw [components]
  refine (expect_lays (by decide)).after fun _ u hu => ?_
  rw [lays_state]
  refine (componentList_lays _ u).bind fun fs v hv hfs => ?_
  exact (expect_lays (by decide)).after fun _ w hw => .pure (hfs.widen (hu.inside hw))

/-! ### Headers -/

theorem extendsClause_lays (k : DeclKind) : (extendsClause k).Lays T t s fun types u =>
    TypeRef.AllNested (T.range s u) types := by
  unfold extendsClause
  refine (eat_lays (by decide)).after fun given u hu => ?_
  split
  · split
    · exact type_lays.bind fun r v _ hr =>
        .pure (.singleton hr.1 (hr.2.widen (hu.inside_left v)))
    · exact typeList_lays.mono fun types v _ htypes => htypes.widen (hu.inside_left v)
    · exact .after_report error_gives
  · exact .pure (.nil _)

theorem implementsClause_lays (k : DeclKind) : (implementsClause k).Lays T t s fun types u =>
    TypeRef.AllNested (T.range s u) types := by
  rw [implementsClause]
  refine (eat_lays (by decide)).after fun given u hu => ?_
  split
  · refine typeList_lays.bind fun types v hv htypes => ?_
    refine (Lays.of_runs (checkImplements_runs k)).after fun _ w hw => .pure ?_
    exact htypes.widen (hu.inside hw)
  · exact .pure (.nil _)

/-! ### Bodies -/

/-- What is no method is a field; its type was parsed. -/
theorem fieldOrMethod_lays {ms : List Modifier} (hs₀ : s₀.Ready T) (h : s₀.Goes T s) :
    (fieldOrMethod s₀.current.span ms).Lays T t s fun m u =>
      ∀ x ∈ m, x.Nested (T.Reads t) ∧ (T.range s₀ u).Contains x.span := by
  rw [fieldOrMethod]
  refine type_lays.bind fun r u hu hrun => ?_
  obtain ⟨hr, hplace⟩ := hrun
  -- a type that could not be parsed would have been reported
  rw [if_neg (by rw [hr.isError]; decide), lays_isAt, lays_peek]
  split
  · rw [lays_state]
    exact (Lays.of_runs (skipMethod_runs _ u (Nat.le_refl _))).after fun _ _ _ =>
      .pure fun x hx => absurd hx (Option.not_mem_none x)
  · refine (field_lays hs₀ (h.trans hu) hr (hplace.widen (h.inside_left u))).bind
      fun f v _ hf => .pure fun x hx => ?_
    obtain rfl := Option.some.inj hx
    exact ⟨.field hf.1, hf.2⟩

theorem plainMember_lays {ms : List Modifier} (hs₀ : s₀.Ready T) (h : s₀.Goes T s) :
    (plainMember s₀.current.span ms).Lays T t s fun m u =>
      ∀ x ∈ m, x.Nested (T.Reads t) ∧ (T.range s₀ u).Contains x.span := by
  have none_nested : ∀ {u : ParserState}, ∀ x ∈ (none : Option Member),
      x.Nested (T.Reads t) ∧ (T.range s₀ u).Contains x.span := fun x hx =>
    absurd hx (Option.not_mem_none x)
  rw [plainMember, lays_state]
  split
  · refine (Lays.of_runs (skipBalanced_runs (by decide))).after fun _ u _ => ?_
    rw [lays_state]
    exact (Lays.of_runs (skipMethod_runs _ u (Nat.le_refl _))).after fun _ _ _ =>
      .pure none_nested
  · split
    · exact (Lays.of_runs (skipMethod_runs _ s (Nat.le_refl _))).after fun _ _ _ =>
        .pure none_nested
    · split
      · exact advance_lays.after fun _ u _ => (Lays.of_runs skipBraces_runs).after fun _ _ _ =>
          .pure none_nested
      · exact fieldOrMethod_lays hs₀ h

theorem moveOn_lays (before : Nat) : (moveOn before).Lays T t s fun _ _ => True := by
  rw [moveOn, lays_state]
  split
  · exact advance_lays.mono fun _ _ _ _ => trivial
  · exact .pure trivial

theorem afterConstants_lays {others : Parser (List Member)}
    (h : ∀ u, others.Lays T t u fun ms v => Member.AllNested (T.Reads t) (T.range u v) ms) :
    (afterConstants others).Lays T t s fun ms u =>
      Member.AllNested (T.Reads t) (T.range s u) ms := by
  rw [afterConstants]
  refine (eat_lays (by decide)).after fun found u hu => ?_
  split
  · exact (h u).mono fun ms v _ hms => hms.widen (hu.inside_left v)
  · rw [lays_isAt]
    split
    · exact .pure (.nil _)
    · exact .after_report expected_gives

mutual

theorem declWithin_lays {ms : List Modifier} {fuel : Nat} {s₀ s : ParserState}
    (hs₀ : s₀.Ready T) (h : s₀.Goes T s) (hk : s.current.kind ≠ .eof) :
    (declWithin ms s₀.current.span fuel).Lays T t s fun d u =>
      d.Nested (T.Reads t) ∧ (T.range s₀ u).Contains d.head.span := by
  match fuel with
  | 0 => exact .cutOff
  | fuel + 1 =>
    rw [declWithin]
    refine (Lays.of_runs declKeyword_runs).bind fun kind a ha hlt => ?_
    have hlt := hlt hk
    rw [lays_currentSpan]
    refine identifier_lays.bind fun name b hb hrun => ?_
    obtain ⟨hname, hreads⟩ := hrun
    refine optionalTypeParams_lays.bind fun params c hc hparams => ?_
    refine Lays.join (P := fun fs d =>
      Row FieldDecl.span (FieldDecl.Nested (T.Reads t)) (T.range c d) fs) ?_ ?_
    · split
      · exact components_lays
      · exact .pure (.nil _)
    intro fields d hd hfields
    refine (extendsClause_lays kind).bind fun extended e he hextended => ?_
    refine (implementsClause_lays kind).bind fun implemented f hf himplemented => ?_
    refine (Lays.of_runs permitsClause_runs).after fun _ g hg => ?_
    refine Lays.join (P := fun body i => Member.AllNested (T.Reads t) (T.range g i) body) ?_ ?_
    · split
      · exact enumBody_lays
      · exact classBody_lays.mono fun _ _ _ hbody => hbody.1
    intro body i hi hbody
    -- the parts follow each other: name, parameters and supertypes; components and body
    have hheader := he.append (.refl he.ready) hf hextended himplemented
    have hafter := (hf.trans hg).trans hi
    have hstart := h.trans ha
    have hclauses := hb.lines (.refl hb.ready) (hc.trans (hd.trans (he.trans hf)))
      (.singleton (hb.contains_current ha.ready hname))
      (hc.lines hd (he.trans hf) hparams.lines hheader.lines)
    have hmembers := hd.append ((he.trans hf).trans hg) hi (.of_fields hfields) hbody
    have hgoes := hstart.trans (hb.trans (hc.trans (hd.trans (he.trans hafter))))
    have hlt' : i.remaining < s₀.remaining :=
      Nat.lt_of_lt_of_le ((hb.trans (hc.trans (hd.trans (he.trans hafter)))).remaining_lt hlt)
        h.leads.remaining_le
    refine spanFrom_lays hs₀ hgoes hlt' (.pure ⟨.mk ⟨?_, hparams.fine, hheader.fine, ?_⟩ ?_ ?_,
      hgoes.contains hs₀ hlt'⟩)
    · rintro n hn
      obtain rfl := Option.some.inj hn
      exact hreads
    · exact hclauses.widen (hstart.inside (hg.trans hi))
    · exact hmembers.lines.widen ((hstart.trans (hb.trans hc)).inside_left i)
    · exact hmembers.fine

theorem classBody_lays {fuel : Nat} {s : ParserState} : (classBody fuel).Lays T t s fun ms u =>
    Member.AllNested (T.Reads t) (T.range s u) ms ∧ u.remaining < s.remaining := by
  match fuel with
  | 0 => exact .cutOff
  | fuel + 1 =>
    rw [classBody]
    refine (expect_lays (by decide)).bind fun _ u hu hlt => ?_
    refine members_lays.bind fun found v hv hfound => ?_
    refine (expect_lays (by decide)).after fun _ w hw => .pure ?_
    exact ⟨hfound.widen (hu.inside hw), (hv.trans hw).remaining_lt hlt⟩

theorem members_lays {fuel : Nat} {s : ParserState} : (members fuel).Lays T t s fun ms u =>
    Member.AllNested (T.Reads t) (T.range s u) ms := by
  match fuel with
  | 0 => exact .cutOff
  | fuel + 1 =>
    rw [members, lays_isAt, lays_isAt]
    split
    · exact .pure (.nil _)
    · rw [lays_state]
      refine member_lays.bind fun found u hu hfound => (moveOn_lays _).after fun _ v hv => ?_
      exact members_lays.bind fun rest w hw hrest => .pure (hu.append hv hw (.option hfound) hrest)

theorem member_lays {fuel : Nat} {s : ParserState} : (member fuel).Lays T t s fun m u =>
    ∀ x ∈ m, x.Nested (T.Reads t) ∧ (T.range s u).Contains x.span := by
  -- What is stepped over is no member: a `;`, an initializer, and a static one.
  have none_nested : ∀ {u : ParserState}, ∀ x ∈ (none : Option Member),
      x.Nested (T.Reads t) ∧ (T.range s u).Contains x.span := fun x hx =>
    absurd hx (Option.not_mem_none x)
  match fuel with
  | 0 => exact .cutOff
  | fuel + 1 =>
    rw [member, lays_state]
    split
    · exact advance_lays.after fun _ _ _ => .pure none_nested
    · split
      · exact (Lays.of_runs skipBraces_runs).after fun _ _ _ => .pure none_nested
      · split
        · exact advance_lays.after fun _ u _ => (Lays.of_runs skipBraces_runs).after fun _ _ _ =>
            .pure none_nested
        · rw [lays_currentSpan]
          refine .ready fun hs => (Lays.of_runs modifiers_runs).after fun ms u hu => ?_
          rw [lays_state]
          split
          · rename_i hstarts
            refine (declWithin_lays hs hu (current_of_startsDeclaration hstarts)).bind
              fun d v _ hdecl => .pure fun x hx => ?_
            obtain rfl := Option.some.inj hx
            exact ⟨.type hdecl.1, hdecl.2⟩
          · exact plainMember_lays hs hu

theorem enumBody_lays {fuel : Nat} {s : ParserState} : (enumBody fuel).Lays T t s fun ms u =>
    Member.AllNested (T.Reads t) (T.range s u) ms := by
  match fuel with
  | 0 => exact .cutOff
  | fuel + 1 =>
    rw [enumBody]
    refine (expect_lays (by decide)).after fun _ u hu => ?_
    refine enumConstants_lays.bind fun constants v hv hconstants => ?_
    refine (afterConstants_lays fun _ => members_lays).bind fun others w hw hothers => ?_
    refine (expect_lays (by decide)).after fun _ x hx => .pure ?_
    exact (hv.append (.refl hv.ready) hw hconstants hothers).widen (hu.inside hx)

theorem enumConstants_lays {fuel : Nat} {s : ParserState} :
    (enumConstants fuel).Lays T t s fun ms u =>
      Member.AllNested (T.Reads t) (T.range s u) ms := by
  match fuel with
  | 0 => exact .cutOff
  | fuel + 1 =>
    rw [enumConstants]
    refine (Lays.of_runs skipAnnotations_runs).after fun _ u hu => ?_
    rw [lays_isAt]
    split
    · exact (separated_lays (by decide) enumConstant_lays fun _ => enumConstants_lays).mono
        fun _ v _ hms => hms.widen (hu.inside_left v)
    · exact .pure (.nil _)

theorem enumConstant_lays {fuel : Nat} {s : ParserState} : (enumConstant fuel).Lays T t s fun m u =>
    m.Nested (T.Reads t) ∧ (T.range s u).Contains m.span := by
  match fuel with
  | 0 => exact .cutOff
  | fuel + 1 =>
    rw [enumConstant, lays_currentSpan]
    refine .ready fun hs => identifier_lays.bind fun name u hu hrun => ?_
    obtain ⟨hlt, -⟩ := hrun
    refine (Lays.of_runs skipArguments_runs).after fun _ v hv => ?_
    rw [lays_currentSpan, lays_isAt]
    split
    · refine classBody_lays.bind fun found w hw hrun => ?_
      obtain ⟨hfound, hbody⟩ := hrun
      have hgoes := hu.trans (hv.trans hw)
      have hlt' := (hv.trans hw).remaining_lt hlt
      -- the body has no name; what stands for it is the brace that opens it
      refine spanFrom_lays hv.ready hw hbody (spanFrom_lays hs hgoes hlt' (.pure ⟨.withBody ?_
        (.mk ⟨?_, ?_, ?_, ?_⟩ hfound.lines hfound.fine), hgoes.contains hs hlt'⟩))
      · exact (hw.contains hv.ready hbody).widen ((hu.trans hv).inside_left w)
      · exact fun n hn => absurd hn (Option.not_mem_none n)
      · exact List.forall_mem_nil _
      · exact List.forall_mem_nil _
      · exact .singleton (hw.contains_current hv.ready hbody)
    · have hlt' := hv.remaining_lt hlt
      exact spanFrom_lays hs (hu.trans hv) hlt' (.pure ⟨.plain, (hu.trans hv).contains hs hlt'⟩)

end

end Parser

end JavaAbi
