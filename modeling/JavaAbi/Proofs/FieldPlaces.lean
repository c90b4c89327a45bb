import Mathlib.Data.List.Nodup
import JavaAbi.Proofs.SafeParsing

namespace JavaAbi

/-!
# Names and fields of parsed trees

What a tree is made of where it stands in the text: member types and top-level types are named, bodies
of constants are not, and no two field declarations of a tree have their first variables at the same
place, so that a field declaration occurs once.

* `TypeDecl.NamedAs`, `Member.Named` — which declarations have names;
* `TypeDecl.allFields` — all field declarations of a tree, in order;
* `ParserState.passed` — the tokens that a parser moves on to;
* `Parser.unit_tells` — the first variables stand at tokens that the parser moves on to, in order;
* `parseBatch_fields` — the field declarations of a batch are all different.
-/

/-! ### Names and fields of trees -/

mutual

/-- Whether a declaration is named as it should be; the bodies of constants have no name, and all
    other declarations have one. -/
def TypeDecl.NamedAs (named : Bool) : TypeDecl → Prop
  | .mk head members => head.name.isSome = named ∧ Member.AllNamed members

/-- The declarations in a member are named as they should be. -/
def Member.Named : Member → Prop
  | .type d => d.NamedAs true
  | .constant _ (some body) _ => body.NamedAs false
  | .constant _ none _ | .field _ => True

/-- The declarations in members are named as they should be. -/
def Member.AllNamed : List Member → Prop
  | [] => True
  | m :: rest => m.Named ∧ Member.AllNamed rest

end

mutual

/-- The field declarations of a type and of the types inside it. -/
def TypeDecl.allFields : TypeDecl → List FieldDecl
  | .mk _ members => Member.allFields members

/-- The field declarations of members. -/
def Member.allFields : List Member → List FieldDecl
  | [] => []
  | m :: rest => m.fields ++ Member.allFields rest

/-- The field declarations of a member. -/
def Member.fields : Member → List FieldDecl
  | .type d => d.allFields
  | .field f => [f]
  | .constant _ (some body) _ => body.allFields
  | .constant _ none _ => []

end

/-- The field declarations of a file. -/
def CompilationUnit.allFields (u : CompilationUnit) : List FieldDecl :=
  u.types.flatMap TypeDecl.allFields

/-- Where the first variable of a field declaration stands. -/
def FieldDecl.firstPlace? (f : FieldDecl) : Option Span := f.declarators.head?.map Variable.span

theorem Member.allNamed_iff {ms : List Member} : Member.AllNamed ms ↔ ∀ m ∈ ms, m.Named := by
  induction ms with
  | nil => simp [Member.AllNamed]
  | cons m rest ih => simp [Member.AllNamed, ih]

theorem Member.allFields_eq (ms : List Member) : Member.allFields ms = ms.flatMap Member.fields := by
  induction ms with
  | nil => rw [Member.allFields, List.flatMap_nil]
  | cons m rest ih => rw [Member.allFields, List.flatMap_cons, ih]

theorem Member.allFields_append (ms ns : List Member) :
    Member.allFields (ms ++ ns) = Member.allFields ms ++ Member.allFields ns := by
  rw [allFields_eq, allFields_eq, allFields_eq, List.flatMap_append]

theorem Member.allFields_map_field (fs : List FieldDecl) :
    Member.allFields (fs.map Member.field) = fs := by
  induction fs with
  | nil => rfl
  | cons f rest ih => rw [List.map_cons, Member.allFields, ih, Member.fields, List.singleton_append]

/-! ### Tokens that are moved on to -/

namespace ParserState

variable {s u v : ParserState}

/-- The tokens that a parser moves on to: those after the token at hand, up to the one at hand where
    it ends. -/
def passed (s u : ParserState) : List Token := (s.tokens.drop 1).take (s.remaining - u.remaining)

theorem Leads.tokens_eq (h : s.Leads u) : s.tokens.drop (s.remaining - u.remaining) = u.tokens := by
  obtain ⟨before, hbefore⟩ := h.tokens
  have hlength : s.remaining - u.remaining = before.length := by
    rw [remaining, remaining, ← hbefore, List.length_append, Nat.add_sub_cancel]
  rw [hlength, ← hbefore, List.drop_left]

theorem passed_append (h : s.Leads u) (h' : u.Leads v) :
    s.passed v = s.passed u ++ u.passed v := by
  have hle := h.tokens.length_le
  have hle' := h'.tokens.length_le
  have hsum : s.remaining - v.remaining =
      (s.remaining - u.remaining) + (u.remaining - v.remaining) := by
    simp only [remaining]
    omega
  rw [passed, passed, passed, hsum, List.take_add, ← h.tokens_eq, List.drop_drop, List.drop_drop,
    Nat.add_comm]

theorem current_eq_head (h : 0 < s.remaining) : s.tokens = s.current :: s.tokens.drop 1 := by
  unfold current
  cases htokens : s.tokens with
  | nil =>
    rw [remaining, htokens] at h
    exact absurd h (Nat.lt_irrefl 0)
  | cons t rest => rfl

/-- The token at hand is the last one that was moved on to. -/
theorem passed_current (h : s.Leads u) (hlt : u.remaining < s.remaining) (hpos : 0 < u.remaining) :
    ∃ before, s.passed u = before ++ [u.current] := by
  obtain ⟨n, hn⟩ := Nat.exists_eq_add_of_lt hlt
  have hcount : s.remaining - u.remaining = n + 1 := by omega
  have hdrop : (s.tokens.drop 1).drop n = u.tokens := by
    rw [← h.tokens_eq, hcount, List.drop_drop, Nat.add_comm]
  refine ⟨(s.tokens.drop 1).take n, ?_⟩
  rw [passed, hcount, List.take_add, hdrop, current_eq_head hpos, List.take_succ_cons, List.take_zero]

/-- From a later token on there is no token that was not moved on to. -/
theorem later_sublist (h : s.Leads u) (hlt : u.remaining < s.remaining) (hpos : 0 < u.remaining)
    (h' : u.Leads v) : (u.current :: u.passed v).Sublist (s.passed v) := by
  obtain ⟨before, hbefore⟩ := passed_current h hlt hpos
  rw [passed_append h h', hbefore, List.append_assoc]
  exact List.sublist_append_right _ _

/-- The same with the token at hand at first. -/
theorem current_sublist (h : s.Leads u) (hpos : 0 < u.remaining) (h' : u.Leads v) :
    (u.current :: u.passed v).Sublist (s.current :: s.passed v) := by
  rcases Nat.lt_or_ge u.remaining s.remaining with hlt | hge
  · exact (later_sublist h hlt hpos h').trans (List.sublist_cons_self _ _)
  · have htokens := h.current_eq hge
    have hcurrent : u.current = s.current := by rw [current, current, htokens]
    have hremaining : u.remaining = s.remaining := congrArg List.length htokens
    have hpassed : u.passed v = s.passed v := by rw [passed, passed, hremaining, htokens]
    rw [hcurrent, hpassed]

/-! ### Fields at tokens -/

/-- The first variables of fields stand at some of these tokens, in order. -/
def Spells (ts : List Token) (fs : List FieldDecl) : Prop :=
  (fs.map FieldDecl.firstPlace?).Sublist (ts.map fun t => some t.span)

section Spells

variable {ts ts' : List Token} {fs fs' : List FieldDecl}

theorem Spells.nil (ts : List Token) : Spells ts [] := List.nil_sublist _

theorem Spells.append (h : Spells ts fs) (h' : Spells ts' fs') : Spells (ts ++ ts') (fs ++ fs') := by
  rw [Spells, List.map_append, List.map_append]
  exact List.Sublist.append h h'

theorem Spells.mono (h : Spells ts fs) (hs : ts.Sublist ts') : Spells ts' fs := h.trans (hs.map _)

theorem Spells.head {f : FieldDecl} {t : Token} (h : f.firstPlace? = some t.span)
    (ts : List Token) : Spells (t :: ts) [f] := by
  rw [Spells, List.map_singleton, List.map_cons, h]
  exact List.singleton_sublist.2 List.mem_cons_self

end Spells

/-- What stands at tokens that were moved on to between two states. -/
theorem Spells.widen {s' v' : ParserState} {fs : List FieldDecl} (h : Spells (u.passed v) fs)
    (hs : s'.Leads u) (hu : u.Leads v) (hv : v.Leads v') : Spells (s'.passed v') fs := by
  refine h.mono ?_
  rw [passed_append hs (hu.trans hv), passed_append hu hv]
  exact (List.sublist_append_left _ _).trans (List.sublist_append_right _ _)

/-- Members as a parser finds them on its way from one state to another. -/
structure Tells (s v : ParserState) (ms : List Member) : Prop where
  named : Member.AllNamed ms
  fields : Spells (s.passed v) (Member.allFields ms)

theorem Tells.nil (s v : ParserState) : s.Tells v [] := ⟨trivial, .nil _⟩

theorem Tells.widen {s' v' : ParserState} {ms : List Member} (h : u.Tells v ms) (hs : s'.Leads u)
    (hu : u.Leads v) (hv : v.Leads v') : s'.Tells v' ms := ⟨h.named, h.fields.widen hs hu hv⟩

theorem Tells.append {ms ns : List Member} (h : s.Tells u ms) (h' : u.Tells v ns) (hs : s.Leads u)
    (hu : u.Leads v) : s.Tells v (ms ++ ns) where
  named := Member.allNamed_iff.2 fun m hm => (List.mem_append.1 hm).elim
    (Member.allNamed_iff.1 h.named m) (Member.allNamed_iff.1 h'.named m)
  fields := by
    rw [Member.allFields_append, passed_append hs hu]
    exact h.fields.append h'.fields

end ParserState

namespace Parser

open ParserState

variable {T : SourceText} {s : ParserState} {start : Span} {α : Type} {P Q : α → ParserState → Prop}

theorem Runs.gives {p : Parser α} (h : p.Runs T s P) (h' : p.Gives s Q) :
    p.Runs T s fun a u => P a u ∧ Q a u := fun hs => ⟨(h hs).1, (h hs).2.1, (h hs).2.2, h'⟩

theorem Runs.both {p : Parser α} (h : p.Runs T s P) (h' : p.Runs T s Q) :
    p.Runs T s fun a u => P a u ∧ Q a u := fun hs =>
  ⟨(h hs).1, (h hs).2.1, (h hs).2.2, (h' hs).2.2⟩

/-- There is a token where a parser ends. -/
theorem Runs.remaining {p : Parser α} (h : p.Runs T s P) :
    p.Runs T s fun a u => P a u ∧ 0 < u.remaining := fun hs =>
  ⟨(h hs).1, (h hs).2.1, (h hs).2.2, (h hs).1.remaining_pos⟩

/-! ### Fields -/

theorem advance_consumes (h : s.current.kind ≠ .eof) :
    advance.Gives s fun _ u => u.remaining < s.remaining := remaining_advance h

theorem identifier_consumes (h : s.current.kind = .identifier) :
    identifier.Gives s fun _ u => u.remaining < s.remaining := by
  rw [identifier, gives_state]
  dsimp only
  rw [if_pos h]
  refine Gives.bind (P := fun _ u => u.tokens = s.tokens) rfl fun n u _ hu => ?_
  have hkind : u.current.kind ≠ .eof := by rw [current_eq hu, h]; decide
  refine (advance_consumes hkind).bind fun _ v _ hlt => .pure ?_
  rwa [remaining_eq hu] at hlt

/-- A type that could be parsed has a token. -/
theorem type_consumes :
    type.Gives s fun r u => r.isError = false → u.remaining < s.remaining := by
  rw [type, gives_steps, typeWithin]
  refine Gives.after fun _ u hu => Gives.after fun span u' hu' => ?_
  have hle := (hu.trans hu').remaining_le
  -- Once a token has been read, what is read after it does not matter.
  have hrest {fuel : Nat} {type : TypeRef} {v : ParserState} (hlt : v.remaining < u'.remaining) :
      (arrayOf span fuel type).Gives v fun r w => r.isError = false → w.remaining < s.remaining :=
    (Gives.leads _ v).mono fun _ w hw _ _ => by
      have := hw.remaining_le
      omega
  rw [gives_kind]
  split
  · rename_i hk
    have hsegments : (classSegments (5 * s.remaining + 4)).Gives u' fun _ v =>
        v.remaining < u'.remaining := by
      rw [classSegments]
      refine (identifier_consumes hk).bind fun _ v _ hlt => (Gives.leads _ v).mono fun _ w hw _ => ?_
      exact Nat.lt_of_le_of_lt hw.remaining_le hlt
    refine hsegments.bind fun segs v _ hlt => ?_
    rw [gives_state]
    exact Gives.after fun place w hw => hrest (Nat.lt_of_le_of_lt hw.remaining_le hlt)
  · split
    · rename_i hk
      refine (advance_consumes (by rw [hk]; decide)).bind fun _ v _ hlt => ?_
      rw [gives_state]
      exact hrest hlt
    · split
      · rename_i p hp
        have heof : u'.current.kind ≠ .eof := fun heof => by
          rw [heof] at hp
          cases hp
        refine (advance_consumes heof).bind fun _ v _ hlt => ?_
        rw [gives_state]
        exact hrest hlt
      · exact Gives.after fun _ v _ => .pure fun h => nomatch h

/-- The first variable of a field stands at the token at hand. -/
theorem declarators_first (fuel : Nat) : (declarators (fuel + 1)).Gives s fun vars _ =>
    vars.head?.map Variable.span = some s.current.span := by
  rw [declarators]
  refine Gives.bind (P := fun span _ => span = s.current.span) rfl fun span t _ hspan => ?_
  refine Gives.after fun name u _ => Gives.after fun here v _ => Gives.after fun dims w _ => ?_
  refine Gives.after fun _ x _ => Gives.after fun more y _ => ?_
  split
  · exact Gives.after fun rest z _ => .pure (congrArg some hspan)
  · exact .pure (congrArg some hspan)

theorem field_first {ms : List Modifier} {type : TypeRef} :
    (field start ms type).Gives s fun f _ => f.firstPlace? = some s.current.span := by
  rw [field, gives_state]
  refine (declarators_first _).bind fun vars u _ hvars => Gives.after fun _ v _ => ?_
  exact Gives.after fun span w _ => .pure hvars

/-- The name of a component stands at the token at hand or at a later one. -/
theorem component_spells : component.Runs T s fun f u => Spells (s.current :: s.passed u) [f] := by
  rw [component]
  refine currentSpan_runs fun hstart => skipAnnotations_runs.after fun _ u hu => ?_
  refine (componentType_runs hstart).remaining.bind fun type v hv htype => ?_
  refine currentSpan_runs fun hname => identifier_runs.after fun name w hw => ?_
  refine (spanFrom_runs hstart).bind fun _ x hx _ => .pure ?_
  exact (Spells.head rfl _).mono (current_sublist (hu.trans hv) htype.2 (hw.trans hx))

theorem componentList_spells (fuel : Nat) (s : ParserState) (hf : s.remaining ≤ fuel) :
    (componentList fuel).Runs T s fun fs u => Spells (s.current :: s.passed u) fs := by
  induction fuel generalizing s with
  | zero => exact .cutOff hf
  | succ fuel ih =>
    rw [componentList, runs_isAt, runs_isAt]
    split
    · exact .pure (.nil _)
    · refine component_spells.bind fun first u hu hfirst => ?_
      refine (eat_runs (by decide)).remaining.bind fun more v hv heat => ?_
      obtain ⟨⟨hlt, hsame⟩, hpos⟩ := heat
      split
      · rename_i hmore
        have hlt := hlt hmore
        have hle := hu.remaining_le
        refine (ih v (by omega)).bind fun rest w hw hrest => .pure ?_
        have hrest : Spells (u.passed w) rest := hrest.mono (later_sublist hv hlt hpos hw)
        rw [passed_append hu (hv.trans hw)]
        exact hfirst.append hrest
      · rename_i hmore
        obtain ⟨rfl, -⟩ := hsame (Bool.not_eq_true _ ▸ hmore)
        exact .pure hfirst

theorem components_spells :
    components.Runs T s fun fs u => Spells (s.current :: s.passed u) fs := by
  rw [components]
  refine (expect_runs (by decide)).remaining.bind fun _ u hu hpos => ?_
  rw [runs_state]
  refine (componentList_spells _ u (Nat.le_refl _)).bind fun fs v hv hfs => ?_
  refine (expect_runs (by decide)).after fun _ w hw => .pure ?_
  have hsub := current_sublist hu hpos.2 (hv.trans hw)
  rw [passed_append hv hw] at hsub
  exact hfs.mono ((List.sublist_append_left _ _).trans hsub)

theorem fieldOrMethod_tells {ms : List Modifier} (hstart : T.Holds start) :
    (fieldOrMethod start ms).Runs T s fun m u => s.Tells u m.toList := by
  rw [fieldOrMethod]
  refine (type_runs.gives type_consumes).remaining.bind fun t u hu ht => ?_
  obtain ⟨⟨hplaced, hlt⟩, hpos⟩ := ht
  split
  · rw [runs_state]
    exact (recoverMember_runs _ u (Nat.le_refl _)).after fun _ _ _ => .pure (.nil _ _)
  · rename_i herror
    have hlt := hlt (Bool.not_eq_true _ ▸ herror)
    rw [runs_isAt, runs_peek]
    split
    · rw [runs_state]
      exact (skipMethod_runs _ u (Nat.le_refl _)).after fun _ _ _ => .pure (.nil _ _)
    · refine ((field_runs hstart hplaced).gives field_first).bind fun f v hv hf => .pure ?_
      exact ⟨⟨trivial, trivial⟩, (Spells.head hf.2 _).mono (later_sublist hu hlt hpos hv)⟩

theorem plainMember_tells {ms : List Modifier} (hstart : T.Holds start) :
    (plainMember start ms).Runs T s fun m u => s.Tells u m.toList := by
  rw [plainMember, runs_state]
  split
  · refine (skipBalanced_runs (by decide)).after fun _ u _ => ?_
    rw [runs_state]
    exact (skipMethod_runs _ u (Nat.le_refl _)).after fun _ _ _ => .pure (.nil _ _)
  · split
    · exact (skipMethod_runs _ s (Nat.le_refl _)).after fun _ _ _ => .pure (.nil _ _)
    · split
      · exact advance_runs.after fun _ u _ => skipBraces_runs.after fun _ _ _ => .pure (.nil _ _)
      · exact fieldOrMethod_tells hstart

/-! ### Declarations -/

theorem afterConstants_tells {others : Parser (List Member)}
    (h : ∀ u, s.Leads u → others.Runs T u fun ms v => u.Tells v ms) :
    (afterConstants others).Runs T s fun ms v => s.Tells v ms := by
  have hfrom {u : ParserState} (hu : s.Leads u) : others.Runs T u fun ms v => s.Tells v ms :=
    (h u hu).mono fun _ v hv hms => hms.widen hu hv (.refl v)
  rw [afterConstants]
  refine (eat_runs (by decide)).after fun found u hu => ?_
  split
  · exact hfrom hu
  · rw [runs_isAt]
    split
    · exact .pure (.nil _ _)
    · exact expected_runs.after fun _ v hv => hfrom (hu.trans hv)

mutual

theorem declWithin_tells {ms : List Modifier} {start : Span} {fuel : Nat} {s : ParserState}
    (hstart : T.Holds start) (hk : s.current.kind ≠ .eof) (hf : 5 * s.remaining ≤ fuel) :
    (declWithin ms start fuel).Runs T s fun d u =>
      d.NamedAs true ∧ Spells (s.passed u) d.allFields := by
  have hpos := remaining_pos hk
  match fuel, (show 5 ≤ fuel by omega) with
  | fuel + 1, _ =>
    rw [declWithin]
    refine declKeyword_runs.bind fun kind a ha hlt => currentSpan_runs fun _ => ?_
    have hlt := hlt hk
    refine identifier_runs.after fun name b hb => ?_
    refine optionalTypeParams_runs.remaining.bind fun params c hc hleft => ?_
    refine Runs.join (P := fun fs d => Spells (s.passed d) fs) ?_ fun fields d hd hfields => ?_
    · split
      · have hc' := ((ha.trans hb).trans hc)
        have := (hb.trans hc).remaining_le
        exact components_spells.mono fun fs d hd hfs =>
          hfs.mono (later_sublist hc' (by omega) hleft.2 hd)
      · exact .pure (.nil _)
    refine (extendsClause_runs kind).after fun extended e he => ?_
    refine (implementsClause_runs kind).after fun implemented f hf' => ?_
    refine permitsClause_runs.after fun _ g hg => ?_
    have hclauses := he.trans (hf'.trans hg)
    have hle := (((hb.trans hc).trans hd).trans hclauses).remaining_le
    refine Runs.join (P := fun body h => g.Tells h body) ?_ fun body h hh hbody => ?_
    · split
      · exact enumBody_tells (by omega)
      · exact classBody_tells (by omega)
    refine spanFrom_runs hstart |>.bind fun span i hi _ => .pure ⟨⟨rfl, ?_⟩, ?_⟩
    · refine Member.allNamed_iff.2 fun m hm => ?_
      rcases List.mem_append.1 hm with hm | hm
      · obtain ⟨x, -, rfl⟩ := List.mem_map.1 hm
        trivial
      · exact Member.allNamed_iff.1 hbody.named m hm
    · -- The tokens of the fields are those of the components, and behind the clauses those of the
      -- body.
      have hhead := ((ha.trans hb).trans hc).trans hd
      rw [TypeDecl.allFields, Member.allFields_append, Member.allFields_map_field,
        passed_append hhead (hclauses.trans (hh.trans hi))]
      exact hfields.append (hbody.fields.widen hclauses hh hi)

theorem classBody_tells {fuel : Nat} {s : ParserState} (hf : 5 * s.remaining + 3 ≤ fuel) :
    (classBody fuel).Runs T s fun ms u => s.Tells u ms := by
  match fuel, hf with
  | fuel + 1, hf =>
    rw [classBody]
    refine (expect_runs (by decide)).after fun _ u hu => ?_
    have := hu.remaining_le
    refine (members_tells (by omega)).bind fun found v hv hfound => ?_
    exact (expect_runs (by decide)).after fun _ _ hw => .pure (hfound.widen hu hv hw)

theorem members_tells {fuel : Nat} {s : ParserState} (hf : 5 * s.remaining + 2 ≤ fuel) :
    (members fuel).Runs T s fun ms u => s.Tells u ms := by
  match fuel, hf with
  | fuel + 1, hf =>
    rw [members, runs_isAt, runs_isAt]
    split
    · exact .pure (.nil _ _)
    · rename_i hgoes
      have heof : s.current.kind ≠ .eof := fun heof => hgoes (by rw [heof]; rfl)
      rw [runs_state]
      refine (member_tells (by omega)).bind fun found u hu hfound => ?_
      refine (moveOn_runs hu heof).bind fun _ v hv hlt => ?_
      refine (members_tells (by omega)).bind fun rest w hw hrest => .pure ?_
      exact (hfound.widen (.refl s) hu hv).append hrest (hu.trans hv) hw

theorem member_tells {fuel : Nat} {s : ParserState} (hf : 5 * s.remaining + 1 ≤ fuel) :
    (member fuel).Runs T s fun m u => s.Tells u m.toList := by
  match fuel, hf with
  | fuel + 1, hf =>
    rw [member, runs_state]
    split
    · exact advance_runs.after fun _ _ _ => .pure (.nil _ _)
    · split
      · exact skipBraces_runs.after fun _ _ _ => .pure (.nil _ _)
      · split
        · exact advance_runs.after fun _ u _ => skipBraces_runs.after fun _ _ _ => .pure (.nil _ _)
        · refine currentSpan_runs fun hstart => modifiers_runs.after fun ms u hu => ?_
          have hle := hu.remaining_le
          rw [runs_state]
          split
          · rename_i hstarts
            refine (declWithin_tells hstart (current_of_startsDeclaration hstarts) (by omega)).bind
              fun d v hv hdecl => .pure ?_
            have htells : u.Tells v [.type d] := by
              refine ⟨⟨hdecl.1, trivial⟩, ?_⟩
              rw [Member.allFields, Member.fields, Member.allFields, List.append_nil]
              exact hdecl.2
            exact htells.widen hu hv (.refl v)
          · exact (plainMember_tells hstart).mono fun _ v hv hm => hm.widen hu hv (.refl v)

theorem enumBody_tells {fuel : Nat} {s : ParserState} (hf : 5 * s.remaining + 3 ≤ fuel) :
    (enumBody fuel).Runs T s fun ms u => s.Tells u ms := by
  match fuel, hf with
  | fuel + 1, hf =>
    rw [enumBody]
    refine (expect_runs (by decide)).after fun _ u hu => ?_
    have := hu.remaining_le
    refine (enumConstants_tells (by omega)).bind fun constants v hv hconstants => ?_
    have := hv.remaining_le
    refine (afterConstants_tells fun w hw => members_tells ?_).bind fun others w hw hothers => ?_
    · have := hw.remaining_le
      omega
    refine (expect_runs (by decide)).after fun _ x hx => .pure ?_
    exact (hconstants.append hothers hv hw).widen hu (hv.trans hw) hx

theorem enumConstants_tells {fuel : Nat} {s : ParserState} (hf : 5 * s.remaining + 1 ≤ fuel) :
    (enumConstants fuel).Runs T s fun ms u => s.Tells u ms := by
  match fuel, hf with
  | fuel + 1, hf =>
    rw [enumConstants]
    refine skipAnnotations_runs.after fun _ u hu => ?_
    have := hu.remaining_le
    rw [runs_isAt]
    split
    · rename_i hident
      refine (enumConstant_tells (of_decide_eq_true hident) (by omega)).bind fun constant v hv hc => ?_
      refine (eat_runs (by decide)).bind fun more w hw heat => ?_
      have := hv.remaining_le
      have hfirst := hc.widen hu hv hw
      split
      · rename_i hmore
        have := heat.1 hmore
        refine (enumConstants_tells (by omega)).bind fun rest x hx hrest => .pure ?_
        exact hfirst.append hrest (hu.trans (hv.trans hw)) hx
      · exact .pure hfirst
    · exact .pure (.nil _ _)

theorem enumConstant_tells {fuel : Nat} {s : ParserState} (hk : s.current.kind = .identifier)
    (hf : 5 * s.remaining ≤ fuel) :
    (enumConstant fuel).Runs T s fun m u => s.Tells u [m] := by
  have hpos := remaining_pos (s := s) (by rw [hk]; decide)
  match fuel, (show 5 ≤ fuel by omega) with
  | fuel + 1, _ =>
    rw [enumConstant]
    refine currentSpan_runs fun hstart => identifier_runs.bind fun name u hu hlt => ?_
    have := hlt hk
    refine skipArguments_runs.after fun _ v hv => currentSpan_runs fun hbody => ?_
    have := hv.remaining_le
    rw [runs_isAt]
    split
    · refine (classBody_tells (by omega)).bind fun found w hw hfound => ?_
      refine (spanFrom_runs hbody).bind fun span x hx _ => ?_
      refine (spanFrom_runs hstart).bind fun place y hy _ => .pure ?_
      refine ⟨⟨⟨rfl, hfound.named⟩, trivial⟩, ?_⟩
      rw [Member.allFields, Member.fields, Member.allFields, List.append_nil, TypeDecl.allFields]
      exact hfound.fields.widen (hu.trans hv) hw (hx.trans hy)
    · refine (spanFrom_runs hstart).bind fun place y _ _ => .pure ⟨⟨trivial, trivial⟩, ?_⟩
      exact .nil _

end

theorem typeDecl_tells {ms : List Modifier} (hstart : T.Holds start)
    (hk : s.current.kind ≠ .eof) : (typeDecl ms start).Runs T s fun d u =>
      d.NamedAs true ∧ Spells (s.passed u) d.allFields := by
  rw [typeDecl, runs_steps]
  exact declWithin_tells hstart hk (by omega)

/-! ### Files -/

/-- Declarations as a parser finds them on its way from one state to another. -/
structure TellsTypes (s v : ParserState) (ds : List TypeDecl) : Prop where
  named : ∀ d ∈ ds, d.NamedAs true
  fields : Spells (s.passed v) (ds.flatMap TypeDecl.allFields)

theorem TellsTypes.nil (s v : ParserState) : TellsTypes s v [] :=
  ⟨List.forall_mem_nil _, .nil _⟩

theorem TellsTypes.widen {u v : ParserState} {ds : List TypeDecl} (h : TellsTypes u v ds)
    (hs : s.Leads u) (hu : u.Leads v) : TellsTypes s v ds :=
  ⟨h.named, h.fields.widen hs hu (.refl v)⟩

theorem topLevel_tells (fuel : Nat) (s : ParserState) (hf : s.remaining ≤ fuel) :
    (topLevel fuel).Runs T s fun ds u => TellsTypes s u ds := by
  induction fuel generalizing s with
  | zero => exact .cutOff hf
  | succ fuel ih =>
    rw [topLevel, runs_isAt]
    split
    · exact .pure (.nil _ _)
    · rename_i heof
      have heof : s.current.kind ≠ .eof := fun h => heof (decide_eq_true h)
      refine (eat_runs (by decide)).bind fun eaten u hu heat => ?_
      cases eaten with
      | true =>
        have := heat.1 rfl
        exact (ih u (by omega)).mono fun ds v hv hds => hds.widen hu hv
      | false =>
        obtain ⟨rfl, -⟩ := heat.2 rfl
        rw [if_neg Bool.false_ne_true]
        refine currentSpan_runs fun hstart => modifiers_runs.after fun ms v hv => ?_
        have hle := hv.remaining_le
        rw [runs_state]
        split
        · rename_i hstarts
          have hk := current_of_startsDeclaration hstarts
          refine ((typeDecl_runs hstart hk).both (typeDecl_tells hstart hk)).bind
            fun d w hw hd => ?_
          obtain ⟨⟨-, hlt⟩, hnamed, hfields⟩ := hd
          refine (ih w (by omega)).bind fun rest x hx hrest => .pure ⟨?_, ?_⟩
          · exact List.forall_mem_cons.2 ⟨hnamed, hrest.named⟩
          · rw [List.flatMap_cons, passed_append (hv.trans hw) hx]
            exact (hfields.widen hv hw (.refl w)).append hrest.fields
        · refine expected_runs.bind fun _ w hw hsame => advance_runs.bind fun _ x hx hlt => ?_
          rw [runs_state]
          refine (recoverDeclaration_runs _ x (Nat.le_refl _)).after fun _ y hy => ?_
          refine (ih y ?_).mono fun ds z hz hds =>
            hds.widen (hv.trans (hw.trans (hx.trans hy))) hz
          have := hy.remaining_le
          rw [current_eq hsame, remaining_eq hsame] at hlt
          -- where no modifier was consumed there is another token to consume
          by_cases hsame' : u.remaining ≤ v.remaining
          · have hlt := hlt (by rw [current_eq (hv.current_eq hsame')]; exact heof)
            omega
          · have := hx.remaining_le
            have := remaining_eq hsame
            omega

/-- **The declarations of a file** are named, and their fields stand at tokens of the file. -/
theorem unit_tells : unit.Runs T s fun unit u => TellsTypes s u unit.types := by
  rw [unit, runs_state]
  refine .sane fun hs => ?_
  refine (orBack_runs packageHeader_runs).after fun package a ha => ?_
  rw [runs_state]
  refine (imports_runs _ a (Nat.le_refl _)).after fun imported b hb => ?_
  rw [runs_state]
  refine (topLevel_tells _ b (Nat.le_refl _)).bind fun types c hc htypes => ?_
  exact currentSpan_runs fun _ => .pure (htypes.widen (ha.trans hb) hc)

end Parser

/-! ### Files of a batch -/

/-- **Tokens of a file stand at different places.** -/
theorem lex_distinct (file : Nat) (source : String) :
    ((lex file source).1.map fun t => some t.span).Nodup := by
  refine List.pairwise_map.2 ((SourceText.lex_ordered file source).imp fun {t t'} hlt heq => ?_)
  rw [Option.some.inj heq] at hlt
  omega

theorem parse_fields (file : Nat) (source : String) (names : NameTable) :
    let unit := (parse file source names).1
    (∀ d ∈ unit.types, d.NamedAs true) ∧ (unit.allFields.map FieldDecl.firstPlace?).Nodup ∧
    ∀ f ∈ unit.allFields, ∃ place, f.firstPlace? = some place ∧ place.file = some file := by
  rw [parse_eq]
  dsimp only
  have hruns := Parser.unit_tells (ParserState.sane_start file source names)
  rw [Parser.Gives] at hruns
  obtain ⟨-, -, hnamed, hfields⟩ := hruns
  have hpassed : ((ParserState.start file source names).passed
      (Parser.unit.run (.start file source names)).2).Sublist (lex file source).1 :=
    (List.take_sublist _ _).trans (List.drop_sublist _ _)
  have hplaces := hfields.mono hpassed
  refine ⟨hnamed, hplaces.nodup (lex_distinct file source), fun f hf => ?_⟩
  obtain ⟨t, ht, hspan⟩ := List.mem_map.1 (hplaces.subset (List.mem_map_of_mem hf))
  exact ⟨t.span, hspan.symm, (SourceText.lex_tokens (T := ⟨file, source⟩) t ht).1.file⟩

/-- The first variables of the fields of a batch stand at different places. -/
theorem parseFrom_fields (file : Nat) (names : NameTable) (files : List SourceFile) :
    let units := (parseFrom file names files).1
    (∀ u ∈ units, ∀ d ∈ u.types, d.NamedAs true) ∧
    ((units.flatMap CompilationUnit.allFields).map FieldDecl.firstPlace?).Nodup ∧
    ∀ f ∈ units.flatMap CompilationUnit.allFields, ∃ place n, f.firstPlace? = some place ∧
      place.file = some n ∧ file ≤ n := by
  induction files generalizing file names with
  | nil => exact ⟨List.forall_mem_nil _, .nil, List.forall_mem_nil _⟩
  | cons f rest ih =>
    obtain ⟨hnamed, hnodup, hplaces⟩ := ih (file + 1) (parse file f.content names).2.1
    obtain ⟨hnamed', hnodup', hplaces'⟩ := parse_fields file f.content names
    rw [parseFrom]
    refine ⟨List.forall_mem_cons.2 ⟨hnamed', hnamed⟩, ?_, fun x hx => ?_⟩
    · rw [List.flatMap_cons, List.map_append]
      -- Places in different files differ, and the files that follow have greater numbers.
      refine hnodup'.append hnodup fun p hp hp' => ?_
      obtain ⟨x, hx, rfl⟩ := List.mem_map.1 hp
      obtain ⟨y, hy, heq⟩ := List.mem_map.1 hp'
      obtain ⟨place, hplace, hfile⟩ := hplaces' x hx
      obtain ⟨place', n, hplace', hfile', hle⟩ := hplaces y hy
      rw [hplace, hplace'] at heq
      rw [Option.some.inj heq, hfile] at hfile'
      cases hfile'
      exact absurd hle (Nat.not_succ_le_self file)
    · rcases List.mem_append.1 hx with hx | hx
      · obtain ⟨place, hplace, hfile⟩ := hplaces' x hx
        exact ⟨place, file, hplace, hfile, Nat.le_refl _⟩
      · obtain ⟨place, n, hplace, hfile, hle⟩ := hplaces x hx
        exact ⟨place, n, hplace, hfile, Nat.le_of_succ_le hle⟩

/-- **The declarations of a batch** are named, but for bodies of constants, and no field declaration
    of it is like another. -/
theorem parseBatch_fields (files : Batch) :
    (∀ u ∈ (parseBatch files).1, ∀ d ∈ u.types, d.NamedAs true) ∧
    ((parseBatch files).1.flatMap CompilationUnit.allFields).Nodup := by
  obtain ⟨hnamed, hnodup, -⟩ := parseFrom_fields 0 .fresh files.toList
  exact ⟨hnamed, List.Nodup.of_map _ hnodup⟩

end JavaAbi
