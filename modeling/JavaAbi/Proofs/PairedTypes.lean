import JavaAbi.Proofs.PairedRuns

namespace JavaAbi.Parser

/-!
# Two runs of the parser on types

Where two runs meet the same words, they read the same types, but for places.

* `Parser.type_pairs`, `Parser.typeList_pairs` — types;
* `Parser.optionalTypeParams_pairs` — type parameters.
-/

variable {d : Difference} {s s' : ParserState}

theorem arrayOf_pairs {start start' : Span} (n n' : Nat) {r r' : TypeRef} {s s' : ParserState}
    (h : Matched d s s') (hn : d.Bounds n n') (hr : r.bare = r'.bare) :
    Pairs d (arrayOf start n r) (arrayOf start' n' r') s s' fun r r' => r.bare = r'.bare := by
  refine .bounded (l := fun n => arrayOf start n r) (k := fun n => arrayOf start' n r')
    h hn rfl rfl hr fun m m' hm hm' hb => ?_
  rw [arrayOf, arrayOf]
  refine .isAtDimension h fun b => .ite (fun _ => ?_) fun _ => .pure h hr
  refine (advance_pairs h).bind fun _ _ u u' hu _ => (advance_pairs hu).bind fun _ _ v v' hv _ => ?_
  refine .spanFrom fun _ _ => arrayOf_pairs m m' hv hb ?_
  rw [TypeRef.bare, TypeRef.bare, hr]
  termination_by n

mutual

theorem typeWithin_pairs (n n' : Nat) {s s' : ParserState} (h : Matched d s s')
    (hn : d.Bounds n n') :
    Pairs d (typeWithin n) (typeWithin n') s s' fun r r' => r.bare = r'.bare := by
  refine .bounded h hn rfl rfl rfl fun m m' hm hm' hb => ?_
  rw [typeWithin, typeWithin]
  refine (skipAnnotations_pairs h).bind fun _ _ u u' hu _ => .place fun _ _ => .kind hu fun k _ => ?_
  refine .ite (fun _ => ?_) fun _ => .ite (fun _ => ?_) fun _ => ?_
  · refine (classSegments_pairs m m' hu hb).bind fun segs segs' v v' hv hsegs => .state ?_
    refine .spanFrom fun _ _ => arrayOf_pairs _ _ hv hv.bounds ?_
    rw [TypeRef.bare, TypeRef.bare, hsegs]
  · refine (advance_pairs hu).bind fun _ _ v v' hv _ => .state ?_
    exact arrayOf_pairs _ _ hv hv.bounds rfl
  · cases primitive? k with
    | some p =>
      refine (advance_pairs hu).bind fun _ _ v v' hv _ => .state ?_
      exact arrayOf_pairs _ _ hv hv.bounds rfl
    | none => exact (expected_pairs _ hu).bind fun _ _ v v' hv _ => .pure hv rfl
  termination_by n

theorem classSegments_pairs (n n' : Nat) {s s' : ParserState} (h : Matched d s s')
    (hn : d.Bounds n n') : Pairs d (classSegments n) (classSegments n') s s' fun segs segs' =>
      ClassSegment.bareAll segs = ClassSegment.bareAll segs' := by
  refine .bounded h hn rfl rfl rfl fun m m' hm hm' hb => ?_
  rw [classSegments, classSegments]
  refine (identifier_pairs h).bind_eq fun name u u' hu => .isAt hu fun b _ => ?_
  refine .join (R := fun args args' => TypeRef.bareAll args = TypeRef.bareAll args') ?_
    fun args args' v v' hv hargs => ?_
  · exact .ite (fun _ => typeArgs_pairs m m' hu hb) fun _ => .pure hu rfl
  refine .isAtThen (c := .dot) rfl (fun next => decide (next = .identifier) || decide (next = .atSign))
    (f := fun b => if b then _ else _) (g := fun b => if b then _ else _) hv
    fun b => .ite (fun _ => ?_) fun _ => ?_
  · refine (advance_pairs hv).bind fun _ _ w w' hw _ => ?_
    refine (skipAnnotations_pairs hw).bind fun _ _ x x' hx _ => ?_
    refine (classSegments_pairs m m' hx hb).bind fun rest rest' y y' hy hrest => .pure hy ?_
    rw [ClassSegment.bareAll, ClassSegment.bareAll, hargs, hrest]
  · exact .pure hv (by simp only [ClassSegment.bareAll, hargs])
  termination_by n

theorem typeArgs_pairs (n n' : Nat) {s s' : ParserState} (h : Matched d s s')
    (hn : d.Bounds n n') : Pairs d (typeArgs n) (typeArgs n') s s' fun args args' =>
      TypeRef.bareAll args = TypeRef.bareAll args' := by
  refine .bounded h hn rfl rfl rfl fun m m' hm hm' hb => ?_
  rw [typeArgs, typeArgs]
  refine (expect_pairs _ h).bind fun _ _ u u' hu _ => (eat_pairs _ hu).bind_eq fun b v v' hv => ?_
  refine .ite (fun _ => .pure hv rfl) fun _ => ?_
  refine (typeArgList_pairs m m' hv hb).bind fun args args' w w' hw hargs => ?_
  exact (expect_pairs _ hw).bind fun _ _ x x' hx _ => .pure hx hargs
  termination_by n

theorem typeArgList_pairs (n n' : Nat) {s s' : ParserState} (h : Matched d s s')
    (hn : d.Bounds n n') : Pairs d (typeArgList n) (typeArgList n') s s' fun args args' =>
      TypeRef.bareAll args = TypeRef.bareAll args' := by
  refine .bounded h hn rfl rfl rfl fun m m' hm hm' hb => ?_
  rw [typeArgList, typeArgList]
  refine (typeArg_pairs m m' h hb).bind fun arg arg' u u' hu harg => ?_
  refine (eat_pairs _ hu).bind_eq fun b v v' hv => .ite (fun _ => ?_) fun _ => ?_
  · refine (typeArgList_pairs m m' hv hb).bind fun rest rest' w w' hw hrest => .pure hw ?_
    rw [TypeRef.bareAll, TypeRef.bareAll, harg, hrest]
  · refine .pure hv ?_
    simp only [TypeRef.bareAll, harg]
  termination_by n

theorem typeArg_pairs (n n' : Nat) {s s' : ParserState} (h : Matched d s s')
    (hn : d.Bounds n n') :
    Pairs d (typeArg n) (typeArg n') s s' fun r r' => r.bare = r'.bare := by
  refine .bounded h hn rfl rfl rfl fun m m' hm hm' hb => ?_
  rw [typeArg, typeArg]
  refine (skipAnnotations_pairs h).bind fun _ _ u u' hu _ => .place fun _ _ => ?_
  refine (eat_pairs _ hu).bind_eq fun b v v' hv => .ite (fun _ => ?_) fun _ => ?_
  · refine (eat_pairs _ hv).bind_eq fun b w w' hw => .ite (fun _ => ?_) fun _ => ?_
    · refine (typeWithin_pairs m m' hw hb).bind fun r r' x x' hx hr => .spanFrom fun _ _ => ?_
      exact .pure hx (by rw [TypeRef.bare, TypeRef.bare, hr])
    · refine (eat_pairs _ hw).bind_eq fun b x x' hx => .ite (fun _ => ?_) fun _ => ?_
      · refine (typeWithin_pairs m m' hx hb).bind fun r r' y y' hy hr => .spanFrom fun _ _ => ?_
        exact .pure hy (by rw [TypeRef.bare, TypeRef.bare, hr])
      · exact .spanFrom fun _ _ => .pure hx rfl
  · exact typeWithin_pairs m m' hv hb
  termination_by n

end

/-- **Types** are the same, but for places. -/
theorem type_pairs (h : Matched d s s') :
    Pairs d type type s s' fun r r' => r.bare = r'.bare := by
  rw [type]
  exact .steps (typeWithin_pairs _ _ h (h.bounds.map fun n => 5 * n + 5))

theorem typesBetween_pairs (separator : TokenKind) (n n' : Nat) {s s' : ParserState}
    (h : Matched d s s') (hn : d.Bounds n n') :
    Pairs d (typesBetween separator n) (typesBetween separator n') s s' fun types types' =>
      types.map TypeRef.bare = types'.map TypeRef.bare := by
  refine .bounded h hn rfl rfl rfl fun m m' hm hm' hb => ?_
  rw [typesBetween, typesBetween]
  refine (type_pairs h).bind fun first first' u u' hu hfirst => ?_
  refine (eat_pairs _ hu).bind_eq fun b v v' hv => .ite (fun _ => ?_) fun _ => ?_
  · refine (typesBetween_pairs separator m m' hv hb).bind fun rest rest' w w' hw hrest => .pure hw ?_
    rw [List.map_cons, List.map_cons, hfirst, hrest]
  · exact .pure hv (by rw [List.map_singleton, List.map_singleton, hfirst])
  termination_by n

theorem typeList_pairs (h : Matched d s s') : Pairs d typeList typeList s s' fun types types' =>
    types.map TypeRef.bare = types'.map TypeRef.bare := by
  rw [typeList]
  exact .state (typesBetween_pairs _ _ _ h h.bounds)

theorem boundList_pairs (h : Matched d s s') : Pairs d boundList boundList s s' fun types types' =>
    types.map TypeRef.bare = types'.map TypeRef.bare := by
  rw [boundList]
  exact .state (typesBetween_pairs _ _ _ h h.bounds)

theorem typeParam_pairs (h : Matched d s s') :
    Pairs d typeParam typeParam s s' fun p p' => p.bare = p'.bare := by
  rw [typeParam]
  refine (skipAnnotations_pairs h).bind fun _ _ u u' hu _ => .place fun _ _ => ?_
  refine (identifier_pairs hu).bind_eq fun name v v' hv => (eat_pairs _ hv).bind_eq fun b w w' hw => ?_
  refine .join (R := fun bounds bounds' => bounds.map TypeRef.bare = bounds'.map TypeRef.bare) ?_
    fun bounds bounds' x x' hx hbounds => .spanFrom fun _ _ => .pure hx ?_
  · exact .ite (fun _ => boundList_pairs hw) fun _ => .pure hw rfl
  · rw [TypeParam.bare, TypeParam.bare, hbounds]

theorem typeParamList_pairs (n n' : Nat) {s s' : ParserState} (h : Matched d s s')
    (hn : d.Bounds n n') : Pairs d (typeParamList n) (typeParamList n') s s' fun params params' =>
      params.map TypeParam.bare = params'.map TypeParam.bare := by
  refine .bounded h hn rfl rfl rfl fun m m' hm hm' hb => ?_
  rw [typeParamList, typeParamList]
  refine (typeParam_pairs h).bind fun first first' u u' hu hfirst => ?_
  refine (eat_pairs _ hu).bind_eq fun b v v' hv => .ite (fun _ => ?_) fun _ => ?_
  · refine (typeParamList_pairs m m' hv hb).bind fun rest rest' w w' hw hrest => .pure hw ?_
    rw [List.map_cons, List.map_cons, hfirst, hrest]
  · exact .pure hv (by rw [List.map_singleton, List.map_singleton, hfirst])
  termination_by n

theorem typeParams_pairs (h : Matched d s s') :
    Pairs d typeParams typeParams s s' fun params params' =>
      params.map TypeParam.bare = params'.map TypeParam.bare := by
  rw [typeParams]
  refine (expect_pairs _ h).bind fun _ _ u u' hu _ => .state ?_
  refine (typeParamList_pairs _ _ hu (hu.bounds.map (· + 1))).bind
    fun params params' v v' hv hparams => ?_
  exact (expect_pairs _ hv).bind fun _ _ w w' hw _ => .pure hw hparams

theorem optionalTypeParams_pairs (h : Matched d s s') :
    Pairs d optionalTypeParams optionalTypeParams s s' fun params params' =>
      params.map TypeParam.bare = params'.map TypeParam.bare := by
  rw [optionalTypeParams]
  exact .isAt h fun b _ => .ite (fun _ => typeParams_pairs h) fun _ => .pure h rfl

end JavaAbi.Parser
