import JavaAbi.Proofs.JoinedRuns

namespace JavaAbi.Parser

/-!
# Types in a part of a longer text

The types that a run over a part reads are read by a run over the whole text, carried over.

* `Parser.type_along`, `Parser.typeList_along` — types;
* `Parser.optionalTypeParams_along` — type parameters.
-/

variable {J : Joint} {b : Prop} {s s' : ParserState}

theorem arrayOf_along (start : Span) (r : TypeRef) (n n' : Nat) {s s' : ParserState}
    (h : Abreast J b s s') :
    Along J 1 b (arrayOf start n r) (arrayOf (start.shift J.offset) n' (J.carrier.type r)) s s'
      fun r r' => r' = J.carrier.type r := by
  refine .bounded (l := fun n => arrayOf start n r)
    (g := fun n => arrayOf (start.shift J.offset) n (J.carrier.type r)) rfl rfl fun m m' hm hm' => ?_
  rw [arrayOf, arrayOf]
  refine .isAtDimension h fun y => .ite (fun _ => ?_) fun _ => .pure h rfl
  refine (advance_along h).after fun _ _ u u' hu => (advance_along hu).after fun _ _ v v' hv => ?_
  refine .spanFrom hv fun x => ?_
  have hnext := arrayOf_along start (.array r x) m m' (hv.weaken fun _ => trivial)
  rwa [Carrier.type] at hnext
  termination_by n

mutual

theorem typeWithin_along (n n' : Nat) {b : Prop} {s s' : ParserState} (h : Abreast J b s s') :
    Along J 1 True (typeWithin n) (typeWithin n') s s' fun r r' => r' = J.carrier.type r := by
  refine .bounded rfl rfl fun m m' hm hm' => ?_
  rw [typeWithin, typeWithin]
  refine (skipAnnotations_along h).after fun _ _ u u' hu => .place hu (.kind hu fun x _ _ => ?_)
  refine .ite (fun _ => ?_) fun _ => .ite (fun _ => ?_) fun _ => ?_
  · refine (classSegments_along m m' hu).bind fun segs segs' v v' hv hsegs => .state ?_
    refine .spanFrom hv fun x => ?_
    have hnext := arrayOf_along u.current.span (.classType segs x)
      v.remaining v'.remaining hv
    rwa [Carrier.type, ← hsegs] at hnext
  · refine (advance_along hu).after fun _ _ v v' hv => .state ?_
    have hnext := arrayOf_along u.current.span (.void u.current.span)
      v.remaining v'.remaining hv
    rwa [Carrier.type] at hnext
  · cases primitive? x with
    | some p =>
      refine (advance_along hu).after fun _ _ v v' hv => .state ?_
      have hnext := arrayOf_along u.current.span (.primitive p u.current.span)
        v.remaining v'.remaining hv
      rwa [Carrier.type] at hnext
    | none => exact .after_report expected_gives
  termination_by n

theorem classSegments_along (n n' : Nat) {b : Prop} {s s' : ParserState} (h : Abreast J b s s') :
    Along J 1 True (classSegments n) (classSegments n') s s' fun segs segs' =>
      segs' = J.carrier.segments segs := by
  refine .bounded rfl rfl fun m m' hm hm' => ?_
  rw [classSegments, classSegments]
  refine (identifier_along h).bind fun name name' u u' hu hname => .isAt hu fun y _ => ?_
  refine .join (b := True) (R := fun args args' => args' = J.carrier.types args) ?_
    fun args args' v v' hv hargs => ?_
  · refine .ite (fun _ => typeArgs_along m m' hu) fun _ => .pure hu ?_
    rw [Carrier.types]
  refine .isAtThen (x := .dot) (by decide)
    (fun next => decide (next = .identifier) || decide (next = .atSign))
    (f := fun y => if y then _ else _) (g := fun y => if y then _ else _) hv
    fun y => .ite (fun _ => ?_) fun _ => ?_
  · refine (advance_along hv).after fun _ _ w w' hw => ?_
    refine (skipAnnotations_along hw).after fun _ _ x x' hx => ?_
    refine (classSegments_along m m' hx).bind fun rest rest' y y' hy hrest => .pure hy ?_
    rw [Carrier.segments, hname, hargs, hrest]
  · refine .pure hv ?_
    rw [Carrier.segments, Carrier.segments, hname, hargs]
  termination_by n

theorem typeArgs_along (n n' : Nat) {b : Prop} {s s' : ParserState} (h : Abreast J b s s') :
    Along J 1 True (typeArgs n) (typeArgs n') s s' fun args args' =>
      args' = J.carrier.types args := by
  refine .bounded rfl rfl fun m m' hm hm' => ?_
  rw [typeArgs, typeArgs]
  refine (expect_along (by decide) h).after fun _ _ u u' hu => .eat (by decide) hu fun y v v' hv => ?_
  refine .ite (fun _ => .pure (hv.weaken .inr) ?_) fun _ => ?_
  · rw [Carrier.types]
  · refine (typeArgList_along m m' hv).bind fun args args' w w' hw hargs => ?_
    exact (expect_along (by decide) hw).after fun _ _ x x' hx => .pure hx hargs
  termination_by n

theorem typeArgList_along (n n' : Nat) {b : Prop} {s s' : ParserState} (h : Abreast J b s s') :
    Along J 1 True (typeArgList n) (typeArgList n') s s' fun args args' =>
      args' = J.carrier.types args := by
  refine .bounded rfl rfl fun m m' hm hm' => ?_
  rw [typeArgList, typeArgList]
  refine (typeArg_along m m' h).bind fun arg arg' u u' hu harg => ?_
  refine .eat (by decide) hu fun y v v' hv => .ite (fun _ => ?_) fun _ => ?_
  · refine (typeArgList_along m m' hv).bind fun rest rest' w w' hw hrest => .pure hw ?_
    rw [Carrier.types, harg, hrest]
  · refine .pure (hv.weaken .inr) ?_
    rw [Carrier.types, Carrier.types, harg]
  termination_by n

theorem typeArg_along (n n' : Nat) {b : Prop} {s s' : ParserState} (h : Abreast J b s s') :
    Along J 1 True (typeArg n) (typeArg n') s s' fun r r' => r' = J.carrier.type r := by
  refine .bounded rfl rfl fun m m' hm hm' => ?_
  rw [typeArg, typeArg]
  refine (skipAnnotations_along h).after fun _ _ u u' hu => .place hu ?_
  refine .eat (by decide) hu fun y v v' hv => .ite (fun hasked => ?_) fun _ => typeWithin_along m m' hv
  have hbegun : Abreast J True v v' := hv.weaken fun _ => .inl hasked
  refine .eat (by decide) hbegun fun y w w' hw => .ite (fun _ => ?_) fun _ => ?_
  · refine (typeWithin_along m m' hw).bind fun r r' x x' hx hr => .spanFrom hx fun place => .pure hx ?_
    rw [Carrier.type, hr]
    rfl
  · refine .eat (by decide) hw fun y x x' hx => .ite (fun _ => ?_) fun _ => ?_
    · refine (typeWithin_along m m' hx).bind fun r r' y y' hy hr => .spanFrom hy fun place => .pure hy ?_
      rw [Carrier.type, hr]
      rfl
    · have hx' : Abreast J True x x' := hx.weaken fun _ => .inr (.inr trivial)
      refine .spanFrom hx' fun place => .pure hx' ?_
      rw [Carrier.type]
      rfl
  termination_by n

end

/-- **Types** are the same, carried over. -/
theorem type_along (h : Abreast J b s s') :
    Along J 1 True type type s s' fun r r' => r' = J.carrier.type r := by
  rw [type]
  exact .steps (typeWithin_along _ _ h)

theorem typesBetween_along {separator : TokenKind} (hsep : separator ≠ .eof) (n n' : Nat)
    {b : Prop} {s s' : ParserState} (h : Abreast J b s s') :
    Along J 1 True (typesBetween separator n) (typesBetween separator n') s s' fun types types' =>
      types' = types.map J.carrier.type := by
  refine .bounded rfl rfl fun m m' hm hm' => ?_
  rw [typesBetween, typesBetween]
  refine (type_along h).bind fun first first' u u' hu hfirst => ?_
  refine .eat hsep hu fun y v v' hv => .ite (fun _ => ?_) fun _ => ?_
  · refine (typesBetween_along hsep m m' hv).bind fun rest rest' w w' hw hrest => .pure hw ?_
    rw [List.map_cons, hfirst, hrest]
  · refine .pure (hv.weaken .inr) ?_
    rw [List.map_singleton, hfirst]
  termination_by n

theorem typeList_along (h : Abreast J b s s') : Along J 1 True typeList typeList s s'
    fun types types' => types' = types.map J.carrier.type := by
  rw [typeList]
  exact .state (typesBetween_along (by decide) _ _ h)

theorem boundList_along (h : Abreast J b s s') : Along J 1 True boundList boundList s s'
    fun types types' => types' = types.map J.carrier.type := by
  rw [boundList]
  exact .state (typesBetween_along (by decide) _ _ h)

theorem typeParam_along (h : Abreast J b s s') :
    Along J 1 True typeParam typeParam s s' fun p p' => p' = J.carrier.typeParam p := by
  rw [typeParam]
  refine (skipAnnotations_along h).after fun _ _ u u' hu => .place hu ?_
  refine (identifier_along hu).bind fun name name' v v' hv hname => .eat (by decide) hv fun y w w' hw => ?_
  have hbegun : Abreast J True w w' := hw.weaken .inr
  refine .join (b := True) (R := fun bounds bounds' => bounds' = bounds.map J.carrier.type) ?_
    fun bounds bounds' x x' hx hbounds => .spanFrom hx fun place => .pure hx ?_
  · exact .ite (fun _ => boundList_along hbegun) fun _ => .pure hbegun rfl
  · rw [hname, hbounds]
    rfl

theorem typeParamList_along (n n' : Nat) {b : Prop} {s s' : ParserState} (h : Abreast J b s s') :
    Along J 1 True (typeParamList n) (typeParamList n') s s' fun params params' =>
      params' = params.map J.carrier.typeParam := by
  refine .bounded rfl rfl fun m m' hm hm' => ?_
  rw [typeParamList, typeParamList]
  refine (typeParam_along h).bind fun first first' u u' hu hfirst => ?_
  refine .eat (by decide) hu fun y v v' hv => .ite (fun _ => ?_) fun _ => ?_
  · refine (typeParamList_along m m' hv).bind fun rest rest' w w' hw hrest => .pure hw ?_
    rw [List.map_cons, hfirst, hrest]
  · refine .pure (hv.weaken .inr) ?_
    rw [List.map_singleton, hfirst]
  termination_by n

theorem typeParams_along (h : Abreast J b s s') : Along J 1 True typeParams typeParams s s'
    fun params params' => params' = params.map J.carrier.typeParam := by
  rw [typeParams]
  refine (expect_along (by decide) h).after fun _ _ u u' hu => .state ?_
  refine (typeParamList_along _ _ hu).bind fun params params' v v' hv hparams => ?_
  exact (expect_along (by decide) hv).after fun _ _ w w' hw => .pure hw hparams

theorem optionalTypeParams_along (h : Abreast J b s s') :
    Along J 1 b optionalTypeParams optionalTypeParams s s'
      fun params params' => params' = params.map J.carrier.typeParam := by
  rw [optionalTypeParams]
  refine .isAt h fun y _ => .ite (fun _ => ?_) fun _ => .pure h rfl
  exact (typeParams_along h).mono (fun _ => trivial) fun _ _ hp => hp

end JavaAbi.Parser
