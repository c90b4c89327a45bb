import JavaAbi.Proofs.Reading

namespace JavaAbi

/-!
# Reading types back

The words of a type are read as this type, whatever follows that does not go on with it.

* `TypeRef.Surface.split` — a type is a plain one in some number of arrays;
* `EndsType` — what does not go on with a type;
* `Parser.type_reads`, `Parser.optionalTypeParams_reads` — types and type parameters.
-/

/-! ### Words of types -/

/-- Whether a word of this kind starts a type. -/
def TokenKind.startsType (k : TokenKind) : Bool := k = .identifier || k = .kwVoid || k.isPrimitive

/-- What follows a type does not go on with it. -/
structure EndsType (rest : List Word) : Prop where
  args : firstKind rest ≠ .less
  segment : firstKind rest ≠ .dot
  dimension : firstKind rest ≠ .leftBracket

theorem EndsType.of_kind {rest : List Word} {k : TokenKind} (h : firstKind rest = k)
    (hk : k ≠ .less ∧ k ≠ .dot ∧ k ≠ .leftBracket) : EndsType rest :=
  ⟨h ▸ hk.1, h ▸ hk.2.1, h ▸ hk.2.2⟩

theorem PrimitiveType.primitive?_word (p : PrimitiveType) :
    Parser.primitive? p.word.1 = some p := by cases p <;> rfl

/-- A type in some number of arrays, without places. -/
def TypeRef.wrapped : Nat → TypeRef → TypeRef
  | 0, r => r
  | n + 1, r => TypeRef.wrapped n (.array r .nowhere)

theorem TypeRef.wrapped_array (n : Nat) (r : TypeRef) :
    TypeRef.wrapped n (.array r .nowhere) = .array (TypeRef.wrapped n r) .nowhere := by
  induction n generalizing r with
  | zero => rfl
  | succ n ih => exact ih _

theorem dimensionWords_succ (n : Nat) :
    dimensionWords (n + 1) = dimensionWords n ++ [.leftBracket, .rightBracket] := by
  induction n with
  | zero => rfl
  | succ n ih => exact congrArg (Word.leftBracket :: Word.rightBracket :: ·) ih

section Shape

variable {t : NameTable}

theorem TypeRef.eachWords_eq_map (types : List TypeRef) :
    TypeRef.eachWords t types = types.map (TypeRef.words t) := by
  induction types with
  | nil => rw [TypeRef.eachWords, List.map_nil]
  | cons r rest ih => rw [TypeRef.eachWords, ih, List.map_cons]

/-- The words of type arguments, if there are any. -/
def argWords (t : NameTable) (args : List TypeRef) : List Word :=
  if args.isEmpty then []
  else .less :: separated .comma (args.map (TypeRef.words t)) ++ [.greater]

theorem ClassSegment.eachWords_cons (name : Name) (args : List TypeRef)
    (segments : List ClassSegment) : ClassSegment.eachWords t (.mk name args :: segments) =
      (name.word t :: argWords t args) :: ClassSegment.eachWords t segments := by
  cases args with
  | nil =>
    rw [ClassSegment.eachWords]
    rfl
  | cons a args =>
    rw [ClassSegment.eachWords, TypeRef.eachWords_eq_map]
    rfl

/-- A type is a primitive type, `void` or a class type in some number of arrays. -/
theorem TypeRef.Surface.split {r : TypeRef} (h : r.Surface t) : ∃ (base : TypeRef) (n : Nat),
    base.Surface t ∧ (∀ component span, base ≠ .array component span) ∧
    r.words t = base.words t ++ dimensionWords n ∧ r.bare = TypeRef.wrapped n base.bare := by
  cases h with
  | primitive =>
    exact ⟨_, 0, .primitive, fun _ _ h => (by cases h), (List.append_nil _).symm, rfl⟩
  | void => exact ⟨_, 0, .void, fun _ _ h => (by cases h), (List.append_nil _).symm, rfl⟩
  | classType filled names args =>
    refine ⟨_, 0, .classType filled names args, fun _ _ h => (by cases h), ?_, rfl⟩
    exact (List.append_nil _).symm
  | array inner =>
    obtain ⟨base, n, hbase, hplain, hwords, hbare⟩ := TypeRef.Surface.split inner
    refine ⟨base, n + 1, hbase, hplain, ?_, ?_⟩
    · rw [TypeRef.words, hwords, dimensionWords_succ, List.append_assoc]
    · rw [TypeRef.bare, hbare]
      exact (TypeRef.wrapped_array n base.bare).symm

/-- The first word of a type. -/
theorem TypeRef.Surface.starts {r : TypeRef} (h : r.Surface t) :
    ∃ w ws, r.words t = w :: ws ∧ w.1.startsType = true := by
  cases h with
  | @primitive p =>
    refine ⟨p.word, [], by rw [TypeRef.words], ?_⟩
    cases p <;> rfl
  | void => exact ⟨.kwVoid, [], by rw [TypeRef.words], rfl⟩
  | @classType segments _ filled =>
    obtain ⟨⟨name, args⟩, segments, rfl⟩ := List.exists_cons_of_ne_nil filled
    refine ⟨name.word t, argWords t args ++ (ClassSegment.eachWords t segments).flatMap (.dot :: ·),
      ?_, rfl⟩
    rw [TypeRef.words, ClassSegment.eachWords_cons]
    rfl
  | array inner =>
    obtain ⟨w, ws, hwords, hw⟩ := TypeRef.Surface.starts inner
    exact ⟨w, ws ++ [.leftBracket, .rightBracket], by rw [TypeRef.words, hwords]; rfl, hw⟩

/-- The first word of a type argument. -/
theorem TypeRef.Argument.starts {r : TypeRef} (h : r.Argument t) :
    ∃ w ws, r.words t = w :: ws ∧ (w.1.startsType = true ∨ w.1 = .question) := by
  cases h with
  | type plain =>
    obtain ⟨w, ws, hwords, hw⟩ := plain.starts
    exact ⟨w, ws, hwords, .inl hw⟩
  | wildcard => exact ⟨.question, [], by rw [TypeRef.words], .inr rfl⟩
  | wildcardExtends inner => exact ⟨.question, _, by rw [TypeRef.words], .inr rfl⟩
  | wildcardSuper inner => exact ⟨.question, _, by rw [TypeRef.words], .inr rfl⟩

end Shape

namespace Parser

variable {t : NameTable} {s : ParserState} {rest : List Word}

/-! ### Types -/

theorem arrayOf_reads {start : Span} (n fuel : Nat) (type : TypeRef) (s : ParserState)
    (hs : s.ahead = dimensionWords n ++ rest) (hrest : firstKind rest ≠ .leftBracket)
    (hf : s.ahead.length ≤ fuel) :
    (arrayOf start fuel type).Reads t s rest fun r => r.bare = TypeRef.wrapped n type.bare := by
  induction n generalizing fuel type s with
  | zero =>
    cases fuel with
    | zero => exact .cutOff hs rfl
    | succ fuel =>
      rw [arrayOf, reads_isAtDimension, s.current_kind, hs]
      rw [show dimensionWords 0 ++ rest = rest from rfl, decide_eq_false hrest, Bool.false_and]
      exact .pure hs rfl
  | succ n ih =>
    cases fuel with
    | zero =>
      rw [hs] at hf
      exact absurd hf (Nat.not_succ_le_zero _)
    | succ fuel =>
      have hs : s.ahead = .leftBracket :: .rightBracket :: (dimensionWords n ++ rest) := hs
      rw [arrayOf, reads_isAtDimension, s.current_kind, s.peek_eq, hs]
      refine .advance hs fun u hu => .advance hu fun v hv => .spanFrom fun place => ?_
      refine ih fuel _ v hv ?_
      have := congrArg List.length hs
      rw [hv]
      simp only [List.length_cons] at this
      omega

/-! Each token pays for five calls, as in the bounds of the parser. -/

mutual

theorem typeWithin_reads {rest : List Word} (fuel : Nat) (r : TypeRef) (s : ParserState)
    (h : r.Surface t) (hs : s.ahead = r.words t ++ rest) (hrest : EndsType rest)
    (hf : 5 * s.ahead.length + 1 ≤ fuel) :
    (typeWithin fuel).Reads t s rest fun a => a.bare = r.bare := by
  match fuel, hf with
  | fuel + 1, hf =>
    -- The type is read without its dimensions first; those are put around it at the end.
    obtain ⟨base, n, hbase, hplain, hwords, hbare⟩ := h.split
    obtain ⟨w, ws, hstart, hw⟩ := h.starts
    have hfirst : firstKind s.ahead = w.1 := by rw [hs, hstart]; rfl
    rw [hwords, List.append_assoc] at hs
    rw [typeWithin]
    refine .unannotated ?_ fun u hu => .place fun start => ?_
    · refine unannotated_of_ne fun hat => ?_
      rw [← hfirst, hat] at hw
      cases hw
    rw [← hu] at hs hf hfirst
    have hdims : firstKind (dimensionWords n ++ rest) ≠ .less ∧
        firstKind (dimensionWords n ++ rest) ≠ .dot := by
      cases n with
      | zero => exact ⟨hrest.args, hrest.segment⟩
      | succ n => exact ⟨of_decide_eq_false rfl, of_decide_eq_false rfl⟩
    -- What is read of the type without dimensions is completed by them.
    have hwrap : ∀ (a : TypeRef) (v : ParserState), a.bare = base.bare →
        v.ahead = dimensionWords n ++ rest →
        (arrayOf start v.remaining a).Reads t v rest fun a => a.bare = r.bare := by
      intro a v ha hv
      rw [hbare, ← ha]
      exact arrayOf_reads n _ a v hv hrest.dimension (Nat.le_of_eq v.remaining_eq_length.symm)
    rw [reads_kind, u.current_kind]
    match base, hbase with
    | .array component span, _ => exact absurd rfl (hplain component span)
    | .primitive p span, _ =>
      have hs : u.ahead = p.word :: (dimensionWords n ++ rest) := hs
      have hk : firstKind u.ahead = p.word.1 := by rw [hs]; rfl
      have hne : p.word.1 ≠ .identifier ∧ p.word.1 ≠ .kwVoid ∧ p.word.1 ≠ .eof := by
        cases p <;> decide
      rw [hk, if_neg hne.1, if_neg hne.2.1, p.primitive?_word]
      refine .advance hs (fun v hv => ?_) hne.2.2
      rw [reads_state]
      exact hwrap _ v rfl hv
    | .void span, _ =>
      have hs : u.ahead = .kwVoid :: (dimensionWords n ++ rest) := hs
      have hk : firstKind u.ahead = .kwVoid := by rw [hs]; rfl
      rw [hk]
      refine .neg (by decide) (.yes rfl (.advance hs fun v hv => ?_))
      rw [reads_state]
      exact hwrap _ v rfl hv
    | .classType segments span, .classType filled names args =>
      rw [TypeRef.words] at hs
      have hk : firstKind u.ahead = .identifier := by
        cases segments with
        | nil => exact absurd rfl filled
        | cons seg segments =>
          cases seg with | mk name sargs =>
          rw [hs, ClassSegment.eachWords_cons]
          rfl
      rw [hk, if_pos rfl]
      refine (classSegments_reads fuel segments u filled names args hs hdims.1 hdims.2 ?_).bind
        fun found v hv hfound => ?_
      · omega
      · rw [reads_state]
        refine .spanFrom fun place => hwrap _ v ?_ hv
        rw [TypeRef.bare, TypeRef.bare, hfound]
termination_by fuel

theorem classSegments_reads {rest : List Word} (fuel : Nat) (segments : List ClassSegment)
    (s : ParserState) (filled : segments ≠ []) (names : ∀ seg ∈ segments, seg.name.Written t)
    (args : ∀ seg ∈ segments, ∀ a ∈ seg.args, a.Argument t)
    (hs : s.ahead = separated .dot (ClassSegment.eachWords t segments) ++ rest)
    (hless : firstKind rest ≠ .less) (hdot : firstKind rest ≠ .dot)
    (hf : 5 * s.ahead.length ≤ fuel + 1) :
    (classSegments fuel).Reads t s rest fun found =>
      ClassSegment.bareAll found = ClassSegment.bareAll segments := by
  match segments, filled with
  | .mk name sargs :: more, _ =>
    obtain ⟨hname, hnames⟩ := List.forall_mem_cons.1 names
    obtain ⟨hargs, hmoreargs⟩ := List.forall_mem_cons.1 args
    have hs : s.ahead = name.word t :: (argWords t sargs ++
        ((ClassSegment.eachWords t more).flatMap (Word.dot :: ·) ++ rest)) := by
      rw [hs, ClassSegment.eachWords_cons, separated, List.cons_append, List.cons_append,
        List.append_assoc]
    have hslen := congrArg List.length hs
    rw [List.length_cons, List.length_append] at hslen
    match fuel, hf with
    | 0, hf => omega
    | fuel + 1, hf =>
      rw [classSegments]
      refine .ident hs hname.1 fun u hu => ?_
      rw [reads_isAt, u.current_kind]
      -- Arguments are read exactly where the segment has some: nothing else starts with `<` here.
      have hread : (if decide (firstKind u.ahead = .less) = true then typeArgs fuel
          else pure []).Reads t u ((ClassSegment.eachWords t more).flatMap (Word.dot :: ·) ++ rest)
          fun found => TypeRef.bareAll found = TypeRef.bareAll sargs := by
        cases sargs with
        | nil =>
          rw [if_neg]
          · exact .pure hu rfl
          · rw [hu, decide_eq_true_iff]
            cases more with
            | nil => exact hless
            | cons seg more => cases seg with | mk next nargs =>
              rw [ClassSegment.eachWords_cons]
              exact of_decide_eq_false rfl
        | cons a sargs =>
          rw [if_pos (by rw [hu]; rfl)]
          refine typeArgs_reads fuel (a :: sargs) u (List.cons_ne_nil a sargs) hargs hu ?_
          rw [hu, List.length_append]
          omega
      refine .join hread fun found v hv hfound => ?_
      rw [← hv] at hslen
      rw [reads_peek, reads_isAt, v.current_kind, v.peek_eq, hv]
      -- A dot follows exactly where more segments do.
      match more with
      | [] =>
        have hnot : firstKind
            ((ClassSegment.eachWords t []).flatMap (Word.dot :: ·) ++ rest) ≠ .dot := hdot
        rw [decide_eq_false hnot, Bool.false_and, if_neg Bool.false_ne_true]
        refine .pure hv ?_
        rw [ClassSegment.bareAll, ClassSegment.bareAll, hfound]
        rfl
      | .mk next nargs :: more =>
        have hv : v.ahead = .dot :: (separated .dot (ClassSegment.eachWords t
            (.mk next nargs :: more)) ++ rest) := by
          rw [hv, ClassSegment.eachWords_cons]
          rfl
        rw [ClassSegment.eachWords_cons]
        refine .yes rfl ?_
        refine .advance hv fun x hx => .unannotated ?_ fun y hy => ?_
        · rw [hx, ClassSegment.eachWords_cons]
          exact unannotated_of_ne (of_decide_eq_false rfl)
        · rw [hx] at hy
          -- Every segment leaves less to read, so the steps suffice for the others.
          refine (classSegments_reads fuel (.mk next nargs :: more) y (List.cons_ne_nil _ _) hnames
            hmoreargs hy hless hdot ?_).bind fun found' z hz hfound' => .pure hz ?_
          · rw [hv, List.length_cons, ← hy] at hslen
            omega
          · rw [ClassSegment.bareAll, hfound, hfound']
            rfl
termination_by fuel

theorem typeArgs_reads {rest : List Word} (fuel : Nat) (args : List TypeRef) (s : ParserState)
    (filled : args ≠ []) (h : ∀ a ∈ args, a.Argument t) (hs : s.ahead = argWords t args ++ rest)
    (hf : 5 * s.ahead.length + 3 ≤ fuel) :
    (typeArgs fuel).Reads t s rest fun found => TypeRef.bareAll found = TypeRef.bareAll args := by
  match fuel, hf with
  | fuel + 1, hf =>
    rw [argWords, if_neg (by simpa using filled), List.cons_append, List.cons_append,
      List.append_assoc] at hs
    rw [typeArgs]
    refine .expect hs rfl fun u hu => ?_
    -- There are arguments, so the brackets are not empty.
    have hnot : firstKind u.ahead ≠ .greater := by
      cases args with
      | nil => exact absurd rfl filled
      | cons a args =>
        obtain ⟨w, ws, hwords, hw⟩ := (h a List.mem_cons_self).starts
        rw [hu, List.map_cons, hwords]
        rintro (hgreater : w.1 = .greater)
        rw [hgreater] at hw
        cases hw with
        | inl hw => cases hw
        | inr hw => cases hw
    refine .eat_no hnot ?_
    rw [if_neg Bool.false_ne_true]
    have := congrArg List.length hs
    have := congrArg List.length hu
    simp only [List.length_cons] at *
    refine (typeArgList_reads fuel args u filled h hu rfl ?_).bind fun found v hv hfound => ?_
    · omega
    · exact .expect hv rfl fun x hx => .pure hx hfound
termination_by fuel

theorem typeArgList_reads {rest : List Word} (fuel : Nat) (args : List TypeRef) (s : ParserState)
    (filled : args ≠ []) (h : ∀ a ∈ args, a.Argument t)
    (hs : s.ahead = separated .comma (args.map (TypeRef.words t)) ++ rest)
    (hrest : firstKind rest = .greater) (hf : 5 * s.ahead.length + 7 ≤ fuel) :
    (typeArgList fuel).Reads t s rest fun found =>
      TypeRef.bareAll found = TypeRef.bareAll args := by
  match fuel, hf with
  | fuel + 1, hf =>
    rw [typeArgList]
    match args, filled with
    | [a], _ =>
      rw [List.map_singleton, separated_singleton] at hs
      refine (typeArg_reads fuel a s (h a List.mem_cons_self) hs (.inr hrest) (by omega)).bind
        fun found u hu hfound => ?_
      -- Behind the last argument comes the closing bracket, behind any other one a comma.
      refine .eat_no (by rw [hu, hrest]; exact of_decide_eq_false rfl) ?_
      rw [if_neg Bool.false_ne_true]
      refine .pure hu ?_
      rw [TypeRef.bareAll, TypeRef.bareAll, hfound]
      rfl
    | a :: b :: args, _ =>
      rw [List.map_cons, List.map_cons, separated_cons_cons, List.append_assoc,
        List.cons_append] at hs
      refine (typeArg_reads fuel a s (h a List.mem_cons_self) hs (.inl rfl) (by omega)).bind
        fun found u hu hfound => ?_
      refine .eat_yes hu rfl fun v hv => ?_
      rw [if_pos rfl]
      have := congrArg List.length hs
      have := congrArg List.length hv
      simp only [List.length_append, List.length_cons] at *
      refine (typeArgList_reads fuel (b :: args) v (List.cons_ne_nil _ _)
        (fun c hc => h c (List.mem_cons_of_mem a hc)) hv hrest ?_).bind fun more x hx hmore => ?_
      · omega
      · refine .pure hx ?_
        rw [TypeRef.bareAll, hfound, hmore]
        rfl
termination_by fuel

theorem typeArg_reads {rest : List Word} (fuel : Nat) (a : TypeRef) (s : ParserState)
    (h : a.Argument t) (hs : s.ahead = a.words t ++ rest)
    (hrest : firstKind rest = .comma ∨ firstKind rest = .greater)
    (hf : 5 * s.ahead.length + 6 ≤ fuel) :
    (typeArg fuel).Reads t s rest fun found => found.bare = a.bare := by
  match fuel, hf with
  | fuel + 1, hf =>
    have hends : EndsType rest := by
      cases hrest with
      | inl hrest => exact .of_kind hrest (by decide)
      | inr hrest => exact .of_kind hrest (by decide)
    obtain ⟨w, ws, hwords, hw⟩ := h.starts
    have hfirst : firstKind s.ahead = w.1 := by rw [hs, hwords]; rfl
    rw [typeArg]
    refine .unannotated ?_ fun u hu => .place fun start => ?_
    · refine unannotated_of_ne fun hat => ?_
      rw [← hfirst, hat] at hw
      cases hw with
      | inl hw => cases hw
      | inr hw => cases hw
    rw [← hu] at hs hf
    match a, h with
    -- A plain type does not begin with a question mark.
    | r, .type plain =>
      refine .eat_no ?_ ?_
      · obtain ⟨w, ws, hwords, hw⟩ := plain.starts
        rw [hs, hwords]
        rintro (hquestion : w.1 = .question)
        rw [hquestion] at hw
        cases hw
      · rw [if_neg Bool.false_ne_true]
        exact typeWithin_reads fuel r u plain hs hends (by omega)
    | .wildcard span, _ =>
      have hs : u.ahead = .question :: rest := hs
      refine .eat_yes hs rfl fun v hv => ?_
      rw [if_pos rfl]
      -- What follows an argument is neither of the words that begin a bound.
      have hnot : firstKind v.ahead ≠ .kwExtends ∧ firstKind v.ahead ≠ .kwSuper := by
        rw [hv]
        cases hrest with
        | inl hrest => exact ⟨by rw [hrest]; decide, by rw [hrest]; decide⟩
        | inr hrest => exact ⟨by rw [hrest]; decide, by rw [hrest]; decide⟩
      refine .eat_no hnot.1 ?_
      rw [if_neg Bool.false_ne_true]
      refine .eat_no hnot.2 ?_
      rw [if_neg Bool.false_ne_true]
      exact .spanFrom fun place => .pure hv rfl
    | .wildcardExtends bound span, .wildcardExtends inner =>
      have hs : u.ahead = .question :: .kwExtends :: (bound.words t ++ rest) := hs
      refine .eat_yes hs rfl fun v hv => ?_
      rw [if_pos rfl]
      refine .eat_yes hv rfl fun x hx => ?_
      rw [if_pos rfl]
      refine (typeWithin_reads fuel bound x inner hx hends ?_).bind fun found y hy hfound => ?_
      · rw [hs] at hf
        rw [hx]
        simp only [List.length_cons] at hf
        omega
      · exact .spanFrom fun place => .pure hy (by rw [TypeRef.bare, TypeRef.bare, hfound])
    | .wildcardSuper bound span, .wildcardSuper inner =>
      have hs : u.ahead = .question :: .kwSuper :: (bound.words t ++ rest) := hs
      refine .eat_yes hs rfl fun v hv => ?_
      rw [if_pos rfl]
      refine .eat_no (by rw [hv]; exact of_decide_eq_false rfl) ?_
      rw [if_neg Bool.false_ne_true]
      refine .eat_yes hv rfl fun x hx => ?_
      rw [if_pos rfl]
      refine (typeWithin_reads fuel bound x inner hx hends ?_).bind fun found y hy hfound => ?_
      · rw [hs] at hf
        rw [hx]
        simp only [List.length_cons] at hf
        omega
      · exact .spanFrom fun place => .pure hy (by rw [TypeRef.bare, TypeRef.bare, hfound])
termination_by fuel

end

theorem type_reads {r : TypeRef} (h : r.Surface t) (hs : s.ahead = r.words t ++ rest)
    (hrest : EndsType rest) : type.Reads t s rest fun a => a.bare = r.bare := by
  rw [type, reads_steps]
  exact typeWithin_reads _ r s h hs hrest (by rw [s.remaining_eq_length]; omega)

theorem typesBetween_reads (separator : Word) (hplain : EndsType [separator])
    (heof : separator.1 ≠ .eof) {types : List TypeRef} (filled : types ≠ [])
    (h : ∀ r ∈ types, r.Surface t)
    (hs : s.ahead = separated separator (types.map (TypeRef.words t)) ++ rest)
    (hrest : EndsType rest) (hother : firstKind rest ≠ separator.1) :
    (typesBetween separator.1 s.remaining).Reads t s rest fun found =>
      found.map TypeRef.bare = types.map TypeRef.bare := by
  refine .between separator (fun fuel => rfl) hother types s.remaining s filled
    (fun r hr u after hafter hu => type_reads (h r hr) hu ?_) hs ?_ heof
  · cases hafter.firstKind with
    | inl hafter => rwa [hafter]
    | inr hafter => exact .of_kind hafter ⟨hplain.args, hplain.segment, hplain.dimension⟩
  · rw [s.remaining_eq_length, hs, List.length_append, ← List.length_map (TypeRef.words t)]
    refine Nat.le_trans (length_le_separated separator fun piece hpiece => ?_)
      (Nat.le_add_right _ _)
    obtain ⟨r, hr, rfl⟩ := List.mem_map.1 hpiece
    obtain ⟨w, ws, hwords, -⟩ := (h r hr).starts
    rw [hwords]
    exact List.cons_ne_nil w ws

theorem typeList_reads {types : List TypeRef} (filled : types ≠ []) (h : ∀ r ∈ types, r.Surface t)
    (hs : s.ahead = separated .comma (types.map (TypeRef.words t)) ++ rest)
    (hrest : EndsType rest) (hother : firstKind rest ≠ .comma) :
    typeList.Reads t s rest fun found => found.map TypeRef.bare = types.map TypeRef.bare := by
  rw [typeList, reads_state]
  exact typesBetween_reads .comma (.of_kind rfl (by decide)) (by decide) filled h hs hrest hother

theorem boundList_reads {types : List TypeRef} (filled : types ≠ []) (h : ∀ r ∈ types, r.Surface t)
    (hs : s.ahead = separated .ampersand (types.map (TypeRef.words t)) ++ rest)
    (hrest : EndsType rest) (hother : firstKind rest ≠ .ampersand) :
    boundList.Reads t s rest fun found => found.map TypeRef.bare = types.map TypeRef.bare := by
  rw [boundList, reads_state]
  exact typesBetween_reads .ampersand (.of_kind rfl (by decide)) (by decide) filled h hs hrest hother

/-- A clause of types that may be missing. -/
theorem Reads.clause {α : Type} {p q : Parser α} {P : α → Prop} (keyword separator : Word)
    {types : List TypeRef} {after : List Word}
    (hs : s.ahead = clauseWords t keyword separator types ++ after) (hafter : firstKind after ≠ keyword.1)
    (hyes : types ≠ [] → ∀ u : ParserState,
      u.ahead = separated separator (types.map (TypeRef.words t)) ++ after → p.Reads t u rest P)
    (hno : types = [] → s.ahead = after → q.Reads t s rest P)
    (heof : keyword.1 ≠ .eof := by decide) :
    (eat keyword.1 >>= fun eaten => if eaten = true then p else q).Reads t s rest P := by
  cases types with
  | nil => exact .eat_no (by rwa [hs]) (.no rfl (hno rfl hs))
  | cons r types =>
    exact .eat_yes hs rfl (fun u hu => .yes rfl (hyes (List.cons_ne_nil _ _) u hu)) heof

/-! ### Type parameters -/

theorem typeParam_reads {p : TypeParam} (h : p.Surface t) (hs : s.ahead = p.words t ++ rest)
    (hrest : firstKind rest = .comma ∨ firstKind rest = .greater) :
    typeParam.Reads t s rest fun found => found.bare = p.bare := by
  have hends : EndsType rest ∧ firstKind rest ≠ .kwExtends ∧ firstKind rest ≠ .ampersand := by
    cases hrest with
    | inl hrest => exact ⟨.of_kind hrest (by decide), by rw [hrest]; decide, by rw [hrest]; decide⟩
    | inr hrest => exact ⟨.of_kind hrest (by decide), by rw [hrest]; decide, by rw [hrest]; decide⟩
  have hend : ∀ (start : Span) (bounds : List TypeRef) (x : ParserState), x.ahead = rest →
      bounds.map TypeRef.bare = p.bounds.map TypeRef.bare →
      (do return ⟨p.name, bounds, ← spanFrom start⟩ : Parser TypeParam).Reads t x rest
        fun found => found.bare = p.bare := fun start bounds x hx hb =>
    .spanFrom fun place => .pure hx (by rw [TypeParam.bare, hb]; rfl)
  rw [typeParam]
  refine .unannotated (unannotated_of_ne (by rw [hs]; exact of_decide_eq_false rfl)) fun u hu => ?_
  rw [← hu] at hs
  refine .place fun start => .ident hs h.name.1 fun v hv => ?_
  refine .clause .kwExtends .ampersand hv hends.2.1 (fun filled x hx => ?_) fun hnone hv => ?_
  · exact (boundList_reads filled h.bounds hx hends.1 hends.2.2).bind fun bounds y hy hb =>
      hend start bounds y hy hb
  · exact hend start [] v hv (by rw [hnone])

theorem typeParams_reads {params : List TypeParam} (filled : params ≠ [])
    (h : ∀ p ∈ params, p.Surface t) (hs : s.ahead = typeParamWords t params ++ rest) :
    typeParams.Reads t s rest fun found =>
      found.map TypeParam.bare = params.map TypeParam.bare := by
  rw [typeParamWords, if_neg (by simpa using filled), List.cons_append, List.cons_append,
    List.append_assoc] at hs
  rw [typeParams]
  refine .expect hs rfl fun u hu => ?_
  rw [reads_state]
  refine (Reads.between .comma (fun fuel => rfl) (by exact of_decide_eq_false rfl) params _ u filled
    (fun p hp v after hafter hv => typeParam_reads (h p hp) hv ?_) hu ?_).bind
    fun found v hv hfound => .expect hv rfl fun x hx => .pure hx hfound
  · cases hafter.firstKind with
    | inl hafter => exact .inr (by rw [hafter]; rfl)
    | inr hafter => exact .inl hafter
  · rw [u.remaining_eq_length, hu, List.length_append, ← List.length_map (TypeParam.words t)]
    refine Nat.le_trans (length_le_separated .comma fun piece hpiece => ?_) (by omega)
    obtain ⟨p, hp, rfl⟩ := List.mem_map.1 hpiece
    exact List.cons_ne_nil _ _

theorem optionalTypeParams_reads {params : List TypeParam} (h : ∀ p ∈ params, p.Surface t)
    (hs : s.ahead = typeParamWords t params ++ rest) (hrest : firstKind rest ≠ .less) :
    optionalTypeParams.Reads t s rest fun found =>
      found.map TypeParam.bare = params.map TypeParam.bare := by
  rw [optionalTypeParams]
  cases params with
  | nil =>
    refine .isAt_no (by rwa [hs]) (.no rfl (.pure hs rfl))
  | cons p params =>
    refine .isAt_yes (by rw [hs]; rfl) (.yes rfl ?_)
    exact typeParams_reads (List.cons_ne_nil _ _) h hs

end Parser

end JavaAbi
