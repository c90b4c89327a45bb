import JavaAbi.Proofs.Initializers
import JavaAbi.Proofs.ReadTypes

namespace JavaAbi

/-!
# Reading fields and headers back

* `Parser.modifiers_reads` — modifiers, with `sealed` and `non-sealed` where a declaration goes on;
* `Parser.field_reads`, `Parser.components_reads` — fields and the components of records;
* `Parser.extendsClause_reads`, `Parser.implementsClause_reads` — the clauses of a header;
* `Parser.plainMember_reads` — a field among the members of a declaration.
-/

/-! ### Modifiers -/

/-- No modifier and no annotation stands here. -/
structure NoModifier (ws : List Word) : Prop where
  keyword : Parser.modifier? (firstKind ws) = none
  plain : ∀ w ∈ ws.head?, w.1 = .identifier → w.2 ≠ "sealed" ∧ w.2 ≠ "non"
  unannotated : Parser.Unannotated ws

theorem NoModifier.of_kind {ws : List Word} (h : Parser.modifier? (firstKind ws) = none)
    (hident : firstKind ws ≠ .identifier) (hat : firstKind ws ≠ .atSign) : NoModifier ws where
  keyword := h
  plain w hw hk := absurd (by rw [firstKind, hw]; exact hk) hident
  unannotated := Parser.unannotated_of_ne hat

/-- A modifier is written with a word. -/
theorem Modifier.exists_words (m : Modifier) : ∃ w ws, m.words = w :: ws := by
  cases m <;> exact ⟨_, _, rfl⟩

theorem Modifier.words_ne_eof {m : Modifier} : ∀ w ∈ m.words, w.1 ≠ .eof := by
  cases m <;> decide

/-- After `sealed` and `non-sealed` a declaration goes on with what follows some modifiers. -/
theorem Modifier.firstKind_continues {ms : List Modifier} {rest : List Word}
    (h : ∀ m ∈ ms, m.isContextual = false)
    (hrest : Parser.continuesDeclaration (firstKind rest) = true) :
    Parser.continuesDeclaration (firstKind (ms.flatMap Modifier.words ++ rest)) = true := by
  cases ms with
  | nil => exact hrest
  | cons m ms =>
    have hm := h m List.mem_cons_self
    cases m <;> first | rfl | cases hm

/-- A kind of word that starts no modifier does not start words that modifiers come first in. -/
theorem Modifier.firstKind_ne {ms : List Modifier} {rest : List Word} {k : TokenKind}
    (hk : ∀ m : Modifier, firstKind m.words ≠ k) (hrest : firstKind rest ≠ k) :
    firstKind (ms.flatMap Modifier.words ++ rest) ≠ k := by
  cases ms with
  | nil => exact hrest
  | cons m ms =>
    obtain ⟨w, ws, hwords⟩ := m.exists_words
    have := hk m
    rw [List.flatMap_cons, hwords]
    rwa [hwords] at this

namespace Parser

variable {t : NameTable} {s : ParserState} {mid rest : List Word}

theorem currentModifier?_words {m : Modifier} (hs : s.ahead = m.words ++ rest)
    (hgoes : m.isContextual = true → continuesDeclaration (firstKind rest) = true) :
    currentModifier? s = some (m, m.words.length) := by
  unfold currentModifier?
  rw [s.current_kind, s.peek_eq, s.peek_eq, hs]
  cases m with
  | sealed =>
    have htext : s.current.text = "sealed" := s.current_text hs
    show (if _ then none else if _ then _ else _) = _
    rw [if_neg (fun h => h rfl), if_pos]
    · rfl
    · rw [htext]
      exact hgoes rfl
  | nonSealed =>
    have htext : s.current.text = "non" := s.current_text hs
    have htext' : s.peekText 2 = "sealed" := s.peekText_eq (w := .ident "sealed") (by rw [hs]; rfl)
    show (if _ then none else if _ then _ else if _ then _ else _) = _
    rw [if_neg (fun h => h rfl), if_neg, if_pos]
    · rfl
    · rw [htext, htext']
      exact hgoes rfl
    · rw [htext]
      exact of_decide_eq_false rfl
  | _ => rfl

theorem currentModifier?_none (h : NoModifier s.ahead) : currentModifier? s = none := by
  unfold currentModifier?
  rw [s.current_kind, h.keyword]
  show (if _ then none else if _ then _ else if _ then _ else _) = _
  by_cases hk : firstKind s.ahead = .identifier
  · cases hahead : s.ahead with
    | nil =>
      rw [hahead] at hk
      cases hk
    | cons w ws =>
      have htext := s.current_text hahead
      obtain ⟨hsealed, hnon⟩ := h.plain w (by rw [hahead]; rfl) (by rwa [hahead] at hk)
      rw [← hahead, if_neg (fun h => h hk), if_neg, if_neg]
      · rw [htext, beq_false_of_ne hnon]
        exact of_decide_eq_false rfl
      · rw [htext, beq_false_of_ne hsealed]
        exact of_decide_eq_false rfl
  · rw [if_pos hk]

theorem advanceBy_reads (ws : List Word) (hs : s.ahead = ws ++ rest) (hws : ∀ w ∈ ws, w.1 ≠ .eof) :
    (advanceBy ws.length).Reads t s rest fun _ => True := by
  induction ws generalizing s with
  | nil => exact .pure hs trivial
  | cons w ws ih =>
    obtain ⟨hw, hws⟩ := List.forall_mem_cons.1 hws
    rw [List.length_cons, advanceBy]
    exact .advance hs (fun u hu => ih hu hws) hw

theorem modifiersAfter_reads (fuel : Nat) (found ms : List Modifier) (s : ParserState)
    (hs : s.ahead = ms.flatMap Modifier.words ++ rest) (hnodup : (found ++ ms).Nodup)
    (hcontextual : (ms.filter Modifier.isContextual).length ≤ 1)
    (hgoes : ∀ m ∈ ms, m.isContextual = true → continuesDeclaration (firstKind rest) = true)
    (hrest : NoModifier rest) (hf : s.ahead.length ≤ fuel) :
    (modifiersAfter fuel found).Reads t s rest fun all => all = found ++ ms := by
  induction ms generalizing fuel found s with
  | nil =>
    have hs : s.ahead = rest := hs
    rw [List.append_nil]
    cases fuel with
    | zero => exact .cutOff hs rfl
    | succ fuel =>
      rw [← hs] at hrest
      rw [modifiersAfter]
      refine isAtAnnotation_no hrest.unannotated (.no rfl ?_)
      rw [reads_state, currentModifier?_none hrest]
      exact .pure hs rfl
  | cons m ms ih =>
    obtain ⟨hm, hms⟩ := List.forall_mem_cons.1 hgoes
    obtain ⟨w, ws, hwords⟩ := m.exists_words
    rw [List.flatMap_cons, List.append_assoc] at hs
    have hlen := congrArg List.length hs
    rw [List.length_append, hwords, List.length_cons] at hlen
    cases fuel with
    | zero => omega
    | succ fuel =>
      -- `sealed` and `non-sealed` come once, so that keywords follow
      have hother : m.isContextual = true → ∀ x ∈ ms, x.isContextual = false := by
        intro hc x hx
        rw [List.filter_cons_of_pos hc, List.length_cons] at hcontextual
        have hnil := List.length_eq_zero_iff.1 (Nat.le_zero.1 (Nat.le_of_succ_le_succ hcontextual))
        exact eq_false_of_ne_true (List.filter_eq_nil_iff.1 hnil x hx)
      rw [modifiersAfter]
      refine isAtAnnotation_no (unannotated_of_ne ?_) (.no rfl ?_)
      · rw [hs]
        cases m <;> exact of_decide_eq_false rfl
      have hcurrent : currentModifier? s = some (m, m.words.length) :=
        currentModifier?_words hs fun hc => Modifier.firstKind_continues (hother hc) (hm hc)
      rw [reads_state, hcurrent]
      refine (advanceBy_reads m.words hs Modifier.words_ne_eof).bind fun _ u hu _ => ?_
      have hadd : addModifier m found = found ++ [m] := by
        rw [addModifier, if_neg]
        rw [List.contains_iff_mem]
        exact fun hmem => (List.nodup_append.1 hnodup).2.2 m hmem m List.mem_cons_self rfl
      rw [hadd, List.append_cons found m ms]
      rw [List.append_cons] at hnodup
      refine ih fuel (found ++ [m]) u hu hnodup ?_ hms ?_
      · exact Nat.le_trans ((List.sublist_cons_self m ms).filter _).length_le hcontextual
      · rw [hu]
        omega

/-- The modifiers of a declaration, up to a word that is none. -/
theorem modifiers_reads {ms : List Modifier} (hs : s.ahead = ms.flatMap Modifier.words ++ rest)
    (hnodup : ms.Nodup) (hcontextual : (ms.filter Modifier.isContextual).length ≤ 1)
    (hgoes : ∀ m ∈ ms, m.isContextual = true → continuesDeclaration (firstKind rest) = true)
    (hrest : NoModifier rest) : modifiers.Reads t s rest (· = ms) := by
  rw [modifiers, reads_state]
  exact modifiersAfter_reads _ [] ms s hs hnodup hcontextual hgoes hrest
    (Nat.le_of_eq s.remaining_eq_length.symm)

/-! ### Fields -/

theorem dimensions_reads (n fuel : Nat) (s : ParserState) (hs : s.ahead = dimensionWords n ++ rest)
    (hrest : firstKind rest ≠ .leftBracket) (hf : s.ahead.length ≤ fuel) :
    (dimensions fuel).Reads t s rest (· = n) := by
  induction n generalizing fuel s with
  | zero =>
    have hs : s.ahead = rest := hs
    cases fuel with
    | zero => exact .cutOff hs rfl
    | succ fuel =>
      rw [dimensions, reads_isAtDimension, s.current_kind, hs, decide_eq_false hrest,
        Bool.false_and]
      exact .no rfl (.pure hs rfl)
  | succ n ih =>
    have hs : s.ahead = .leftBracket :: .rightBracket :: (dimensionWords n ++ rest) := hs
    have hlen := congrArg List.length hs
    rw [List.length_cons, List.length_cons] at hlen
    cases fuel with
    | zero => omega
    | succ fuel =>
      rw [dimensions, reads_isAtDimension, s.current_kind, s.peek_eq, hs]
      refine .yes rfl (.advance hs fun u hu => .advance hu fun v hv => ?_)
      refine (ih fuel v hv (by rw [hv]; omega)).bind fun k x hx hk => .pure hx (by rw [hk])

/-- A variable of a field with its initializer. -/
def declarator : Parser Variable := do
  let span ← currentSpan
  let name ← identifier
  let dims ← dimensions (← state).remaining
  skipInitializer
  return ⟨name, dims, span⟩

theorem declarators_succ (fuel : Nat) : declarators (fuel + 1) = declarator >>= fun v =>
    eat Word.comma.1 >>= fun more =>
      if more = true then declarators fuel >>= fun vs => pure (v :: vs) else pure [v] := rfl

theorem declarator_reads {v : InitializedVariable} (h : v.Readable t)
    (hs : s.ahead = v.words t ++ rest) (hrest : EndsInitializer rest) :
    declarator.Reads t s rest fun found => found.bare = v.declared.bare := by
  rw [InitializedVariable.words, List.append_assoc] at hs
  rw [declarator]
  refine .place fun span => .ident hs h.issued fun u hu => ?_
  rw [reads_state]
  refine (dimensions_reads v.declared.dims _ u hu ?_ (Nat.le_of_eq u.remaining_eq_length.symm)).bind
    fun n x hx hn => (skipInitializer_reads h hrest hx).bind fun _ y hy _ => .pure hy ?_
  · cases v.value with
    | none => exact hrest.firstKind_ne (by decide)
    | some ws => exact of_decide_eq_false rfl
  · rw [hn]
    rfl

theorem declarators_reads {f : WrittenField} (h : f.Readable t)
    (hs : s.ahead = f.variableWords t ++ rest) (hrest : firstKind rest = .semicolon) :
    (declarators (s.remaining + 1)).Reads t s rest fun found =>
      found.map Variable.bare = f.vars.map fun v => v.declared.bare := by
  refine .between .comma declarators_succ (by rw [hrest]; decide) f.vars _ s h.filled
    (fun v hv u after hafter hu => declarator_reads (h.vars v hv) hu ?_) hs ?_
  · rcases hafter with rfl | ⟨next, -, more, hmore, rfl⟩
    · exact .inl hrest
    · refine .inr ⟨rfl, next.startsVariable t ?_⟩
      rcases hmore with rfl | hmore
      · exact .inl hrest
      · exact .inr hmore
  · rw [s.remaining_eq_length, hs, List.length_append, WrittenField.variableWords,
      ← List.length_map (InitializedVariable.words t)]
    refine Nat.le_trans (length_le_separated .comma fun piece hpiece => ?_) (by omega)
    obtain ⟨v, hv, rfl⟩ := List.mem_map.1 hpiece
    exact List.cons_ne_nil _ _

theorem field_reads {start : Span} {type : TypeRef} {f : WrittenField} (h : f.Readable t)
    (htype : type.bare = f.type.bare)
    (hs : s.ahead = f.variableWords t ++ .semicolon :: rest) :
    (field start f.modifiers type).Reads t s rest fun found => found.bare = f.decl.bare := by
  rw [field, reads_state]
  refine (declarators_reads h hs rfl).bind fun found u hu hfound => ?_
  have hend : endField.Reads t u rest fun _ => True := by
    rw [endField]
    exact .eat_yes hu rfl fun v hv => .yes rfl (.pure hv trivial)
  refine hend.bind fun _ v hv _ => .spanFrom fun place => .pure hv ?_
  rw [FieldDecl.bare, FieldDecl.bare, WrittenField.decl, hfound, htype, List.map_map]
  rfl

/-! ### Components of records -/

theorem component_reads {f : FieldDecl} (hshape : f.isComponent = true) (h : f.Surface t)
    (hs : s.ahead = f.componentWords t ++ rest) :
    component.Reads t s rest fun found => found.bare = f.bare := by
  obtain ⟨ms, type, vars, span⟩ := f
  rw [FieldDecl.isComponent, Bool.and_eq_true, decide_eq_true_iff, decide_eq_true_iff] at hshape
  -- A component is a private final field with one variable, written without these modifiers.
  obtain ⟨rfl, hvars⟩ : ms = [.privateAccess, .final] ∧ vars.map Variable.dims = [0] := hshape
  obtain ⟨v, rfl, hdims⟩ := List.map_eq_singleton_iff.1 hvars
  have hs : s.ahead = type.words t ++ v.name.word t :: rest := by
    rw [hs, FieldDecl.componentWords, List.map_singleton, separated_singleton, Variable.words,
      hdims, List.append_assoc]
    rfl
  obtain ⟨w, ws, hwords, hw⟩ := h.type.starts
  rw [component]
  refine .place fun start => .unannotated (unannotated_of_ne ?_) fun u hu => ?_
  · rw [hs, hwords]
    rintro (hat : w.1 = .atSign)
    rw [hat] at hw
    cases hw
  rw [hs] at hu
  have htype : (componentType start).Reads t u (v.name.word t :: rest) fun found =>
      found.bare = type.bare := by
    rw [componentType]
    exact (type_reads h.type hu (EndsType.of_kind (k := .identifier) rfl (by decide))).bind fun found x hx hfound =>
      .eat_no (by rw [hx]; exact of_decide_eq_false rfl) (.no rfl (.pure hx hfound))
  refine htype.bind fun found x hx hfound => .place fun nameSpan => ?_
  refine .ident hx (h.names v List.mem_cons_self).1 fun y hy => .spanFrom fun place => .pure hy ?_
  rw [FieldDecl.bare, FieldDecl.bare, hfound, List.map_singleton, List.map_singleton, Variable.bare,
    Variable.bare, hdims]

theorem componentList_reads (fields : List FieldDecl) (fuel : Nat) (s : ParserState)
    (hshape : ∀ f ∈ fields, f.isComponent = true) (h : ∀ f ∈ fields, f.Surface t)
    (hs : s.ahead = separated .comma (fields.map (FieldDecl.componentWords t)) ++
      .rightParen :: rest) (hf : s.ahead.length ≤ fuel) :
    (componentList fuel).Reads t s (.rightParen :: rest) fun found =>
      found.map FieldDecl.bare = fields.map FieldDecl.bare := by
  induction fields generalizing fuel s with
  | nil =>
    have hs : s.ahead = .rightParen :: rest := hs
    cases fuel with
    | zero => exact .cutOff hs rfl
    | succ fuel =>
      rw [componentList]
      rw [reads_isAt, reads_isAt, s.current_kind, hs]
      exact .yes rfl (.pure hs rfl)
  | cons f fields ih =>
    obtain ⟨hf₁, hshape⟩ := List.forall_mem_cons.1 hshape
    obtain ⟨hf₂, h⟩ := List.forall_mem_cons.1 h
    obtain ⟨w, ws, hwords, hw⟩ := hf₂.type.starts
    have hfirst : firstKind s.ahead = w.1 := by
      rw [hs, List.map_cons, separated, FieldDecl.componentWords, hwords]
      rfl
    have hlen : 0 < s.ahead.length := by
      rw [hs, List.map_cons, separated, FieldDecl.componentWords, hwords]
      exact Nat.succ_pos _
    cases fuel with
    | zero => omega
    | succ fuel =>
      rw [componentList]
      -- A component begins with its type, so the list is not at its end.
      refine .isAt_no (fun hk => ?_) (.isAt_no (fun hk => ?_) (.no rfl ?_))
      · rw [← hfirst, hk] at hw
        cases hw
      · rw [← hfirst, hk] at hw
        cases hw
      cases fields with
      | nil =>
        rw [List.map_singleton, separated_singleton] at hs
        refine (component_reads hf₁ hf₂ hs).bind fun found u hu hfound => ?_
        refine .eat_no (by rw [hu]; exact of_decide_eq_false rfl) (.no rfl (.pure hu ?_))
        rw [List.map_singleton, List.map_singleton, hfound]
      | cons next fields =>
        rw [List.map_cons, List.map_cons, separated_cons_cons, List.append_assoc,
          List.cons_append] at hs
        refine (component_reads hf₁ hf₂ hs).bind fun found u hu hfound => ?_
        refine .eat_yes hu rfl fun v hv => .yes rfl ?_
        have := congrArg List.length hs
        rw [List.length_append, List.length_cons, ← hv] at this
        refine (ih fuel v hshape h hv (by omega)).bind fun more x hx hmore => .pure hx ?_
        rw [List.map_cons, List.map_cons, hfound, hmore]

/-- The components of a record in parentheses. -/
theorem components_reads {fields : List FieldDecl} (hshape : ∀ f ∈ fields, f.isComponent = true)
    (h : ∀ f ∈ fields, f.Surface t)
    (hs : s.ahead = .leftParen :: separated .comma (fields.map (FieldDecl.componentWords t)) ++
      [.rightParen] ++ rest) :
    components.Reads t s rest fun found =>
      found.map FieldDecl.bare = fields.map FieldDecl.bare := by
  rw [List.append_assoc, List.cons_append] at hs
  rw [components]
  refine .expect hs rfl fun u hu => ?_
  rw [reads_state]
  refine (componentList_reads fields _ u hshape h hu (Nat.le_of_eq u.remaining_eq_length.symm)).bind
    fun found v hv hfound => .expect hv rfl fun x hx => .pure hx hfound

/-! ### Headers -/

theorem reads_isAtWord {α : Type} {Q : α → Prop} {word : String} {f : Bool → Parser α} :
    (isAtWord word >>= f).Reads t s rest Q ↔
      (f (s.current.kind = .identifier && s.current.text == word)).Reads t s rest Q := Iff.rfl

theorem declKeyword_reads {k : DeclKind} (hs : s.ahead = k.words ++ rest) :
    declKeyword.Reads t s rest (· = k) := by
  rw [declKeyword, reads_kind, s.current_kind, hs]
  cases k with
  | annotationType =>
    refine .yes rfl (.advance hs fun u hu => .advance hu fun v hv => .pure hv rfl)
  | _ => exact .neg (of_decide_eq_false rfl) (.advance hs fun u hu => .pure hu rfl)

theorem extendsClause_reads {k : DeclKind} {types : List TypeRef} (h : ∀ r ∈ types, r.Surface t)
    (hk : match k with
      | .classType => types.length ≤ 1
      | .interfaceType => True
      | _ => types = [])
    (hs : s.ahead = clauseWords t .kwExtends .comma types ++ rest)
    (hrest : firstKind rest = .kwImplements ∨ firstKind rest = .leftBrace) :
    (extendsClause k).Reads t s rest fun found =>
      found.map TypeRef.bare = types.map TypeRef.bare := by
  have hends : EndsType rest ∧ firstKind rest ≠ .kwExtends ∧ firstKind rest ≠ .comma := by
    cases hrest with
    | inl hrest => exact ⟨.of_kind hrest (by decide), by rw [hrest]; decide, by rw [hrest]; decide⟩
    | inr hrest => exact ⟨.of_kind hrest (by decide), by rw [hrest]; decide, by rw [hrest]; decide⟩
  unfold extendsClause
  refine .clause .kwExtends .comma hs hends.2.1 (fun filled u hu => ?_)
    fun hnone hs => .pure hs (by rw [hnone])
  cases k with
  | classType =>
    obtain ⟨r, rfl⟩ := List.length_eq_one_iff.1 (Nat.le_antisymm hk (List.length_pos_iff.2 filled))
    rw [List.map_singleton, separated_singleton] at hu
    refine (type_reads (h r List.mem_cons_self) hu hends.1).bind
      fun found v hv hfound => .pure hv ?_
    rw [List.map_singleton, List.map_singleton, hfound]
  | interfaceType => exact typeList_reads filled h hu hends.1 hends.2.2
  | _ => exact absurd hk filled

theorem implementsClause_reads {k : DeclKind} {types : List TypeRef} (h : ∀ r ∈ types, r.Surface t)
    (hk : k = .interfaceType ∨ k = .annotationType → types = [])
    (hs : s.ahead = clauseWords t .kwImplements .comma types ++ .leftBrace :: rest) :
    (implementsClause k).Reads t s (.leftBrace :: rest) fun found =>
      found.map TypeRef.bare = types.map TypeRef.bare := by
  rw [implementsClause]
  refine .clause .kwImplements .comma hs (of_decide_eq_false rfl) (fun filled u hu => ?_)
    fun hnone hs => .pure hs (by rw [hnone])
  refine (typeList_reads filled h hu (.of_kind (k := .leftBrace) rfl (by decide))
    (of_decide_eq_false rfl)).bind fun found v hv hfound => ?_
  have hcheck : (checkImplements k).Reads t v (.leftBrace :: rest) fun _ => True := by
    rw [checkImplements]
    refine .neg (fun hno => filled (hk ?_)) (.pure hv trivial)
    rwa [Bool.or_eq_true, decide_eq_true_iff, decide_eq_true_iff] at hno
  exact hcheck.bind fun _ x hx _ => .pure hx hfound

theorem permitsClause_reads (hs : s.ahead = .leftBrace :: rest) :
    permitsClause.Reads t s (.leftBrace :: rest) fun _ => True := by
  rw [permitsClause, reads_isAtWord, s.current_kind, hs]
  exact .no rfl (.pure hs trivial)

end Parser

/-! ### First words -/

section FirstWords

variable {t : NameTable} {rest : List Word}

/-- The identifier that a type starts with is none of the contextual words. -/
theorem TypeRef.Surface.unreserved {r : TypeRef} (h : r.Surface t) {w : Word} {ws : List Word}
    (hwords : r.words t = w :: ws) (hk : w.1 = .identifier) :
    w.2 ∉ ["record", "sealed", "non", "permits"] := by
  match r, h with
  | .primitive p span, _ =>
    rw [TypeRef.words] at hwords
    cases hwords
    cases p <;> cases hk
  | .void span, _ =>
    rw [TypeRef.words] at hwords
    cases hwords
    cases hk
  | .classType [] span, .classType filled _ _ => exact absurd rfl filled
  | .classType (.mk name args :: segments) span, .classType _ names _ =>
    rw [TypeRef.words, ClassSegment.eachWords_cons] at hwords
    cases hwords
    exact (names _ List.mem_cons_self).2.plain
  | .array component span, .array inner =>
    obtain ⟨w', ws', hinner, -⟩ := inner.starts
    rw [TypeRef.words, hinner] at hwords
    cases hwords
    exact inner.unreserved hinner hk

/-- What can come second where a type comes first. -/
theorem TypeRef.Surface.second {r : TypeRef} (h : r.Surface t) {rest : List Word} {k : TokenKind}
    (hk : k ≠ .dot ∧ k ≠ .less ∧ k ≠ .leftBracket) (hrest : firstKind rest ≠ k) :
    firstKind ((r.words t ++ rest).drop 1) ≠ k := by
  match r, h with
  | .primitive p span, _ =>
    rw [TypeRef.words]
    exact hrest
  | .void span, _ =>
    rw [TypeRef.words]
    exact hrest
  | .classType [] span, .classType filled _ _ => exact absurd rfl filled
  | .classType (.mk name args :: segments) span, .classType _ names _ =>
    rw [TypeRef.words, ClassSegment.eachWords_cons]
    -- A name is followed by arguments, by a dot, or by what follows the type.
    cases args with
    | cons a args => exact Ne.symm hk.2.1
    | nil =>
      cases segments with
      | nil => exact hrest
      | cons seg segments =>
        cases seg with | mk next nargs =>
        rw [ClassSegment.eachWords_cons]
        exact Ne.symm hk.1
  | .array component span, .array inner =>
    rw [TypeRef.words, List.append_assoc]
    have hnext : firstKind ([.leftBracket, .rightBracket] ++ rest) ≠ k := Ne.symm hk.2.2
    exact inner.second hk hnext

theorem TokenKind.modifier?_of_startsType {k : TokenKind} (h : k.startsType = true) :
    Parser.modifier? k = none := by
  cases k <;> first | rfl | cases h

theorem TypeRef.Surface.noModifier {r : TypeRef} (h : r.Surface t) :
    NoModifier (r.words t ++ rest) := by
  obtain ⟨w, ws, hwords, hw⟩ := h.starts
  have hreserved := h.unreserved hwords
  rw [hwords]
  refine ⟨TokenKind.modifier?_of_startsType hw, fun w' hw' hk => ?_,
    Parser.unannotated_of_ne fun hat => ?_⟩
  · cases hw'
    exact ⟨fun htext => hreserved hk (by simp [htext]), fun htext => hreserved hk (by simp [htext])⟩
  · rw [show w.1 = .atSign from hat] at hw
    cases hw

/-- A type is no error. -/
theorem TypeRef.isError_of_bare {r r' : TypeRef} (h : r.Surface t) (hbare : r'.bare = r.bare) :
    r'.isError = false := by
  cases r' with
  | error span => cases h <;> cases hbare
  | _ => rfl

end FirstWords

namespace Parser

variable {t : NameTable} {s : ParserState} {rest : List Word}

/-! ### Members that are no types -/

/-- No declaration starts with a type. -/
theorem startsDeclaration_type {r : TypeRef} (h : r.Surface t) (hs : s.ahead = r.words t ++ rest) :
    startsDeclaration s = false := by
  obtain ⟨w, ws, hwords, hw⟩ := h.starts
  rw [hwords] at hs
  have htext : s.current.text = w.2 := s.current_text hs
  have hkind : s.current.kind = w.1 := by rw [s.current_kind, hs]; rfl
  unfold startsDeclaration
  rw [hkind, htext]
  obtain ⟨k, text⟩ := w
  cases k <;> first | rfl | cases hw
  have htext : text ≠ "record" := fun htext =>
    h.unreserved hwords rfl (by rw [htext]; exact List.mem_cons_self)
  show (text == "record" && _ && _) = false
  rw [beq_false_of_ne htext, Bool.false_and, Bool.false_and]

/-- The variables of a field start with an identifier, and no `(` follows it. -/
theorem firstKind_variableWords {f : WrittenField} (filled : f.vars ≠ []) (rest : List Word) :
    firstKind (f.variableWords t ++ .semicolon :: rest) = .identifier ∧
      firstKind ((f.variableWords t ++ .semicolon :: rest).drop 1) ≠ .leftParen := by
  obtain ⟨v, vars, hvars⟩ := List.exists_cons_of_ne_nil filled
  have hstarts : StartsVariable (f.variableWords t ++ .semicolon :: rest) := by
    rw [WrittenField.variableWords, hvars]
    cases vars with
    | nil =>
      rw [List.map_singleton, separated_singleton]
      exact v.startsVariable t (.inl rfl)
    | cons next vars =>
      rw [List.map_cons, List.map_cons, separated_cons_cons, List.append_assoc]
      exact v.startsVariable t (.inr rfl)
  refine ⟨hstarts.1, fun hparen => ?_⟩
  have hmem := hstarts.2
  rw [hparen] at hmem
  revert hmem
  decide

theorem fieldOrMethod_reads {start : Span} {f : WrittenField} (h : f.Readable t)
    (hs : s.ahead = f.type.words t ++ (f.variableWords t ++ .semicolon :: rest)) :
    (fieldOrMethod start f.modifiers).Reads t s rest fun found =>
      ∃ g, found = some (.field g) ∧ g.bare = f.decl.bare := by
  obtain ⟨hident, hparen⟩ := firstKind_variableWords (t := t) h.filled rest
  rw [fieldOrMethod]
  refine (type_reads h.type hs (.of_kind hident (by decide))).bind fun a u hu ha => ?_
  rw [TypeRef.isError_of_bare h.type ha]
  refine .no rfl ?_
  rw [reads_isAt, reads_peek, u.peek_eq, hu, decide_eq_false hparen, Bool.and_false]
  exact .no rfl ((field_reads h ha hu).bind fun found v hv hfound => .pure hv ⟨found, rfl, hfound⟩)

theorem plainMember_reads {start : Span} {f : WrittenField} (h : f.Readable t)
    (hs : s.ahead = f.type.words t ++ (f.variableWords t ++ .semicolon :: rest)) :
    (plainMember start f.modifiers).Reads t s rest fun found =>
      ∃ g, found = some (.field g) ∧ g.bare = f.decl.bare := by
  obtain ⟨hident, -⟩ := firstKind_variableWords (t := t) h.filled rest
  obtain ⟨w, ws, hwords, hw⟩ := h.type.starts
  have hless : firstKind s.ahead ≠ .less := by
    rw [hs, hwords]
    rintro (hk : w.1 = .less)
    rw [hk] at hw
    cases hw
  have hsecond : ∀ k, k ≠ .dot ∧ k ≠ .less ∧ k ≠ .leftBracket → k ≠ .identifier →
      s.peek 1 ≠ k := fun k hk hk' => by
    rw [s.peek_eq, hs]
    exact h.type.second hk (hident ▸ Ne.symm hk')
  rw [plainMember, reads_state, s.current_kind]
  refine .neg hless (.neg ?_ (.neg ?_ (fieldOrMethod_reads h hs)))
  · rw [decide_eq_false (hsecond .leftParen (by decide) (by decide)), Bool.and_false]
    exact of_decide_eq_false rfl
  · rw [decide_eq_false (hsecond .leftBrace (by decide) (by decide)), Bool.and_false]
    exact of_decide_eq_false rfl

end Parser

end JavaAbi
