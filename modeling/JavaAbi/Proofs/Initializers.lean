import JavaAbi.Proofs.PairedRuns
import JavaAbi.Syntax.Parser.Declarations

namespace JavaAbi

/-!
# Initializers that are stepped over

The parser does not read expressions: it steps over an initializer up to a `;` or a `,` before the
next variable, outside brackets of any kind. What stands for the next variable is an identifier and
one word after it, so a `,` between type arguments may be taken for the end of the initializer.

* `Bracketed` — words balanced in the brackets of each kind;
* `StartsVariable` — what a `,` between variables is told by;
* `IsInitializer`, `KeepsCommas` — the words of an initializer, and that no `,` in them looks like
  the end;
* `Parser.skipExpression_reads` — an expression is stepped over up to what ends it.
-/

/-! ### Brackets -/

/-- Words that close `parens`, `squares` and `braces` brackets of the three kinds opened before
    them, and all that they open themselves. -/
structure Bracketed (parens squares braces : Nat) (ws : List Word) : Prop where
  parens : Balanced .leftParen .rightParen parens ws
  squares : Balanced .leftBracket .rightBracket squares ws
  braces : Balanced .leftBrace .rightBrace braces ws

/-- Whether a word of this kind opens a bracket that expressions have. -/
def TokenKind.opensBracket (k : TokenKind) : Bool :=
  k = .leftParen || k = .leftBrace || k = .leftBracket

/-- Whether a word of this kind closes such a bracket. -/
def TokenKind.closesBracket (k : TokenKind) : Bool :=
  k = .rightParen || k = .rightBrace || k = .rightBracket

instance (opening closing : TokenKind) (depth : Nat) (ws : List Word) :
    Decidable (Balanced opening closing depth ws) :=
  decidable_of_iff ((∀ n < ws.length + 1, ((ws.map Prod.fst).take n).count closing ≤
      depth + ((ws.map Prod.fst).take n).count opening) ∧
    depth + (ws.map Prod.fst).count opening = (ws.map Prod.fst).count closing ∧
    .eof ∉ ws.map Prod.fst) <| by
    refine ⟨fun ⟨hclosed, heven, hgoes⟩ => ⟨fun part hpart => ?_, heven, hgoes⟩,
      fun h => ⟨fun n _ => h.closed _ (List.take_prefix n _), h.even, h.goesOn⟩⟩
    have hlen := hpart.length_le
    rw [List.length_map] at hlen
    rw [List.prefix_iff_eq_take.1 hpart]
    exact hclosed part.length (Nat.lt_succ_of_le hlen)

instance (parens squares braces : Nat) (ws : List Word) :
    Decidable (Bracketed parens squares braces ws) :=
  decidable_of_iff (Balanced .leftParen .rightParen parens ws ∧
      Balanced .leftBracket .rightBracket squares ws ∧ Balanced .leftBrace .rightBrace braces ws)
    ⟨fun ⟨hparens, hsquares, hbraces⟩ => ⟨hparens, hsquares, hbraces⟩,
      fun h => ⟨h.parens, h.squares, h.braces⟩⟩

namespace Bracketed

variable {p q r : Nat} {w : Word} {ws : List Word}

theorem nil : Bracketed 0 0 0 [] := ⟨.nil, .nil, .nil⟩

theorem depth_nil (h : Bracketed p q r []) : p = 0 ∧ q = 0 ∧ r = 0 :=
  ⟨h.parens.depth_nil, h.squares.depth_nil, h.braces.depth_nil⟩

theorem head_ne_eof (h : Bracketed p q r (w :: ws)) : w.1 ≠ .eof := h.parens.head_ne_eof

theorem tail {p' q' r' : Nat} (h : Bracketed p q r (w :: ws))
    (hp : p' + (if w.1 = .rightParen then 1 else 0) = p + if w.1 = .leftParen then 1 else 0)
    (hq : q' + (if w.1 = .rightBracket then 1 else 0) = q + if w.1 = .leftBracket then 1 else 0)
    (hr : r' + (if w.1 = .rightBrace then 1 else 0) = r + if w.1 = .leftBrace then 1 else 0) :
    Bracketed p' q' r' ws := ⟨h.parens.tail hp, h.squares.tail hq, h.braces.tail hr⟩

theorem cons {p' q' r' : Nat} (h : Bracketed p' q' r' ws) (hw : w.1 ≠ .eof)
    (hp : p' + (if w.1 = .rightParen then 1 else 0) = p + if w.1 = .leftParen then 1 else 0)
    (hq : q' + (if w.1 = .rightBracket then 1 else 0) = q + if w.1 = .leftBracket then 1 else 0)
    (hr : r' + (if w.1 = .rightBrace then 1 else 0) = r + if w.1 = .leftBrace then 1 else 0) :
    Bracketed p q r (w :: ws) := ⟨h.parens.cons hw hp, h.squares.cons hw hq, h.braces.cons hw hr⟩

/-- The brackets that are open after a word. -/
theorem exists_tail (h : Bracketed p q r (w :: ws)) : ∃ p' q' r',
    (p' + (if w.1 = .rightParen then 1 else 0) = p + if w.1 = .leftParen then 1 else 0) ∧
    (q' + (if w.1 = .rightBracket then 1 else 0) = q + if w.1 = .leftBracket then 1 else 0) ∧
    (r' + (if w.1 = .rightBrace then 1 else 0) = r + if w.1 = .leftBrace then 1 else 0) := by
  obtain ⟨p', hp⟩ := h.parens.exists_tail (by decide)
  obtain ⟨q', hq⟩ := h.squares.exists_tail (by decide)
  obtain ⟨r', hr⟩ := h.braces.exists_tail (by decide)
  exact ⟨p', q', r', hp, hq, hr⟩

/-- How many brackets are open after a word, of whatever kind. -/
theorem depth_tail {p' q' r' : Nat}
    (hp : p' + (if w.1 = .rightParen then 1 else 0) = p + if w.1 = .leftParen then 1 else 0)
    (hq : q' + (if w.1 = .rightBracket then 1 else 0) = q + if w.1 = .leftBracket then 1 else 0)
    (hr : r' + (if w.1 = .rightBrace then 1 else 0) = r + if w.1 = .leftBrace then 1 else 0) :
    p' + q' + r' + (if w.1.closesBracket = true then 1 else 0) =
      p + q + r + if w.1.opensBracket = true then 1 else 0 := by
  obtain ⟨k, text⟩ := w
  cases k <;> simp_all [TokenKind.closesBracket, TokenKind.opensBracket] <;> omega

end Bracketed

/-! ### The words of an initializer -/

/-- The word before an initializer. -/
def Word.assign : Word := (.assign, "=")

/-- What follows a `,` between variables: a name, and what may come after it. -/
def StartsVariable (ws : List Word) : Prop :=
  firstKind ws = .identifier ∧
    firstKind (ws.drop 1) ∈ [TokenKind.assign, .comma, .semicolon, .leftBracket]

instance (ws : List Word) : Decidable (StartsVariable ws) := inferInstanceAs (Decidable (_ ∧ _))

/-- The words of an initializer: balanced in the brackets of each kind, and no `;` outside them. -/
structure IsInitializer (ws : List Word) : Prop where
  filled : ws ≠ []
  balanced : Bracketed 0 0 0 ws
  outside : ∀ front w back, ws = front ++ w :: back → Bracketed 0 0 0 front → w.1 ≠ .semicolon

/-- No `,` outside brackets stands before a name and one of `=`, `,`, `;`, `[`. The `;` at the end
    stands for whatever ends the initializer. -/
def KeepsCommas (ws : List Word) : Prop :=
  ∀ front w back, ws = front ++ w :: back → Bracketed 0 0 0 front → w.1 = .comma →
    ¬ StartsVariable (back ++ [.semicolon])

/-- Whatever stands before and after a word of some words, by its position. -/
theorem forall_split_iff {ws : List Word} {P : List Word → Word → List Word → Prop} :
    (∀ front w back, ws = front ++ w :: back → P front w back) ↔
      ∀ n (h : n < ws.length), P (ws.take n) ws[n] (ws.drop (n + 1)) := by
  constructor
  · intro hall n hn
    refine hall _ _ _ ?_
    rw [← List.drop_eq_getElem_cons hn, List.take_append_drop]
  · rintro hall front w back rfl
    have hn : front.length < (front ++ w :: back).length := by
      rw [List.length_append, List.length_cons]
      omega
    simpa using hall front.length hn

instance (ws : List Word) : Decidable (IsInitializer ws) :=
  decidable_of_iff (ws ≠ [] ∧ Bracketed 0 0 0 ws ∧ ∀ n (h : n < ws.length),
      Bracketed 0 0 0 (ws.take n) → ws[n].1 ≠ .semicolon)
    ⟨fun ⟨filled, balanced, outside⟩ => ⟨filled, balanced, forall_split_iff.2 outside⟩,
      fun h => ⟨h.filled, h.balanced, forall_split_iff.1 h.outside⟩⟩

instance (ws : List Word) : Decidable (KeepsCommas ws) :=
  decidable_of_iff (∀ n (h : n < ws.length), Bracketed 0 0 0 (ws.take n) → ws[n].1 = .comma →
      ¬ StartsVariable (ws.drop (n + 1) ++ [.semicolon]))
    ⟨fun h => forall_split_iff.2 h, fun h => forall_split_iff.1 h⟩

/-- What ends an initializer: `;`, or `,` and the next variable. -/
def EndsInitializer (ws : List Word) : Prop :=
  firstKind ws = .semicolon ∨ firstKind ws = .comma ∧ StartsVariable (ws.drop 1)

/-- Which of the ends follows makes no difference to what stands before it. -/
theorem StartsVariable.of_append {ws after : List Word} (hafter : EndsInitializer after)
    (h : StartsVariable (ws ++ after)) : StartsVariable (ws ++ [.semicolon]) := by
  have hkind : firstKind after = .semicolon ∨ firstKind after = .comma := hafter.imp_right And.left
  match ws, h with
  | [], h =>
    have hfirst : firstKind after = .identifier := h.1
    rw [hfirst] at hkind
    rcases hkind with hkind | hkind <;> cases hkind
  | [w], h => exact ⟨h.1, List.mem_cons_of_mem _ (List.mem_cons_of_mem _ List.mem_cons_self)⟩
  | w :: w' :: ws, h => exact h

theorem EndsInitializer.firstKind_ne {ws : List Word} {k : TokenKind} (h : EndsInitializer ws)
    (hk : k ≠ .semicolon ∧ k ≠ .comma) : firstKind ws ≠ k := by
  rcases h with h | ⟨h, -⟩
  · rw [h]
    exact hk.1.symm
  · rw [h]
    exact hk.2.symm

/-! ### Fields with initializers -/

/-- A variable of a field and the words of its initializer, if it has one. -/
structure InitializedVariable where
  declared : Variable
  value : Option (List Word)

/-- A field declaration as it is written. -/
structure WrittenField where
  modifiers : List Modifier
  type : TypeRef
  vars : List InitializedVariable

/-- What a field declaration declares. -/
def WrittenField.decl (f : WrittenField) : FieldDecl :=
  ⟨f.modifiers, f.type, f.vars.map InitializedVariable.declared, .nowhere⟩

/-- A field declaration without initializers. -/
def FieldDecl.written (f : FieldDecl) : WrittenField :=
  ⟨f.modifiers, f.type, f.declarators.map fun v => ⟨v, none⟩⟩

section Words

variable (t : NameTable)

/-- The words of a variable with its initializer. -/
def InitializedVariable.words (v : InitializedVariable) : List Word :=
  v.declared.words t ++ (v.value.map (Word.assign :: ·)).getD []

/-- The words of the variables of a field. -/
def WrittenField.variableWords (f : WrittenField) : List Word :=
  separated .comma (f.vars.map (InitializedVariable.words t))

/-- The words of a field declaration with its initializers. -/
def WrittenField.words (f : WrittenField) : List Word :=
  f.modifiers.flatMap Modifier.words ++ f.type.words t ++ f.variableWords t ++ [.semicolon]

/-- A variable whose initializer is stepped over as a whole. -/
structure InitializedVariable.Readable (v : InitializedVariable) : Prop where
  issued : t.Issued v.declared.name
  initializer : ∀ ws ∈ v.value, IsInitializer ws
  keepsCommas : ∀ ws ∈ v.value, KeepsCommas ws

/-- A field declaration that is read as it is written. -/
structure WrittenField.Readable (f : WrittenField) : Prop where
  modifiers : f.modifiers.Nodup
  plain : ∀ m ∈ f.modifiers, m.isContextual = false
  type : f.type.Surface t
  filled : f.vars ≠ []
  vars : ∀ v ∈ f.vars, v.Readable t

end Words

section Written

variable {t : NameTable}

/-- After a `,`, a variable looks like one. -/
theorem InitializedVariable.startsVariable (v : InitializedVariable) (t : NameTable)
    {more : List Word} (hmore : firstKind more = .semicolon ∨ firstKind more = .comma) :
    StartsVariable (v.words t ++ more) := by
  obtain ⟨⟨name, dims, span⟩, value⟩ := v
  refine ⟨rfl, ?_⟩
  cases dims with
  | succ n => exact List.mem_of_elem_eq_true rfl
  | zero =>
    cases value with
    | some ws => exact List.mem_of_elem_eq_true rfl
    | none =>
      show firstKind more ∈ _
      rcases hmore with hmore | hmore <;> rw [hmore] <;> exact List.mem_of_elem_eq_true rfl

theorem FieldDecl.words_written (f : FieldDecl) (t : NameTable) :
    f.written.words t = f.words t := by
  have hvars : f.written.vars.map (InitializedVariable.words t) =
      f.declarators.map (Variable.words t) := by
    rw [FieldDecl.written, List.map_map]
    exact List.map_congr_left fun v _ => List.append_nil _
  rw [WrittenField.words, WrittenField.variableWords, hvars]
  rfl

theorem FieldDecl.bare_written (f : FieldDecl) : f.written.decl.bare = f.bare := by
  rw [FieldDecl.written, WrittenField.decl, List.map_map]
  exact congrArg (fun vars => FieldDecl.bare ⟨f.modifiers, f.type, vars, .nowhere⟩)
    (List.map_id' f.declarators)

theorem FieldDecl.Surface.readable {f : FieldDecl} (h : f.Surface t) : f.written.Readable t where
  modifiers := h.modifiers
  plain := h.plain
  type := h.type
  filled := fun hnil => h.filled (List.map_eq_nil_iff.1 hnil)
  vars v hv := by
    obtain ⟨declared, hdeclared, rfl⟩ := List.mem_map.1 hv
    exact ⟨(h.names declared hdeclared).1, fun ws hws => absurd hws (Option.not_mem_none ws),
      fun ws hws => absurd hws (Option.not_mem_none ws)⟩

end Written

namespace Parser

variable {t : NameTable} {s : ParserState} {after : List Word}

theorem separatesVariables_iff (s : ParserState) :
    separatesVariables s = true ↔ StartsVariable (s.ahead.drop 1) := by
  rw [separatesVariables, s.peek_eq, s.peek_eq, StartsVariable, List.drop_drop]
  simp only [Bool.and_eq_true, Bool.or_eq_true, decide_eq_true_eq, List.mem_cons,
    List.not_mem_nil, or_false, or_assoc]

/-- An expression is stepped over up to what ends it. The induction is on its words; the brackets
    that are open make up the depth. -/
theorem skipExpression_reads (hafter : EndsInitializer after) (ws : List Word) (p q r fuel : Nat)
    (s : ParserState) (hs : s.ahead = ws ++ after) (hf : s.ahead.length ≤ fuel)
    (hws : Bracketed p q r ws)
    (hsemicolon : ∀ front w back, ws = front ++ w :: back → Bracketed p q r front →
      w.1 ≠ .semicolon)
    (hcomma : ∀ front w back, ws = front ++ w :: back → Bracketed p q r front → w.1 = .comma →
      ¬ StartsVariable (back ++ after)) :
    (skipExpression fuel (p + q + r)).Reads t s after fun _ => True := by
  induction ws generalizing p q r fuel s with
  | nil =>
    obtain ⟨rfl, rfl, rfl⟩ := hws.depth_nil
    have hs : s.ahead = after := hs
    cases fuel with
    | zero => exact .cutOff hs trivial
    | succ fuel =>
      unfold skipExpression
      rw [reads_kind, s.current_kind, hs]
      obtain hkind | ⟨hkind, hnext⟩ := hafter
      · rw [hkind]
        exact .yes rfl (.pure hs trivial)
      · rw [hkind]
        show (state >>= _ : Parser Unit).Reads t s after _
        rw [reads_state, (separatesVariables_iff s).2 (by rwa [hs])]
        exact .yes rfl (.pure hs trivial)
  | cons w ws ih =>
    have hs : s.ahead = w :: (ws ++ after) := hs
    have hlen := congrArg List.length hs
    rw [List.length_cons] at hlen
    obtain ⟨p', q', r', hp, hq, hr⟩ := hws.exists_tail
    have hdepth := Bracketed.depth_tail hp hq hr
    have hfront : ∀ front, Bracketed p' q' r' front → Bracketed p q r (w :: front) :=
      fun front h => h.cons hws.head_ne_eof hp hq hr
    cases fuel with
    | zero => omega
    | succ fuel =>
      -- the rest is stepped over from the depth after this word
      have hnext : ∀ depth, depth = p' + q' + r' →
          (advance >>= fun _ => skipExpression fuel depth).Reads t s after fun _ => True := by
        rintro _ rfl
        refine .advance hs (fun u hu => ?_) hws.head_ne_eof
        refine ih p' q' r' fuel u hu (by rw [hu]; omega) (hws.tail hp hq hr) ?_ ?_
        · intro front x back hsplit h
          exact hsemicolon (w :: front) x back (congrArg (w :: ·) hsplit) (hfront front h)
        · intro front x back hsplit h
          exact hcomma (w :: front) x back (congrArg (w :: ·) hsplit) (hfront front h)
      have hzero : p + q + r = 0 → Bracketed p q r [] := by
        intro hzero
        obtain ⟨rfl, rfl, rfl⟩ : p = 0 ∧ q = 0 ∧ r = 0 := by omega
        exact .nil
      unfold skipExpression
      rw [reads_kind, s.current_kind, hs]
      obtain ⟨k, text⟩ := w
      cases k with
      | eof => exact absurd rfl hws.head_ne_eof
      | leftParen | leftBrace | leftBracket => exact hnext _ hdepth.symm
      | rightParen | rightBrace | rightBracket =>
        have hdepth : p' + q' + r' + 1 = p + q + r := hdepth
        rw [← hdepth]
        exact hnext _ rfl
      | semicolon =>
        refine .neg (fun hdepth' => ?_) (hnext _ hdepth.symm)
        exact hsemicolon [] _ ws rfl (hzero hdepth') rfl
      | comma =>
        show (state >>= _ : Parser Unit).Reads t s after _
        rw [reads_state]
        refine .neg (fun hends => ?_) (hnext _ hdepth.symm)
        obtain ⟨hdepth', hnext⟩ := Bool.and_eq_true_iff.1 hends
        refine hcomma [] _ ws rfl (hzero (of_decide_eq_true hdepth')) rfl ?_
        rwa [separatesVariables_iff, hs] at hnext
      | _ => exact hnext _ hdepth.symm

/-- The initializer of a variable, if there is one. -/
theorem skipInitializer_reads {v : InitializedVariable} (h : v.Readable t)
    (hafter : EndsInitializer after)
    (hs : s.ahead = (v.value.map (Word.assign :: ·)).getD [] ++ after) :
    skipInitializer.Reads t s after fun _ => True := by
  rw [skipInitializer]
  cases hvalue : v.value with
  | none =>
    rw [hvalue] at hs
    have hs : s.ahead = after := hs
    exact .eat_no (by rw [hs]; exact hafter.firstKind_ne (by decide)) (.no rfl (.pure hs trivial))
  | some ws =>
    rw [hvalue] at hs
    have hws := h.initializer ws hvalue
    have hkeeps := h.keepsCommas ws hvalue
    refine .eat_yes (w := .assign) hs rfl fun u hu => .yes rfl ?_
    rw [reads_state]
    refine skipExpression_reads hafter ws 0 0 0 _ u hu (Nat.le_of_eq u.remaining_eq_length.symm)
      hws.balanced hws.outside fun front w back hsplit hfront hw hstarts => ?_
    exact hkeeps front w back hsplit hfront hw (hstarts.of_append hafter)

end Parser

end JavaAbi
