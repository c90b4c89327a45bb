import JavaAbi.Proofs.LexedText

namespace JavaAbi

/-!
# Texts before a line break

A line break ends every token and every comment to the end of a line, and no token looks past it. So
where a text without lexical errors stands before a line break, it is lexed as it is alone, and what
follows the break is lexed as it is alone.

* `Lexeme.token_before_line`, `Lexeme.comment_before_line` — the first lexeme of a text does not depend
  on a line break after the text;
* `lexesTo_append` — a text without errors is lexed alike at every place of every file;
* `lex_lines` — the tokens of two texts, one before and one after a line break.
-/

variable {c : Char} {rest more : List Char} {n : Nat} {k : TokenKind} {ws : List Word}

/-- What is read of a number ends at a line break at the latest. -/
theorem numberLength_before_line (hex : Bool) (rest more : List Char) :
    numberLength hex (rest ++ '\n' :: more) = numberLength hex rest := by
  match rest with
  | [] => exact numberLength_blank (by decide) more
  | c :: rest =>
    -- What comes behind a character is the same, but that the line may end there.
    have hhead : ∀ s ∈ (rest ++ '\n' :: more).head?, s ≠ '\n' → s ∈ rest.head? := by
      intro s hs hne
      cases rest with
      | nil => exact absurd (Option.some.inj hs).symm hne
      | cons x rest => exact hs
    by_cases hword : (c.isAlphanum || c = '_') = true
    · -- A sign belongs to the number behind the mark of an exponent, and it is no line break.
      obtain ⟨hexponent, s, after, rfl, hs⟩ | hsign := signed_or_not hex c rest
      · have hlength := numberLength_signed hword hexponent hs
        rw [List.cons_append, List.cons_append, hlength, hlength, numberLength_before_line hex after]
      · rw [List.cons_append, numberLength_word hword hsign, numberLength_word hword,
          numberLength_before_line hex rest]
        intro hexponent s hs
        by_cases hbreak : s = '\n'
        · subst hbreak
          decide
        · exact hsign hexponent s (hhead s hs hbreak)
    · have hpoint : ((rest ++ '\n' :: more).head? ≠ some '.') = (rest.head? ≠ some '.') := by
        cases rest with
        | nil => simp
        | cons x rest => rfl
      rw [List.cons_append, numberLength_cons, numberLength_cons, if_neg hword, if_neg hword,
        numberLength_before_line hex rest]
      simp only [hpoint]
termination_by rest.length

/-- What is read up to some character ends at a line break, if that is such a character. -/
theorem takeWhile_before_line {p : Char → Bool} (hp : ¬p '\n') (rest more : List Char) :
    (rest ++ '\n' :: more).takeWhile p = rest.takeWhile p := by
  rw [List.takeWhile_append]
  split
  · rename_i hall
    rw [List.takeWhile_cons_of_neg hp, List.append_nil]
    exact ((List.takeWhile_sublist p).eq_of_length hall).symm
  · rfl

namespace Lexeme

theorem isHex_before_line : isHex c (rest ++ '\n' :: more) = isHex c rest := by
  cases rest with
  | nil => cases h : decide (c = '0') <;> simp [isHex, h]
  | cons x rest => rfl

/-- A line break after a mark starts no longer lexeme. -/
theorem alone_before_line (h : Alone c rest) : Alone c (rest ++ '\n' :: more) := by
  cases rest with
  | nil => exact alone_parted (.cons (by decide))
  | cons d rest =>
    refine ⟨fun hc x hx => h.1 hc x hx, ?_⟩
    rintro hc _ _ ⟨⟩
    obtain ⟨hdigit, hdots⟩ := h.2 hc d rest rfl
    refine ⟨hdigit, fun hd => ?_⟩
    have hrest := hdots hd
    cases rest with
    | nil =>
      show some '\n' ≠ some '.'
      decide
    | cons x rest => exact hrest

/-- What starts a closed string starts no text block. -/
theorem string_before_line (noBlock : ∀ body, rest = '"' :: '"' :: body → False)
    (closed : quotedLength '"' rest = (n, true)) (body : List Char) :
    rest ++ '\n' :: more = '"' :: '"' :: body → False := by
  intro heq
  match rest with
  | [] => cases closed
  | [x] => cases heq
  | x :: y :: rest =>
    cases heq
    exact noBlock _ rfl

/-- A closed literal is cut off before what follows it. -/
theorem quotedLength_before_line {quote : Char} (closed : quotedLength quote rest = (n, true)) :
    quotedLength quote (rest ++ '\n' :: more) = (n, true) := by
  have hquoted := quotedLength_append (congrArg Prod.snd closed)
    (rest.drop (quotedLength quote rest).1 ++ '\n' :: more)
  rwa [← List.append_assoc, List.take_append_drop, closed] at hquoted

/-- **A line break decides nothing about the token before it.** -/
theorem token_before_line (h : next c rest = (.token k, n)) :
    next c (rest ++ '\n' :: more) = (.token k, n) := by
  refine Starts.next ?_
  cases starts_of_next h with
  | word start =>
    have hstarts := @Starts.word c (rest ++ '\n' :: more) start
    rwa [takeWhile_before_line (by decide)] at hstarts
  | number digit =>
    have hstarts := @Starts.number c (rest ++ '\n' :: more) digit
    rwa [isHex_before_line, numberLength_before_line] at hstarts
  | @textBlock body n closed =>
    have hblock := textBlockLength_append (congrArg Prod.snd closed)
      (body.drop (textBlockLength body).1 ++ '\n' :: more)
    rw [← List.append_assoc, List.take_append_drop, closed] at hblock
    exact .textBlock hblock
  | string noBlock closed =>
    exact .string (string_before_line noBlock closed) (quotedLength_before_line closed)
  | character closed => exact .character (quotedLength_before_line closed)
  | ellipsis => exact .ellipsis
  | @decimals d rest digit =>
    have hstarts := @Starts.decimals d (rest ++ '\n' :: more) digit
    rwa [← List.cons_append, numberLength_before_line] at hstarts
  | mark kind alone => exact .mark kind (alone_before_line alone)

/-- Nor about the comment before it. -/
theorem comment_before_line (h : next c rest = (.comment, n)) :
    n ≤ rest.length ∧ next c (rest ++ '\n' :: more) = (.comment, n) := by
  cases starts_of_next h with
  | @line body =>
    have hstarts := @Starts.line (body ++ '\n' :: more)
    rw [takeWhile_before_line (by decide)] at hstarts
    exact ⟨Nat.succ_le_succ (List.takeWhile_prefix _).length_le, hstarts.next⟩
  | block closed =>
    obtain ⟨t, tail, rfl, rfl, hinside⟩ := commentLength?_eq_some closed
    refine ⟨by simp only [List.length_cons, List.length_append]; omega, ?_⟩
    rw [List.cons_append, List.append_assoc]
    exact (Starts.block (commentLength?_of_text hinside _)).next

/-- Blanks are what starts with a blank, and all of them up to the next character. -/
theorem next_blank (h : next c rest = (.blank, n)) :
    isBlank c = true ∧ n = (rest.takeWhile isBlank).length := by
  cases starts_of_next h with
  | blank blank => exact ⟨blank, rfl⟩

end Lexeme

/-! ### Texts without errors -/

section Texts

variable {cs tail : List Char} {file pos : Nat}

/-- No token and no comment depends on a text that follows it. -/
def Apart (tail : List Char) : Prop :=
  ∀ c rest kind n, Lexeme.next c rest = (kind, n) → kind = .comment ∨ (∃ k, kind = .token k) →
    Lexeme.next c (rest ++ tail) = (kind, n)

theorem apart_nil : Apart [] := fun c rest kind n h _ => by rwa [List.append_nil]

theorem apart_line (more : List Char) : Apart ('\n' :: more) := by
  rintro c rest kind n h (rfl | ⟨k, rfl⟩)
  · exact (Lexeme.comment_before_line h).2
  · exact Lexeme.token_before_line h

/-- A token, and what follows it. -/
theorem LexesTo.token (h : Lexeme.next c rest = (.token k, n)) (hrest : LexesTo (rest.drop n) ws) :
    LexesTo (c :: rest) ((k, String.ofList (c :: rest.take n)) :: ws) := by
  intro file pos
  obtain ⟨hwords, herrors⟩ := hrest file (pos + byteLength (c :: rest.take n))
  rw [Lexeme.all, h]
  refine ⟨?_, herrors⟩
  have htok : Lexeme.token? file ⟨.token k, c :: rest.take n, pos⟩ =
      some ⟨k, String.ofList (c :: rest.take n),
        (⟨.token k, c :: rest.take n, pos⟩ : Lexeme).span file⟩ := rfl
  rw [List.filterMap_cons_some htok, List.map_cons, hwords]
  rfl

/-- The words of a text that starts at byte `pos`. -/
def wordsOf (file pos : Nat) (cs : List Char) : List Word :=
  ((Lexeme.all pos cs).filterMap (Lexeme.token? file)).map Token.word

/-- **A text without errors is lexed alike wherever it stands**, and after it a text that is apart
    from it. Blanks at its start make no difference. -/
theorem lexesTo_append (hclean : (Lexeme.all pos cs).filterMap (Lexeme.error? file) = [])
    (hapart : Apart tail) (htail : LexesTo tail ws ∧ LexesTo (tail.dropWhile isBlank) ws) :
    LexesTo (cs ++ tail) (wordsOf file pos cs ++ ws) ∧
      LexesTo ((cs ++ tail).dropWhile isBlank) (wordsOf file pos cs ++ ws) := by
  induction pos, cs using Lexeme.all.induct with
  | case1 =>
    rw [wordsOf, Lexeme.all]
    exact htail
  | case2 pos c rest kind n hnext chars ih =>
    rw [Lexeme.all, hnext] at hclean
    rw [wordsOf, Lexeme.all, hnext]
    have hclean' : (Lexeme.all (pos + byteLength chars) (rest.drop n)).filterMap
        (Lexeme.error? file) = [] := List.filterMap_eq_nil_iff.2 fun l hl =>
      List.filterMap_eq_nil_iff.1 hclean l (List.mem_cons_of_mem _ hl)
    obtain ⟨hrest, hdropped⟩ := ih hclean'
    have hfault := List.filterMap_eq_nil_iff.1 hclean _ List.mem_cons_self
    -- only blanks start with a blank, and only at them is anything dropped
    have hkept : kind ≠ .blank → (c :: rest ++ tail).dropWhile isBlank = c :: rest ++ tail := by
      intro hkind
      refine List.dropWhile_cons_of_neg fun hc => hkind ?_
      rw [(Lexeme.Starts.blank hc).next] at hnext
      exact (congrArg Prod.fst hnext).symm
    cases kind with
    | blank =>
      obtain ⟨hc, rfl⟩ := Lexeme.next_blank hnext
      have hafter : (rest ++ tail).dropWhile isBlank =
          (rest.drop (rest.takeWhile isBlank).length ++ tail).dropWhile isBlank := by
        have hparts := List.take_append_drop (rest.takeWhile isBlank).length rest
        rw [Lexeme.take_takeWhile] at hparts
        have hwhole : rest ++ tail = rest.takeWhile isBlank ++
            (rest.drop (rest.takeWhile isBlank).length ++ tail) := by
          rw [← List.append_assoc, hparts]
        rw [hwhole]
        exact List.dropWhile_append_of_pos fun x hx => List.all_eq_true.1 List.all_takeWhile x hx
      rw [← hafter] at hdropped
      refine ⟨.blank hc hdropped, ?_⟩
      rwa [List.cons_append, List.dropWhile_cons_of_pos hc]
    | comment =>
      have hle := (@Lexeme.comment_before_line c rest [] n hnext).1
      rw [hkept (by decide)]
      refine (fun h => ⟨h, h⟩) (LexesTo.comment (hapart c rest _ n hnext (.inl rfl)) ?_)
      rwa [List.drop_append_of_le_length hle]
    | token k =>
      have hle := Lexeme.next_le hnext
      rw [hkept fun h => by cases h]
      have hfirst := LexesTo.token (hapart c rest _ n hnext (.inr ⟨k, rfl⟩))
        (by rwa [List.drop_append_of_le_length hle])
      rw [List.take_append_of_le_length hle] at hfirst
      exact ⟨hfirst, hfirst⟩
    | fault f => cases hfault

/-- The words of a text, but for the last, which is empty. -/
theorem lex_words (file : Nat) (source : String) : (lex file source).1.map Token.word =
    wordsOf file 0 source.toList ++ [(.eof, "")] := by
  rw [lex]
  dsimp only
  rw [List.map_append]
  rfl

/-- None of them ends the file. -/
theorem ne_eof_of_wordsOf : ∀ w ∈ wordsOf file pos cs, w.1 ≠ .eof := by
  obtain ⟨-, -, -, heof, -⟩ := laidOut_all file pos cs
  exact List.forall_mem_map.2 heof

/-- **The tokens of two texts**, one before and one after a line break, are those of the first and
    those of the second. -/
theorem lex_lines {file file' : Nat} {source source' : String} (h : (lex file source).2 = [])
    (h' : (lex file' source').2 = []) : ∃ ws ws',
      (lex file source).1.map Token.word = ws ++ [(.eof, "")] ∧
      (lex file' source').1.map Token.word = ws' ++ [(.eof, "")] ∧ (∀ w ∈ ws, w.1 ≠ .eof) ∧
      ∀ place, (lex place (source ++ "\n" ++ source')).1.map Token.word =
          ws ++ (ws' ++ [(.eof, "")]) ∧ (lex place (source ++ "\n" ++ source')).2 = [] := by
  refine ⟨_, _, lex_words file source, lex_words file' source', ne_eof_of_wordsOf, fun place => ?_⟩
  have hsecond := lexesTo_append h' apart_nil ⟨.nil, .nil⟩
  rw [List.append_nil, List.append_nil] at hsecond
  have hbreak : LexesTo ('\n' :: source'.toList) _ := .blank (by decide) hsecond.2
  have hdropped : ('\n' :: source'.toList).dropWhile isBlank = source'.toList.dropWhile isBlank :=
    List.dropWhile_cons_of_pos (by decide)
  obtain ⟨hwords, herrors⟩ :=
    (lexesTo_append h (apart_line source'.toList) ⟨hbreak, hdropped ▸ hsecond.2⟩).1 place 0
  have htext : (source ++ "\n" ++ source').toList = source.toList ++ '\n' :: source'.toList := by
    simp
  refine ⟨?_, ?_⟩
  · rw [lex_words, wordsOf, htext, hwords, List.append_assoc]
  · rw [lex, htext]
    exact herrors

end Texts

end JavaAbi
