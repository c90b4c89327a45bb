import JavaAbi.Proofs.PairedUnits
import JavaAbi.Proofs.PrintedTokens

namespace JavaAbi

/-!
# Formatting

Between tokens, blanks and comments mean nothing. A lexeme is cut off a text by looking at most two
characters past its end, and never past a blank; so the tokens of a text that is free of lexical
errors are lexed again as themselves, however they are spaced.

* `Trivia`, `Gap`, `Spread` — texts of blanks and comments, and tokens with such texts between them;
* `Lexeme.next_parted` — a token is cut off in the same way before any blank;
* `lex_respaced` — tokens however they are spaced;
* `parse_respaced` — what they are parsed to.
-/

/-! ### Blanks and comments -/

/-- Blanks and comments. A line comment ends with its line, and a block comment with the first `*/`
    in it. -/
inductive Trivia : List Char → Prop
  | nil : Trivia []
  | blank {c : Char} {rest : List Char} (space : isBlank c = true) (more : Trivia rest) :
      Trivia (c :: rest)
  | line {t rest : List Char} (inside : '\n' ∉ t) (more : Trivia rest) :
      Trivia ('/' :: '/' :: (t ++ '\n' :: rest))
  | block {t rest : List Char} (inside : ¬ ['*', '/'] <:+: t) (more : Trivia rest) :
      Trivia ('/' :: '*' :: (t ++ '*' :: '/' :: rest))

/-- What may stand between two tokens: a blank, then blanks and comments. -/
inductive Gap : List Char → Prop
  | mk {c : Char} {rest : List Char} (space : isBlank c = true) (more : Trivia rest) : Gap (c :: rest)

/-- The texts of words with gaps between them, and after the last one a gap or nothing. -/
inductive Spread : List Word → List Char → Prop
  | nil : Spread [] []
  | last (w : Word) : Spread [w] w.2.toList
  | cons {w : Word} {ws : List Word} {g t : List Char} (between : Gap g) (more : Spread ws t) :
      Spread (w :: ws) (w.2.toList ++ (g ++ t))

/-- What may follow a token: nothing, or a blank. -/
def Parted (rest : List Char) : Prop := ∀ c ∈ rest.head?, isBlank c = true

theorem Parted.nil : Parted [] := fun _ h => by cases h

theorem Parted.cons {c : Char} {rest : List Char} (h : isBlank c = true) : Parted (c :: rest) :=
  fun _ hx => Option.some.inj hx ▸ h

theorem Gap.parted {gap rest : List Char} (h : Gap gap) : Parted (gap ++ rest) := by
  cases h with
  | mk space more => exact .cons space

/-! ### The lengths of lexemes -/

section Lengths

variable {rest : List Char}

theorem commentLength?_of_text {text : List Char} (h : ¬ ['*', '/'] <:+: text) (rest : List Char) :
    commentLength? (text ++ '*' :: '/' :: rest) = some (text.length + 2) := by
  induction text with
  | nil => rfl
  | cons c text ih =>
    have hlater : ¬ ['*', '/'] <:+: text := fun hin => h (hin.trans (List.suffix_cons c text).isInfix)
    have hnow : ∀ more, c :: (text ++ '*' :: '/' :: rest) = '*' :: '/' :: more → False := by
      intro more heq
      obtain ⟨rfl, hrest⟩ := List.cons.inj heq
      cases text with
      | nil => cases hrest
      | cons d text =>
        obtain ⟨rfl, -⟩ := List.cons.inj hrest
        exact h (List.prefix_append ['*', '/'] text).isInfix
    rw [List.cons_append, commentLength?, ih hlater]
    · rfl
    · exact fun more hc hmore => hnow more (by rw [hc, hmore])

theorem quotedLength_cons (quote c : Char) (rest : List Char) :
    quotedLength quote (c :: rest) =
      if c = '\\' then
        match rest with
        | [] => (1, false)
        | _ :: rest => ((quotedLength quote rest).1 + 2, (quotedLength quote rest).2)
      else if c = '\n' then (0, false)
      else if c = quote then (1, true)
      else ((quotedLength quote rest).1 + 1, (quotedLength quote rest).2) := by
  cases rest <;> rfl

theorem quotedLength_pos {quote : Char} {rest : List Char} (h : (quotedLength quote rest).2 = true) :
    0 < (quotedLength quote rest).1 := by
  cases rest with
  | nil => cases h
  | cons c rest =>
    rw [quotedLength_cons] at h ⊢
    split
    · cases rest with
      | nil => exact Nat.one_pos
      | cons => exact Nat.succ_pos _
    · rename_i hslash
      rw [if_neg hslash] at h
      split
      · rename_i hfeed
        rw [if_pos hfeed] at h
        cases h
      · split
        · exact Nat.one_pos
        · exact Nat.succ_pos _

theorem quotedLength_le (quote : Char) (rest : List Char) :
    (quotedLength quote rest).1 ≤ rest.length := by
  fun_induction quotedLength quote rest with
  | case1 => exact Nat.le_refl 0
  | case2 => exact Nat.le_refl 1
  | case3 s rest n closed hrest ih =>
    rw [hrest] at ih
    exact Nat.add_le_add_right ih 2
  | case4 rest => exact Nat.zero_le _
  | case5 rest => exact Nat.le_add_left 1 rest.length
  | case6 c rest _ _ _ n closed hrest ih =>
    rw [hrest] at ih
    exact Nat.add_le_add_right ih 1

theorem quotedLength_append {quote : Char} {rest : List Char}
    (h : (quotedLength quote rest).2 = true) (more : List Char) :
    quotedLength quote (rest.take (quotedLength quote rest).1 ++ more) = quotedLength quote rest := by
  fun_induction quotedLength quote rest with
  | case1 => cases h
  | case2 => cases h
  | case3 s rest n closed hrest ih =>
    have := ih (by rw [hrest]; exact h)
    rw [hrest] at this
    rw [List.take_succ_cons, List.take_succ_cons, List.cons_append, List.cons_append,
      quotedLength_cons, if_pos rfl]
    dsimp only
    rw [this]
  | case4 => cases h
  | case5 rest hslash hfeed =>
    rw [List.take_succ_cons, List.cons_append, quotedLength_cons, if_neg hslash, if_neg hfeed, if_pos rfl]
  | case6 c rest hslash hfeed hquote n closed hrest ih =>
    have := ih (by rw [hrest]; exact h)
    rw [hrest] at this
    rw [List.take_succ_cons, List.cons_append, quotedLength_cons, if_neg hslash, if_neg hfeed,
      if_neg hquote, this]

theorem three_le_textBlockLength {rest : List Char} (h : (textBlockLength rest).2 = true) :
    3 ≤ (textBlockLength rest).1 := by
  fun_induction textBlockLength rest with
  | case1 => cases h
  | case2 => cases h
  | case3 c rest n closed hrest ih =>
    rw [hrest] at ih
    exact Nat.le_trans (ih h) (Nat.le_add_right n 2)
  | case4 => exact Nat.le_refl 3
  | case5 c rest _ _ _ n closed hrest ih =>
    rw [hrest] at ih
    exact Nat.le_trans (ih h) (Nat.le_add_right n 1)

theorem textBlockLength_le (rest : List Char) : (textBlockLength rest).1 ≤ rest.length := by
  fun_induction textBlockLength rest with
  | case1 => exact Nat.le_refl 0
  | case2 => exact Nat.le_refl 1
  | case3 c rest n closed hrest ih =>
    rw [hrest] at ih
    exact Nat.add_le_add_right ih 2
  | case4 tail => exact Nat.le_add_left 3 tail.length
  | case5 c rest _ _ _ n closed hrest ih =>
    rw [hrest] at ih
    exact Nat.add_le_add_right ih 1

theorem textBlockLength_append {rest : List Char} (h : (textBlockLength rest).2 = true)
    (more : List Char) :
    textBlockLength (rest.take (textBlockLength rest).1 ++ more) = textBlockLength rest := by
  fun_induction textBlockLength rest with
  | case1 => cases h
  | case2 => cases h
  | case3 c rest n closed hrest ih =>
    have := ih (by rw [hrest]; exact h)
    rw [hrest] at this
    rw [List.take_succ_cons, List.take_succ_cons, List.cons_append, List.cons_append,
      textBlockLength, this]
  | case4 rest => rfl
  | case5 c rest hlast hslash hquote n closed hrest ih =>
    have hlen : 3 ≤ (textBlockLength rest).1 :=
      three_le_textBlockLength (by rw [hrest]; exact h)
    have := ih (by rw [hrest]; exact h)
    rw [hrest] at this hlen
    rw [List.take_succ_cons, List.cons_append, textBlockLength, this]
    · exact fun hc _ => by cases rest with
      | nil => exact hlast hc rfl
      | cons d rest => exact hslash d rest hc rfl
    · exact fun d more' hc _ => by cases rest with
      | nil => exact hlast hc rfl
      | cons d rest => exact hslash d rest hc rfl
    · -- the next two characters belong to the block, so they are those of the text
      intro tail hc htail
      have hle := textBlockLength_le rest
      rw [hrest] at hle
      obtain ⟨m, rfl⟩ := Nat.exists_eq_add_of_le' hlen
      match rest with
      | a :: b :: _ :: rest =>
        obtain ⟨ha, htail⟩ := List.cons.inj htail
        exact hquote _ hc (by rw [ha, (List.cons.inj htail).1])

/-- The letters that start the exponent of a number. -/
def startsExponent (hex : Bool) (c : Char) : Bool :=
  if hex then c = 'p' || c = 'P' else c = 'e' || c = 'E'

/-- The signs of exponents. -/
def isSign (c : Char) : Bool := c = '+' || c = '-'

theorem numberLength_cons (hex : Bool) (c : Char) (rest : List Char) :
    numberLength hex (c :: rest) =
      if c.isAlphanum || c = '_' then
        if startsExponent hex c then
          match rest with
          | [] => 1
          | s :: rest =>
            if isSign s then numberLength hex rest + 2
            else numberLength hex (s :: rest) + 1
        else numberLength hex rest + 1
      else if c = '.' && rest.head? ≠ some '.' then numberLength hex rest + 1
      else 0 := by
  cases rest <;> rfl

theorem numberLength_le (hex : Bool) (rest : List Char) : numberLength hex rest ≤ rest.length := by
  match rest with
  | [] => exact Nat.le_refl 0
  | c :: rest =>
    have hrest := numberLength_le hex rest
    rw [numberLength_cons, List.length_cons]
    split
    · split
      · cases rest with
        | nil => exact Nat.le_refl 1
        | cons s after =>
          have hafter := numberLength_le hex after
          dsimp only
          rw [List.length_cons] at hrest ⊢
          split <;> omega
      · omega
    · split <;> omega
termination_by rest.length

/-- Characters at which a number ends. -/
theorem numberLength_blank {hex : Bool} {c : Char} (h : isBlank c = true) (more : List Char) :
    numberLength hex (c :: more) = 0 := by
  simp only [isBlank, Bool.or_eq_true, decide_eq_true_eq] at h
  rcases h with (((rfl | rfl) | rfl) | rfl) | rfl <;> cases more <;> rfl

/-- Whether a sign comes after the letter that starts an exponent. -/
theorem signed_or_not (hex : Bool) (c : Char) (rest : List Char) :
    (startsExponent hex c = true ∧ ∃ s after, rest = s :: after ∧ isSign s = true) ∨
      (startsExponent hex c = true → ∀ s ∈ rest.head?, isSign s = false) := by
  refine Classical.or_iff_not_imp_left.2 fun hunsigned hexponent s hs => ?_
  obtain ⟨after, rfl⟩ := List.head?_eq_some_iff.1 hs
  exact Bool.eq_false_iff.2 fun hsign => hunsigned ⟨hexponent, s, after, rfl, hsign⟩

theorem numberLength_signed {hex : Bool} {c s : Char} (hword : (c.isAlphanum || c = '_') = true)
    (hexponent : startsExponent hex c = true) (hs : isSign s = true) (after : List Char) :
    numberLength hex (c :: s :: after) = numberLength hex after + 2 := by
  rw [numberLength_cons, if_pos hword, if_pos hexponent]
  exact if_pos hs

theorem numberLength_word {hex : Bool} {c : Char} {rest : List Char}
    (hword : (c.isAlphanum || c = '_') = true)
    (hsign : startsExponent hex c = true → ∀ s ∈ rest.head?, isSign s = false) :
    numberLength hex (c :: rest) = numberLength hex rest + 1 := by
  rw [numberLength_cons, if_pos hword]
  split
  · rename_i hexponent
    cases rest with
    | nil => rfl
    | cons s rest => exact if_neg (by rw [hsign hexponent s rfl]; exact Bool.false_ne_true)
  · rfl

theorem mem_head?_take_append {n : Nat} {rest more : List Char} {x : Char}
    (h : x ∈ (rest.take n ++ more).head?) : x ∈ rest.head? ∨ x ∈ more.head? := by
  cases n with
  | zero => exact .inr h
  | succ n =>
    cases rest with
    | nil => exact .inr h
    | cons c rest => exact .inl h

theorem numberLength_append {hex : Bool} {more : List Char} (h : Parted more) (rest : List Char) :
    numberLength hex (rest.take (numberLength hex rest) ++ more) = numberLength hex rest := by
  have hmore : numberLength hex more = 0 := by
    cases more with
    | nil => rfl
    | cons c more => exact numberLength_blank (h c rfl) more
  match rest with
  | [] => exact hmore
  | c :: rest =>
    have hpart : ∀ {s}, isSign s = true ∨ s = '.' → isBlank s = false := by
      intro s hs
      simp only [isSign, Bool.or_eq_true, decide_eq_true_eq] at hs
      rcases hs with (rfl | rfl) | rfl <;> decide
    -- what is looked at after the number is not its sign or point, and is not one after a blank
    have hhead : ∀ s ∈ (rest.take (numberLength hex rest) ++ more).head?,
        isSign s = true ∨ s = '.' → s ∈ rest.head? := by
      intro s hs hsign
      rcases mem_head?_take_append hs with hs | hs
      · exact hs
      · have := h s hs
        rw [hpart hsign] at this
        cases this
    by_cases hword : (c.isAlphanum || c = '_') = true
    · obtain ⟨hexponent, s, after, rfl, hs⟩ | hsign := signed_or_not hex c rest
      · have hlength := numberLength_signed hword hexponent hs
        rw [hlength, List.take_succ_cons, List.take_succ_cons, List.cons_append, List.cons_append,
          hlength, numberLength_append h after]
      · rw [numberLength_word hword hsign, List.take_succ_cons, List.cons_append,
          numberLength_word hword, numberLength_append h rest]
        intro hexponent s hs
        refine Bool.eq_false_iff.2 fun hsigned' => ?_
        have := hsign hexponent s (hhead s hs (.inl hsigned'))
        rw [hsigned'] at this
        cases this
    · have hpoint : ∀ rest, numberLength hex (c :: rest) =
          if (c = '.' && rest.head? ≠ some '.') = true then numberLength hex rest + 1 else 0 :=
        fun rest => by
          rw [numberLength_cons, if_neg hword]
      rw [hpoint]
      split
      · rename_i hdot
        obtain ⟨hc, hnext⟩ := Bool.and_eq_true_iff.1 hdot
        rw [List.take_succ_cons, List.cons_append, hpoint, if_pos, numberLength_append h rest]
        refine Bool.and_eq_true_iff.2 ⟨hc, decide_eq_true fun hdots => ?_⟩
        exact of_decide_eq_true hnext (hhead '.' hdots (.inr rfl))
      · exact hmore
termination_by rest.length

end Lengths

/-! ### Tokens before blanks -/

namespace Lexeme

/-- A word is cut off in the same way before any blank. -/
theorem takeWhile_parted {rest more : List Char} (hm : Parted more) :
    (rest.take (rest.takeWhile isIdentRest).length ++ more).takeWhile isIdentRest =
      rest.takeWhile isIdentRest := by
  rw [← List.prefix_iff_eq_take.1 (List.takeWhile_prefix isIdentRest),
    List.takeWhile_append_of_pos fun x hx =>
      List.all_eq_true.1 List.all_takeWhile x hx]
  have hnone : more.takeWhile isIdentRest = [] := by
    cases more with
    | nil => rfl
    | cons c more =>
      have hc := hm c rfl
      refine List.takeWhile_cons_of_neg fun hrest => ?_
      simp only [isBlank, Bool.or_eq_true, decide_eq_true_eq] at hc
      rcases hc with (((rfl | rfl) | rfl) | rfl) | rfl <;> revert hrest <;> decide
  rw [hnone, List.append_nil]

theorem isHex_parted {c : Char} {rest more : List Char} (hm : Parted more) :
    isHex c (rest.take (numberLength (isHex c rest) rest) ++ more) = isHex c rest := by
  have hmark : ∀ {x : Char}, x = 'x' ∨ x = 'X' → isBlank x = false ∧
      ∀ hex rest, numberLength hex (x :: rest) = numberLength hex rest + 1 := by
    rintro x (rfl | rfl)
    all_goals
      refine ⟨by decide, fun hex rest => numberLength_word (by decide) fun hexponent => ?_⟩
      cases hex <;> cases hexponent
  have hhead : ∀ x, x = 'x' ∨ x = 'X' →
      ((rest.take (numberLength (isHex c rest) rest) ++ more).head? = some x ↔
        rest.head? = some x) := by
    intro x hx
    constructor
    · intro hfirst
      refine (mem_head?_take_append hfirst).resolve_right fun hmem => ?_
      have := hm x hmem
      rw [(hmark hx).1] at this
      cases this
    · intro hfirst
      obtain ⟨after, rfl⟩ := List.head?_eq_some_iff.1 hfirst
      rw [(hmark hx).2]
      rfl
  unfold isHex at hhead ⊢
  rw [decide_eq_decide.2 (hhead 'x' (.inl rfl)), decide_eq_decide.2 (hhead 'X' (.inr rfl))]

/-- What starts a string that is closed does not start a text block where a blank follows. -/
theorem string_parted {n : Nat} {rest more : List Char}
    (hnoblock : ∀ body, rest = '"' :: '"' :: body → False)
    (hn : quotedLength '"' rest = (n, true)) (hm : Parted more) (body : List Char) :
    rest.take n ++ more = '"' :: '"' :: body → False := by
  intro heq
  match rest with
  | [] => cases hn
  | c :: rest =>
    have hpos : 0 < (quotedLength '"' (c :: rest)).1 := quotedLength_pos (by rw [hn])
    rw [hn] at hpos
    obtain ⟨m, rfl⟩ := Nat.exists_eq_add_of_le' hpos
    rw [List.take_succ_cons, List.cons_append] at heq
    obtain ⟨rfl, hnext⟩ := List.cons.inj heq
    obtain rfl : m = 0 := by
      rw [quotedLength_cons, if_neg (by decide), if_neg (by decide), if_pos rfl] at hn
      cases hn
      rfl
    have := hm '"' (by rw [show more = '"' :: body from hnext]; rfl)
    revert this
    decide

/-- Before a blank, no mark starts a longer lexeme. -/
theorem alone_parted {c : Char} {more : List Char} (hm : Parted more) : Alone c more := by
  have hblank : ∀ d, isBlank d = true → (d ≠ '/' ∧ d ≠ '*') ∧ d.isDigit = false ∧ d ≠ '.' := by
    intro d hd
    simp only [isBlank, Bool.or_eq_true, decide_eq_true_eq] at hd
    rcases hd with (((rfl | rfl) | rfl) | rfl) | rfl <;> decide
  refine ⟨fun _ d hd => (hblank d (hm d hd)).1, ?_⟩
  rintro - d rest rfl
  obtain ⟨-, hdigit, hdot⟩ := hblank d (hm d rfl)
  exact ⟨hdigit, fun hd => absurd hd hdot⟩

/-- A digit after a point belongs to the number. -/
theorem numberLength_digit {d : Char} (hd : d.isDigit = true) (rest : List Char) :
    numberLength false (d :: rest) = numberLength false rest + 1 := by
  refine numberLength_word (by simp [Char.isAlphanum, hd]) fun hexponent => ?_
  simp only [startsExponent, Bool.false_eq_true, if_false, Bool.or_eq_true,
    decide_eq_true_eq] at hexponent
  rcases hexponent with rfl | rfl <;> cases hd

/-- A token ends where the text ends, or before. -/
theorem next_le {c : Char} {k : TokenKind} {n : Nat} {rest : List Char}
    (h : next c rest = (.token k, n)) : n ≤ rest.length := by
  cases starts_of_next h with
  | word => exact (List.takeWhile_prefix _).length_le
  | number | decimals => exact numberLength_le _ _
  | @textBlock body n closed =>
    have hle := textBlockLength_le body
    rw [closed] at hle
    exact Nat.add_le_add_right hle 2
  | string _ closed =>
    have hle := quotedLength_le '"' rest
    rwa [closed] at hle
  | character closed =>
    have hle := quotedLength_le '\'' rest
    rwa [closed] at hle
  | ellipsis => exact Nat.le_add_left 2 _
  | mark => exact Nat.zero_le _

/-- **A token is cut off in the same way before any blank.** -/
theorem next_parted {c : Char} {k : TokenKind} {n : Nat} {rest more : List Char}
    (h : next c rest = (.token k, n)) (hm : Parted more) :
    next c (rest.take n ++ more) = (.token k, n) := by
  refine Starts.next ?_
  cases starts_of_next h with
  | word start =>
    have hstarts := @Starts.word c (rest.take (rest.takeWhile isIdentRest).length ++ more) start
    rwa [takeWhile_parted hm] at hstarts
  | number digit =>
    have hstarts :=
      @Starts.number c (rest.take (numberLength (isHex c rest) rest) ++ more) digit
    rwa [isHex_parted hm, numberLength_append hm] at hstarts
  | @textBlock body n closed =>
    have hblock := textBlockLength_append (congrArg Prod.snd closed) more
    rw [closed] at hblock
    exact .textBlock hblock
  | string noBlock closed =>
    have hquoted := quotedLength_append (congrArg Prod.snd closed) more
    rw [closed] at hquoted
    exact .string (string_parted noBlock closed hm) hquoted
  | character closed =>
    have hquoted := quotedLength_append (congrArg Prod.snd closed) more
    rw [closed] at hquoted
    exact .character hquoted
  | ellipsis => exact .ellipsis
  | @decimals d rest digit =>
    have happend := @numberLength_append false more hm (d :: rest)
    rw [numberLength_digit digit] at happend ⊢
    rw [List.take_succ_cons, List.cons_append] at happend ⊢
    have hstarts := @Starts.decimals d (rest.take (numberLength false rest) ++ more) digit
    rwa [happend] at hstarts
  | mark kind => exact .mark kind (alone_parted hm)

end Lexeme

/-! ### Lexing -/

/-- The words that a text is lexed as, without errors. -/
def LexesTo (cs : List Char) (ws : List Word) : Prop :=
  ∀ file pos, ((Lexeme.all pos cs).filterMap (Lexeme.token? file)).map Token.word = ws ∧
    (Lexeme.all pos cs).filterMap (Lexeme.error? file) = []

/-- A word is lexed as itself where nothing or a blank follows. -/
def Word.Stands (w : Word) : Prop :=
  ∃ c cs, w.2.toList = c :: cs ∧ isBlank c = false ∧
    ∀ more, Parted more → Lexeme.next c (cs ++ more) = (.token w.1, cs.length)

section Lexing

variable {c : Char} {rest tr : List Char} {ws : List Word}

theorem LexesTo.nil : LexesTo [] [] := fun _ pos => by
  rw [Lexeme.all]
  exact ⟨rfl, rfl⟩

theorem LexesTo.blank (h : isBlank c = true) (hrest : LexesTo (rest.dropWhile isBlank) ws) :
    LexesTo (c :: rest) ws := by
  intro file pos
  have hnext := (@Lexeme.Starts.blank c rest h).next
  have hdrop : rest.drop (rest.takeWhile isBlank).length = rest.dropWhile isBlank := by
    have hparts := List.takeWhile_append_dropWhile (p := isBlank) (l := rest)
    exact (congrArg (List.drop _) hparts.symm).trans List.drop_left
  rw [Lexeme.all, hnext]
  dsimp only
  rw [hdrop]
  exact hrest file _

theorem LexesTo.comment {n : Nat} (h : Lexeme.next c rest = (.comment, n))
    (hrest : LexesTo (rest.drop n) ws) : LexesTo (c :: rest) ws := by
  intro file pos
  rw [Lexeme.all, h]
  exact hrest file _

theorem LexesTo.word {w : Word} (hw : w.Stands) (hrest : LexesTo rest ws) (hm : Parted rest) :
    LexesTo (w.2.toList ++ rest) (w :: ws) := by
  intro file pos
  obtain ⟨c, cs, htext, -, hnext⟩ := hw
  rw [htext, List.cons_append, Lexeme.all, hnext rest hm]
  dsimp only
  rw [List.take_left, List.drop_left]
  obtain ⟨hwords, herrors⟩ := hrest file (pos + byteLength (c :: cs))
  refine ⟨?_, herrors⟩
  have htok : Lexeme.token? file ⟨.token w.1, c :: cs, pos⟩ =
      some ⟨w.1, w.2, (⟨.token w.1, c :: cs, pos⟩ : Lexeme).span file⟩ := by
    rw [← htext, Lexeme.token?, String.ofList_toList]
    rfl
  rw [List.filterMap_cons_some htok, List.map_cons, hwords]
  rfl

/-- Before what is no blank, blanks and comments are lexed as nothing. -/
theorem Trivia.lexesTo (h : Trivia tr) (hrest : LexesTo rest ws)
    (hstart : ∀ c ∈ rest.head?, isBlank c = false) :
    LexesTo (tr ++ rest) ws ∧ LexesTo ((tr ++ rest).dropWhile isBlank) ws := by
  -- blanks that adjoin are one lexeme, so what follows them is lexed after all of them
  induction h with
  | nil =>
    have hdrop : rest.dropWhile isBlank = rest := by
      cases rest with
      | nil => rfl
      | cons c rest =>
        exact List.dropWhile_cons_of_neg (by rw [hstart c rfl]; exact Bool.false_ne_true)
    rw [List.nil_append, hdrop]
    exact ⟨hrest, hrest⟩
  | blank space more ih =>
    rw [List.cons_append, List.dropWhile_cons_of_pos space]
    exact ⟨.blank space ih.2, ih.2⟩
  | @line text more inside _ ih =>
    have hnext : Lexeme.next '/' ('/' :: (text ++ '\n' :: (more ++ rest))) =
        (.comment, text.length + 1) := by
      show (LexemeKind.comment, ((text ++ '\n' :: (more ++ rest)).takeWhile (· ≠ '\n')).length + 1) = _
      rw [List.takeWhile_append_of_pos fun x hx =>
          decide_eq_true (ne_of_mem_of_not_mem hx inside),
        List.takeWhile_cons_of_neg (by decide), List.append_nil]
    have hline : LexesTo ('/' :: '/' :: (text ++ '\n' :: (more ++ rest))) ws := by
      refine .comment hnext ?_
      rw [List.drop_succ_cons, List.drop_left]
      exact .blank (by decide) ih.2
    rw [List.cons_append, List.cons_append, List.append_assoc, List.cons_append,
      List.dropWhile_cons_of_neg (by decide)]
    exact ⟨hline, hline⟩
  | @block text more inside _ ih =>
    have hnext : Lexeme.next '/' ('*' :: (text ++ '*' :: '/' :: (more ++ rest))) =
        (.comment, text.length + 3) := (Lexeme.Starts.block (commentLength?_of_text inside _)).next
    have hblock : LexesTo ('/' :: '*' :: (text ++ '*' :: '/' :: (more ++ rest))) ws := by
      refine .comment hnext ?_
      have hdrop : ('*' :: (text ++ '*' :: '/' :: (more ++ rest))).drop (text.length + 3) =
          more ++ rest := by
        rw [List.drop_succ_cons, List.drop_append]
        simp
      rw [hdrop]
      exact ih.1
    rw [List.cons_append, List.cons_append, List.append_assoc, List.cons_append, List.cons_append,
      List.dropWhile_cons_of_neg (by decide)]
    exact ⟨hblock, hblock⟩

theorem Word.Stands.head {w : Word} (h : w.Stands) :
    ∀ c ∈ (w.2.toList ++ rest).head?, isBlank c = false := by
  obtain ⟨c, cs, htext, hc, -⟩ := h
  rw [htext]
  rintro x hx
  exact Option.some.inj hx ▸ hc

/-- Words are lexed as themselves, whatever blanks and comments stand between them. -/
theorem Spread.lexesTo {text : List Char} (h : Spread ws text) (hws : ∀ w ∈ ws, w.Stands) :
    LexesTo text ws ∧ ∀ c ∈ text.head?, isBlank c = false := by
  induction h with
  | nil => exact ⟨.nil, fun c hc => by cases hc⟩
  | last w =>
    have hw := List.forall_mem_singleton.1 hws
    have hlast := LexesTo.word hw .nil .nil
    have hhead := @Word.Stands.head [] w hw
    rw [List.append_nil] at hlast hhead
    exact ⟨hlast, hhead⟩
  | cons between more ih =>
    obtain ⟨hw, hws⟩ := List.forall_mem_cons.1 hws
    obtain ⟨hrest, hstart⟩ := ih hws
    refine ⟨.word hw ?_ between.parted, hw.head⟩
    cases between with
    | mk space tr => exact ((Trivia.blank space tr).lexesTo hrest hstart).1

/-- The tokens of a text without lexical errors are lexed as themselves. -/
theorem stands_of_all {file pos : Nat} {cs : List Char}
    (h : (Lexeme.all pos cs).filterMap (Lexeme.error? file) = []) :
    ∀ t ∈ (Lexeme.all pos cs).filterMap (Lexeme.token? file), t.word.Stands := by
  induction pos, cs using Lexeme.all.induct with
  | case1 => 
    rw [Lexeme.all]
    exact fun t ht => by cases ht
  | case2 pos c rest kind n hnext chars ih =>
    rw [Lexeme.all, hnext] at h ⊢
    have hrest : (Lexeme.all (pos + byteLength chars) (rest.drop n)).filterMap (Lexeme.error? file) =
        [] := (List.filterMap_eq_nil_iff.2 fun l hl =>
      List.filterMap_eq_nil_iff.1 h l (List.mem_cons_of_mem _ hl))
    intro t ht
    obtain ⟨l, hl, htok⟩ := List.mem_filterMap.1 ht
    rcases List.mem_cons.1 hl with rfl | hl
    · -- the lexeme is no fault, so it is a token
      have hfault := List.filterMap_eq_nil_iff.1 h _ List.mem_cons_self
      obtain ⟨k, hk, rfl⟩ := Option.map_eq_some_iff.1 htok
      obtain rfl : kind = .token k := by
        cases kind with
        | blank => cases hk
        | comment => cases hk
        | token k' => cases hk; rfl
        | fault f => cases hfault
      have hle := Lexeme.next_le hnext
      refine ⟨c, rest.take n, String.toList_ofList, ?_, fun more hm => ?_⟩
      · refine Bool.eq_false_iff.2 fun hblank => ?_
        rw [(Lexeme.Starts.blank hblank).next] at hnext
        cases hnext
      · rw [List.length_take, Nat.min_eq_left hle]
        exact Lexeme.next_parted hnext hm
    · exact ih hrest t (List.mem_filterMap.2 ⟨l, hl, htok⟩)

end Lexing

/-- A text of words with blanks and comments before, between and after them. -/
def Respaced (ws : List Word) (text : String) : Prop :=
  ∃ tr body, text.toList = tr ++ body ∧ Trivia tr ∧ Spread ws body

/-- The tokens of words, however they are spaced. -/
theorem lex_respaced (file : Nat) {ws : List Word} {text : String} (h : Respaced ws text)
    (hws : ∀ w ∈ ws, w.Stands) :
    (lex file text).1.map Token.word = ws ++ [(.eof, "")] ∧ (lex file text).2 = [] := by
  obtain ⟨tr, body, htext, htr, hbody⟩ := h
  obtain ⟨hlexes, hstart⟩ := hbody.lexesTo hws
  obtain ⟨hwords, herrors⟩ := (htr.lexesTo hlexes hstart).1 file 0
  rw [lex, htext]
  refine ⟨?_, herrors⟩
  dsimp only
  rw [List.map_append, hwords]
  rfl

/-- **Formatting and comments decide nothing.** However the tokens of a text without lexical errors
    are spaced, they are lexed as the same words, without errors, and parsed to the same unit, but
    for places, with the same names and the same messages. -/
theorem parse_respaced {file file' : Nat} {source source' : String} {ws : List Word} {t : NameTable}
    (hclean : (lex file source).2 = [])
    (hws : (lex file source).1.map Token.word = ws ++ [(.eof, "")]) (h : Respaced ws source') :
    (lex file' source').1.map Token.word = (lex file source).1.map Token.word ∧
      (lex file' source').2 = [] ∧
      (parse file' source' t).1.bare = (parse file source t).1.bare ∧
      (parse file' source' t).2.1 = (parse file source t).2.1 ∧
      (parse file' source' t).2.2.map Diagnostic.message =
        (parse file source t).2.2.map Diagnostic.message := by
  have hstands : ∀ w ∈ ws, w.Stands := by
    have htokens : ((Lexeme.all 0 source.toList).filterMap (Lexeme.token? file)).map Token.word = ws := by
      rw [lex] at hws
      dsimp only at hws
      rw [List.map_append] at hws
      exact List.append_inj_left' hws rfl
    rw [← htokens]
    exact List.forall_mem_map.2 (stands_of_all hclean)
  obtain ⟨hwords, herrors⟩ := lex_respaced file' h hstands
  have hahead : (ParserState.start file' source' t).ahead = (ParserState.start file source t).ahead :=
    hwords.trans hws.symm
  have hmatch : Matched .places (.start file source t) (.start file' source' t) :=
    .places ⟨rfl, rfl⟩ hahead rfl
  obtain ⟨hend, hbare⟩ := (Parser.unit_places hmatch trivial trivial).resolve_left id
  rw [parse_eq, parse_eq, herrors, hclean]
  have hfound := hend.found rfl
  exact ⟨hwords.trans hws.symm, rfl, hbare.symm, hfound.names, hfound.messages⟩

/-- The words of an empty class. -/
def emptyClass : List Word := [(.kwClass, "class"), .ident "A", .leftBrace, .rightBrace]

theorem emptyClass_respaced : Respaced emptyClass "// a class\nclass\t/* A */A \x7b\n\x7d" := by
  have hnone : ¬ ['*', '/'] <:+: " A ".toList := fun hin => by
    have hslash := hin.subset (List.mem_cons_of_mem _ List.mem_cons_self)
    revert hslash
    decide
  refine ⟨"// a class\n".toList, "class\t/* A */A \x7b\n\x7d".toList, by decide,
    .line (t := " a class".toList) (by decide) .nil, ?_⟩
  refine .cons (w := (.kwClass, "class")) (g := "\t/* A */".toList)
    (t := "A \x7b\n\x7d".toList) (.mk (by decide) (.block hnone .nil)) ?_
  refine .cons (w := .ident "A") (g := [' ']) (t := "\x7b\n\x7d".toList)
    (.mk (by decide) .nil) ?_
  exact .cons (w := .leftBrace) (g := ['\n']) (.mk (by decide) .nil) (.last .rightBrace)

theorem parse_emptyClass_respaced :
    (parse 0 "// a class\nclass\t/* A */A \x7b\n\x7d" .fresh).1.bare =
      (parse 0 (printed emptyClass) .fresh).1.bare := by
  obtain ⟨hws, hclean⟩ := @lex_printed 0 emptyClass fun w hw =>
    Word.lexes_of_isPlain (by revert w; decide)
  exact (parse_respaced hclean hws emptyClass_respaced).2.2.1

end JavaAbi
