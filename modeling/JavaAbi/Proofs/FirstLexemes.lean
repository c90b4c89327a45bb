import JavaAbi.Syntax.Lexer

namespace JavaAbi

/-!
# What a text starts with

The lexer takes one lexeme from the start of a text. `Lexeme.Starts` has one case for each kind of
lexeme that it can take, with what decides for it; all that is said about single lexemes is said case
by case.

* `Lexeme.Starts` — what a text starts with;
* `Lexeme.starts_of_next`, `Lexeme.Starts.next` — that is what the lexer takes.
-/

/-- What starts an identifier is no blank. -/
theorem isBlank_of_isIdentStart {c : Char} (h : isIdentStart c = true) : isBlank c = false := by
  rw [Bool.eq_false_iff]
  intro hblank
  simp only [isBlank, Bool.or_eq_true, decide_eq_true_eq] at hblank
  rcases hblank with (((rfl | rfl) | rfl) | rfl) | rfl <;> revert h <;> decide

/-- A digit is no blank and starts no identifier. -/
theorem plain_of_isDigit {c : Char} (h : c.isDigit = true) :
    isBlank c = false ∧ isIdentStart c = false := by
  simp only [Char.isDigit, Bool.and_eq_true, decide_eq_true_eq, ge_iff_le,
    UInt32.le_iff_toNat_le] at h
  refine ⟨Bool.eq_false_iff.2 fun hblank => ?_, Bool.eq_false_iff.2 fun hident => ?_⟩
  · simp only [isBlank, Bool.or_eq_true, decide_eq_true_eq] at hblank
    rcases hblank with (((rfl | rfl) | rfl) | rfl) | rfl <;> revert h <;> decide
  · have hletter : c.isAlpha = (decide ('A'.val ≤ c.val ∧ c.val ≤ 'Z'.val) ||
        decide ('a'.val ≤ c.val) && decide (c.val ≤ 'z'.val)) := rfl
    simp only [isIdentStart, hletter, Bool.or_eq_true, decide_eq_true_eq, Bool.and_eq_true,
      UInt32.le_iff_toNat_le] at hident
    rcases hident with (((hupper | hlower) | rfl) | rfl) | hbeyond
    · exact absurd (Nat.le_trans hupper.1 h.2) (by decide)
    · exact absurd (Nat.le_trans hlower.1 h.2) (by decide)
    · exact absurd h.2 (by decide)
    · exact absurd h.1 (by decide)
    · exact absurd (Nat.le_trans hbeyond h.2) (by decide)

/-- A mark is no blank and no digit, and starts no identifier. -/
theorem plain_of_punctuation? {c : Char} {k : TokenKind} (h : punctuation? c = some k) :
    isBlank c = false ∧ isIdentStart c = false ∧ c.isDigit = false := by
  unfold punctuation? at h
  split at h <;> cases h <;> decide

namespace Lexeme

/-- Whether a number is hexadecimal. -/
def isHex (c : Char) (rest : List Char) : Bool :=
  c = '0' && (rest.head? = some 'x' || rest.head? = some 'X')

/-- No longer lexeme starts with the mark `c`. -/
def Alone (c : Char) (rest : List Char) : Prop :=
  (c = '/' → ∀ d ∈ rest.head?, d ≠ '/' ∧ d ≠ '*') ∧
    (c = '.' → ∀ d more, rest = d :: more → d.isDigit = false ∧ (d = '.' → more.head? ≠ some '.'))

/-- What a text starts with: the kind of the lexeme of its first character, and how many of the
    characters that follow belong to it. -/
inductive Starts : Char → List Char → LexemeKind → Nat → Prop
  | blank {c : Char} {rest : List Char} (blank : isBlank c = true) :
      Starts c rest .blank (rest.takeWhile isBlank).length
  | word {c : Char} {rest : List Char} (start : isIdentStart c = true) :
      Starts c rest (.token ((TokenKind.ofKeyword?
        (String.ofList (c :: rest.takeWhile isIdentRest))).getD .identifier))
        (rest.takeWhile isIdentRest).length
  | number {c : Char} {rest : List Char} (digit : c.isDigit = true) :
      Starts c rest (.token .numberLiteral) (numberLength (isHex c rest) rest)
  | line {body : List Char} :
      Starts '/' ('/' :: body) .comment ((body.takeWhile (· ≠ '\n')).length + 1)
  | block {body : List Char} {n : Nat} (closed : commentLength? body = some n) :
      Starts '/' ('*' :: body) .comment (n + 1)
  | openBlock {body : List Char} (unclosed : commentLength? body = none) :
      Starts '/' ('*' :: body) (.fault .unclosedComment) (body.length + 1)
  | textBlock {body : List Char} {n : Nat} (closed : textBlockLength body = (n, true)) :
      Starts '"' ('"' :: '"' :: body) (.token .stringLiteral) (n + 2)
  | openTextBlock {body : List Char} {n : Nat} (unclosed : textBlockLength body = (n, false)) :
      Starts '"' ('"' :: '"' :: body) (.fault .unclosedTextBlock) (n + 2)
  | string {body : List Char} {n : Nat} (noBlock : ∀ more, body = '"' :: '"' :: more → False)
      (closed : quotedLength '"' body = (n, true)) : Starts '"' body (.token .stringLiteral) n
  | openString {body : List Char} {n : Nat} (noBlock : ∀ more, body = '"' :: '"' :: more → False)
      (unclosed : quotedLength '"' body = (n, false)) :
      Starts '"' body (.fault .unclosedString) n
  | character {body : List Char} {n : Nat} (closed : quotedLength '\'' body = (n, true)) :
      Starts '\'' body (.token .charLiteral) n
  | openCharacter {body : List Char} {n : Nat} (unclosed : quotedLength '\'' body = (n, false)) :
      Starts '\'' body (.fault .unclosedCharacter) n
  | ellipsis {body : List Char} : Starts '.' ('.' :: '.' :: body) (.token .ellipsis) 2
  | decimals {d : Char} {rest : List Char} (digit : d.isDigit = true) :
      Starts '.' (d :: rest) (.token .numberLiteral) (numberLength false (d :: rest))
  | mark {c : Char} {rest : List Char} {k : TokenKind} (kind : punctuation? c = some k)
      (alone : Alone c rest) : Starts c rest (.token k) 0
  | other {c : Char} {rest : List Char} (noBlank : isBlank c = false)
      (noWord : isIdentStart c = false) (noDigit : c.isDigit = false)
      (noQuote : c ≠ '"' ∧ c ≠ '\'') (noMark : punctuation? c = none) :
      Starts c rest (.fault .unexpectedCharacter) 0

variable {c : Char} {rest : List Char} {kind : LexemeKind} {n : Nat}

/-- **The lexer takes what a text starts with.** -/
theorem starts_of_next (h : next c rest = (kind, n)) : Starts c rest kind n := by
  unfold next at h
  split at h
  · cases h
    exact .blank ‹_›
  rename_i hblank
  split at h
  · cases h
    exact .word ‹_›
  rename_i hident
  split at h
  · cases h
    exact .number ‹_›
  rename_i hdigit
  split at h
  -- What is left starts with a mark that needs a look at what follows it, or with one that does
  -- not.
  case h_1 body =>
    cases h
    exact .line
  case h_2 body =>
    split at h <;> cases h
    · exact .block ‹_›
    · exact .openBlock ‹_›
  case h_3 body =>
    cases hbody : textBlockLength body with
    | mk m closed =>
      rw [hbody] at h
      cases closed <;> cases h
      · exact .openTextBlock hbody
      · exact .textBlock hbody
  case h_4 hnoblock =>
    cases hbody : quotedLength '"' rest with
    | mk m closed =>
      rw [hbody] at h
      cases closed <;> cases h
      · exact .openString hnoblock hbody
      · exact .string hnoblock hbody
  case h_5 =>
    cases hbody : quotedLength '\'' rest with
    | mk m closed =>
      rw [hbody] at h
      cases closed <;> cases h
      · exact .openCharacter hbody
      · exact .character hbody
  case h_6 tail =>
    cases h
    exact .ellipsis
  -- A point before a digit starts a number; else it is alone, as the case of three points is past.
  case h_7 d more hnodots =>
    split at h <;> cases h
    · exact .decimals ‹_›
    · refine .mark rfl ⟨fun hc => absurd hc (by decide), ?_⟩
      rintro - _ _ ⟨⟩
      refine ⟨Bool.eq_false_iff.2 ‹_›, fun hd hhead => ?_⟩
      obtain ⟨tail, rfl⟩ := List.head?_eq_some_iff.1 hhead
      exact hnodots tail hd rfl
  -- All that could make the mark longer was excluded by the cases before.
  case h_8 hquote hapostrophe hline hblock hnoblock hdots hpoint =>
    split at h <;> cases h
    · refine .mark ‹_› ⟨fun hc d hd => ?_, fun hc d more hrest => (hpoint d more hc hrest).elim⟩
      obtain ⟨more, rfl⟩ := List.head?_eq_some_iff.1 hd
      constructor
      · rintro rfl
        exact hline more hc rfl
      · rintro rfl
        exact hblock more hc rfl
    · exact .other (Bool.eq_false_iff.2 hblank) (Bool.eq_false_iff.2 hident)
        (Bool.eq_false_iff.2 hdigit) ⟨hquote, hapostrophe⟩ ‹_›

/-- **What a text starts with is what the lexer takes.** -/
theorem Starts.next (h : Starts c rest kind n) : Lexeme.next c rest = (kind, n) := by
  cases h with
  | blank blank =>
    unfold Lexeme.next
    rw [if_pos blank]
  | word start =>
    unfold Lexeme.next
    rw [isBlank_of_isIdentStart start, if_neg Bool.false_ne_true, if_pos start]
  | number digit =>
    -- The cases are tried in order, so the earlier ones must not apply.
    obtain ⟨hblank, hident⟩ := plain_of_isDigit digit
    unfold Lexeme.next
    rw [hblank, if_neg Bool.false_ne_true, hident, if_neg Bool.false_ne_true, if_pos digit]
    rfl
  | line | ellipsis => rfl
  | block closed | openBlock closed | textBlock closed | openTextBlock closed
  | string _ closed | openString _ closed | character closed | openCharacter closed =>
    unfold Lexeme.next
    rw [if_neg (by decide), if_neg (by decide), if_neg (by decide)]
    simp [closed, literal]
  | @decimals d more digit =>
    have hdots : ∀ tail, d = '.' → more = '.' :: tail → False := by
      rintro tail rfl -
      cases digit
    unfold Lexeme.next
    rw [if_neg (by decide), if_neg (by decide), if_neg (by decide)]
    simp only
    rw [if_pos digit]
  | mark kind alone =>
    obtain ⟨hblank, hident, hdigit⟩ := plain_of_punctuation? kind
    unfold Lexeme.next
    rw [hblank, if_neg Bool.false_ne_true, hident, if_neg Bool.false_ne_true, hdigit,
      if_neg Bool.false_ne_true]
    split
    -- The longer lexemes are excluded since the mark stands alone.
    case h_1 body => exact absurd rfl (alone.1 rfl _ rfl).1
    case h_2 body => exact absurd rfl (alone.1 rfl _ rfl).2
    case h_3 | h_4 | h_5 => cases kind
    case h_6 tail => exact absurd rfl ((alone.2 rfl _ _ rfl).2 rfl)
    case h_7 d more _ =>
      rw [(alone.2 rfl d more rfl).1, if_neg Bool.false_ne_true]
      cases kind
      rfl
    case h_8 => rw [kind]
  | other noBlank noWord noDigit noQuote noMark =>
    unfold Lexeme.next
    rw [noBlank, if_neg Bool.false_ne_true, noWord, if_neg Bool.false_ne_true, noDigit,
      if_neg Bool.false_ne_true]
    split
    case h_3 | h_4 => exact absurd rfl noQuote.1
    case h_5 => exact absurd rfl noQuote.2
    case h_8 => rw [noMark]
    all_goals cases noMark

end Lexeme

end JavaAbi
