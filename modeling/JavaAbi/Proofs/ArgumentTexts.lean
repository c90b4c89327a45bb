import JavaAbi.Proofs.LexedText
import JavaAbi.Proofs.VisibleDeclarations

namespace JavaAbi

/-!
# Texts with arguments

The text of a type is a name, and its arguments between brackets after it. The arguments can be read
off such a text again, if each of them closes the brackets that it opens and has no comma outside of
them.

* `openAfter`, `ClosedText` — the brackets that a text leaves open, and the texts that can be told
  apart where commas separate them;
* `argumentText_inj` — a text with arguments determines the arguments;
* `closedText_of_lex` — what is lexed as an identifier has neither brackets nor commas;
* `parseBatch_closed` — so the names of a batch are closed texts.
-/

/-! ### Brackets -/

/-- How many brackets are open behind some characters, when `depth` are open before them. There is
    no answer where one is closed that is not open, or where a comma stands outside of all
    brackets. -/
def openAfter (depth : Nat) : List Char → Option Nat
  | [] => some depth
  | c :: rest =>
    if c = '<' then openAfter (depth + 1) rest
    else if c = '>' then
      match depth with
      | 0 => none
      | depth + 1 => openAfter depth rest
    else if c = ',' ∧ depth = 0 then none
    else openAfter depth rest

/-- A text that closes all brackets that it opens, and has no comma outside of them. -/
def ClosedText (text : String) : Prop := openAfter 0 text.toList = some 0

instance (text : String) : Decidable (ClosedText text) :=
  inferInstanceAs (Decidable (openAfter 0 text.toList = some 0))

section Brackets

variable {cs ds : List Char} {depth inside : Nat}

theorem openAfter_append (cs ds : List Char) (depth : Nat) :
    openAfter depth (cs ++ ds) = (openAfter depth cs).bind (openAfter · ds) := by
  induction cs generalizing depth with
  | nil => rfl
  | cons c cs ih =>
    simp only [List.cons_append, openAfter]
    split
    · exact ih _
    · split
      · cases depth with
        | zero => rfl
        | succ depth => exact ih _
      · split
        · rfl
        · exact ih _

/-- Inside of brackets no less is allowed. -/
theorem openAfter_inside (more : Nat) (h : openAfter depth cs = some inside) :
    openAfter (depth + more) cs = some (inside + more) := by
  induction cs generalizing depth with
  | nil =>
    cases h
    rfl
  | cons c cs ih =>
    simp only [openAfter] at h ⊢
    by_cases hopen : c = '<'
    · rw [if_pos hopen] at h ⊢
      rw [Nat.add_right_comm]
      exact ih h
    · rw [if_neg hopen] at h ⊢
      by_cases hclose : c = '>'
      · rw [if_pos hclose] at h ⊢
        cases depth with
        | zero => cases h
        | succ depth =>
          rw [Nat.add_right_comm]
          exact ih h
      · rw [if_neg hclose] at h ⊢
        split at h
        · -- A comma outside of all brackets is refused; further inside it is not outside.
          cases h
        · rename_i hcomma
          rw [if_neg fun hc => hcomma ⟨hc.1, by omega⟩]
          exact ih h

/-- Characters that are neither brackets nor commas change nothing. -/
theorem openAfter_plain (h : ∀ c ∈ cs, c ≠ '<' ∧ c ≠ '>' ∧ c ≠ ',') (depth : Nat) :
    openAfter depth cs = some depth := by
  induction cs with
  | nil => rfl
  | cons c cs ih =>
    obtain ⟨hopen, hclose, hcomma⟩ := h c List.mem_cons_self
    unfold openAfter
    rw [if_neg hopen, if_neg hclose, if_neg fun hc => hcomma hc.1]
    exact ih fun c hc => h c (List.mem_cons_of_mem _ hc)

/-- Characters that go on with a comma are closed only if they go on with nothing. -/
theorem eq_nil_of_openAfter {more : List Char} (hc : openAfter 0 cs = some 0)
    (h : openAfter 0 (cs ++ more) = some 0) (hmore : ∀ c ∈ more.head?, c = ',') : more = [] := by
  cases more with
  | nil => rfl
  | cons c more =>
    obtain rfl := hmore c rfl
    rw [openAfter_append, hc] at h
    cases h

/-- **Where commas end closed texts, the texts are determined.** -/
theorem eq_of_append_eq {rest rest' : List Char} (hc : openAfter 0 cs = some 0)
    (hd : openAfter 0 ds = some 0) (hrest : ∀ c ∈ rest.head?, c = ',')
    (hrest' : ∀ c ∈ rest'.head?, c = ',') (h : cs ++ rest = ds ++ rest') :
    cs = ds ∧ rest = rest' := by
  rcases List.append_eq_append_iff.1 h with ⟨more, rfl, rfl⟩ | ⟨more, rfl, rfl⟩
  · have hnil : more = [] := eq_nil_of_openAfter hc hd fun c hm => hrest c (by
      rw [List.head?_append, Option.mem_def.1 hm]; rfl)
    rw [hnil, List.append_nil]
    exact ⟨rfl, rfl⟩
  · have hnil : more = [] := eq_nil_of_openAfter hd hc fun c hm => hrest' c (by
      rw [List.head?_append, Option.mem_def.1 hm]; rfl)
    rw [hnil, List.append_nil]
    exact ⟨rfl, rfl⟩

end Brackets

/-! ### Closed texts -/

namespace ClosedText

variable {text more : String} {texts texts' : List String}

theorem openAfter (h : ClosedText text) (depth : Nat) :
    openAfter depth text.toList = some depth := by
  have hmore := openAfter_inside depth h
  rwa [Nat.zero_add] at hmore

theorem append (h : ClosedText text) (h' : ClosedText more) : ClosedText (text ++ more) := by
  rw [ClosedText, String.toList_append, openAfter_append, h.openAfter]
  exact h'

/-- A text without brackets and commas. -/
theorem of_plain (h : ∀ c ∈ text.toList, c ≠ '<' ∧ c ≠ '>' ∧ c ≠ ',') : ClosedText text :=
  openAfter_plain h 0

/-- Closed texts that are joined by a text that may stand in brackets, in brackets. -/
theorem openAfter_intercalate {separator : String} {depth : Nat}
    (hsep : JavaAbi.openAfter depth separator.toList = some depth)
    (h : ∀ text ∈ texts, ClosedText text) :
    JavaAbi.openAfter depth (separator.intercalate texts).toList = some depth := by
  induction texts with
  | nil => rfl
  | cons text texts ih =>
    cases texts with
    | nil =>
      rw [String.intercalate_singleton]
      exact (h text List.mem_cons_self).openAfter depth
    | cons next texts =>
      rw [String.intercalate_cons_cons, String.toList_append, String.toList_append,
        openAfter_append, openAfter_append, (h text List.mem_cons_self).openAfter depth,
        Option.bind_some, hsep, Option.bind_some]
      exact ih fun text ht => h text (List.mem_cons_of_mem _ ht)

/-- Names joined by dots. -/
theorem dotted (h : ∀ text ∈ texts, ClosedText text) : ClosedText (".".intercalate texts) :=
  openAfter_intercalate rfl h

/-- Arguments in brackets. -/
theorem enclosed (h : ∀ text ∈ texts, ClosedText text) :
    ClosedText ("<" ++ ", ".intercalate texts ++ ">") := by
  have hinner : JavaAbi.openAfter 1 (", ".intercalate texts).toList = some 1 :=
    openAfter_intercalate rfl h
  rw [ClosedText, String.toList_append, String.toList_append, openAfter_append, openAfter_append]
  show ((JavaAbi.openAfter 1 (", ".intercalate texts).toList).bind _) = _
  rw [hinner]
  rfl

/-- **Closed texts can be told apart** where they are joined by commas. -/
theorem intercalate_inj (hne : texts ≠ []) (hne' : texts' ≠ [])
    (h : ∀ text ∈ texts, ClosedText text) (h' : ∀ text ∈ texts', ClosedText text)
    (heq : ", ".intercalate texts = ", ".intercalate texts') : texts = texts' := by
  -- a first text, and what follows it
  have hsplit : ∀ (text : String) (rest : List String), ∃ more : List Char,
      (", ".intercalate (text :: rest)).toList = text.toList ++ more ∧
        (∀ c ∈ more.head?, c = ',') ∧ (more = [] ↔ rest = []) ∧
        (rest ≠ [] → more = ',' :: ' ' :: (", ".intercalate rest).toList) := by
    intro text rest
    cases rest with
    | nil => exact ⟨[], by simp, nofun, by simp, fun h => absurd rfl h⟩
    | cons next rest =>
      refine ⟨',' :: ' ' :: (", ".intercalate (next :: rest)).toList, ?_, ?_, by simp, fun _ => rfl⟩
      · rw [String.intercalate_cons_cons, String.toList_append, String.toList_append,
          List.append_assoc]
        rfl
      · rintro c ⟨⟩
        rfl
  induction texts generalizing texts' with
  | nil => exact absurd rfl hne
  | cons text rest ih =>
    cases texts' with
    | nil => exact absurd rfl hne'
    | cons text' rest' =>
      obtain ⟨more, hmore, hcomma, hnil, hcons⟩ := hsplit text rest
      obtain ⟨more', hmore', hcomma', hnil', hcons'⟩ := hsplit text' rest'
      have hchars := congrArg String.toList heq
      rw [hmore, hmore'] at hchars
      obtain ⟨htext, hrest⟩ := eq_of_append_eq (h text List.mem_cons_self)
        (h' text' List.mem_cons_self) hcomma hcomma' hchars
      obtain rfl := String.toList_inj.1 htext
      subst hrest
      by_cases hempty : rest = []
      · rw [hempty, hnil'.1 (hnil.2 hempty)]
      · have hempty' : rest' ≠ [] := fun he => hempty (hnil.1 (hnil'.2 he))
        have htail := (hcons hempty).symm.trans (hcons' hempty')
        have hjoined := String.toList_inj.1 (List.cons.inj (List.cons.inj htail).2).2
        rw [ih hempty hempty' (fun t ht => h t (List.mem_cons_of_mem _ ht))
          (fun t ht => h' t (List.mem_cons_of_mem _ ht)) hjoined]

end ClosedText

/-- A name with arguments, if there are any. -/
def argumentText (head : String) (args : List String) : String :=
  if args.isEmpty then head else head ++ "<" ++ ", ".intercalate args ++ ">"

section Arguments

variable {head : String} {args args' : List String}

theorem closedText_argumentText (hhead : ClosedText head) (h : ∀ text ∈ args, ClosedText text) :
    ClosedText (argumentText head args) := by
  unfold argumentText
  split
  · exact hhead
  · rw [String.append_assoc, String.append_assoc, ← @String.append_assoc "<"]
    exact hhead.append (.enclosed h)

/-- **A text with arguments determines the arguments.** -/
theorem argumentText_inj (h : ∀ text ∈ args, ClosedText text)
    (h' : ∀ text ∈ args', ClosedText text) :
    argumentText head args = argumentText head args' ↔ args = args' := by
  refine ⟨fun heq => ?_, congrArg _⟩
  have hgroup : ∀ args : List String, args ≠ [] → (argumentText head args).toList =
      head.toList ++ '<' :: ((", ".intercalate args).toList ++ ['>']) := by
    intro args hne
    rw [argumentText, if_neg (by simpa using hne)]
    simp
  have halone : (argumentText head []).toList = head.toList := rfl
  have hchars := congrArg String.toList heq
  by_cases hne : args = []
  · by_cases hne' : args' = []
    · rw [hne, hne']
    · rw [hgroup args' hne', hne, halone] at hchars
      simp at hchars
  · by_cases hne' : args' = []
    · rw [hgroup args hne, hne', halone] at hchars
      simp at hchars
    · rw [hgroup args hne, hgroup args' hne'] at hchars
      have hinner := List.append_cancel_right
        (List.cons.inj (List.append_cancel_left hchars)).2
      exact ClosedText.intercalate_inj hne hne' h h' (String.toList_inj.1 hinner)

end Arguments

/-! ### Names of a batch -/

theorem isIdentRest_plain {c : Char} (h : isIdentRest c = true) : c ≠ '<' ∧ c ≠ '>' ∧ c ≠ ',' := by
  refine ⟨?_, ?_, ?_⟩ <;> rintro rfl <;> exact absurd h (by decide)

/-- A lexeme that is an identifier is a word. -/
theorem Lexeme.identifier_of_next {c : Char} {rest : List Char} {n : Nat}
    (h : Lexeme.next c rest = (.token .identifier, n)) :
    ∀ x ∈ c :: rest.take n, isIdentRest x = true := by
  generalize hk : LexemeKind.token .identifier = kind at h
  cases Lexeme.starts_of_next h with
  | word start =>
    rw [take_takeWhile]
    refine List.forall_mem_cons.2 ⟨?_, fun x hx => List.mem_takeWhile_imp hx⟩
    rw [isIdentRest, start, Bool.true_or]
  | mark kind =>
    -- no mark is an identifier
    cases hk
    unfold punctuation? at kind
    split at kind <;> cases kind
  | _ => cases hk

/-- What is lexed as an identifier has neither brackets nor commas. -/
theorem closedText_of_lex {file : Nat} {source : String} {t : Token}
    (ht : t ∈ (lex file source).1) (hk : t.kind = .identifier) : ClosedText t.text := by
  -- Every lexeme of an identifier has characters of identifiers only.
  have hplain : ∀ (pos : Nat) (cs : List Char), ∀ l ∈ Lexeme.all pos cs,
      l.kind = .token .identifier → ∀ x ∈ l.chars, isIdentRest x = true := by
    intro pos cs
    induction pos, cs using Lexeme.all.induct with
    | case1 => simp [Lexeme.all]
    | case2 pos c rest kind n hn chars ih =>
      intro l hl
      rw [Lexeme.all, hn] at hl
      rcases List.mem_cons.1 hl with rfl | hl
      · rintro rfl
        exact Lexeme.identifier_of_next hn
      · exact ih l hl
  rcases List.mem_append.1 ht with ht | ht
  · -- A token stands for a lexeme of its kind; the one at the end is no identifier.
    obtain ⟨l, hl, hlt⟩ := List.mem_filterMap.1 ht
    obtain ⟨kind, hkind, rfl⟩ := Option.map_eq_some_iff.1 hlt
    obtain rfl : kind = .identifier := hk
    have hl' : l.kind = .token .identifier := by
      cases hlk : l.kind with
      | token k =>
        rw [hlk] at hkind
        cases hkind
        rfl
      | fault f => rw [hlk] at hkind; cases f <;> cases hkind
      | _ => rw [hlk] at hkind; cases hkind
    refine .of_plain fun c hc => isIdentRest_plain (hplain _ _ l hl hl' c ?_)
    rwa [String.toList_ofList] at hc
  · rw [List.mem_singleton.1 ht] at hk
    cases hk

/-- The texts of a table are closed. -/
def NameTable.Closed (t : NameTable) : Prop := ∀ n, ClosedText (t.text n)

theorem parse_closed {file : Nat} {source : String} {names : NameTable} (h : names.Closed) :
    (parse file source names).2.1.Closed := by
  intro n
  obtain ⟨-, ⟨hinterns, -⟩, -⟩ := Parser.unit_runs (ParserState.sane_start file source names)
  rw [parse_eq]
  show ClosedText (((Parser.unit.run (.start file source names)).2.names.resolve? n).getD "")
  cases hn : (Parser.unit.run (.start file source names)).2.names.resolve? n with
  | none => exact .of_plain (List.forall_mem_nil _)
  | some text =>
    rcases hinterns n text hn with hold | rfl | ⟨t, ht, hk, rfl⟩
    · rw [Option.getD_some, ← NameTable.text_eq hold]
      exact h n
    · decide
    · exact closedText_of_lex ht hk

/-- **The names of a batch are closed texts**, also after errors. -/
theorem parseBatch_closed (files : Batch) : (parseBatch files).2.1.Closed := by
  have hfrom : ∀ (rest : List SourceFile) (file : Nat) (names : NameTable), names.Closed →
      (parseFrom file names rest).2.1.Closed := by
    intro rest
    induction rest with
    | nil => exact fun _ _ h => h
    | cons f rest ih =>
      intro file names h
      rw [parseFrom]
      exact ih _ _ (parse_closed h)
  refine hfrom _ _ _ fun n => ?_
  -- the first table has the empty text only
  obtain ⟨k⟩ := n
  cases k with
  | zero => decide
  | succ k => exact .of_plain (List.forall_mem_nil _)

end JavaAbi
