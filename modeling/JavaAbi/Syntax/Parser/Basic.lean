import JavaAbi.Diagnostics.Basic
import JavaAbi.Names
import JavaAbi.Syntax.Token
import JavaAbi.Syntax.Tree

namespace JavaAbi

/-!
# Parser state

A parser walks the tokens of one file, interns identifiers and reports syntax errors; it always
succeeds. It carries the proof that it leads on: tokens are only consumed, names and errors only
added, `eof` is never passed, and each group that it steps over lies ahead of where it started.

* `Parser.advance`, `Parser.eat`, `Parser.expect` — the primitive steps;
* `Parser.spanFrom` — from a start to the end of the token consumed last;
* `Parser.skipBalanced` — steps over a delimited group;
* `Parser.path` — a dotted path.
-/

/-- The tokens not yet consumed, the span of the token consumed last, what was interned and reported so
    far, where groups were stepped over, and whether a parser was cut off by its bound. A group is
    noted by the number of tokens that were left at its opening delimiter. Identifiers cover some
    text. -/
structure ParserState where
  tokens : List Token
  last : Option Span := none
  names : NameTable
  errors : Array Diagnostic := #[]
  groups : List Nat := []
  cutOff : Bool := false
  words : ∀ t ∈ tokens, t.kind = .identifier → t.text ≠ ""

namespace ParserState

/-- The token at hand; past the last token this is an empty `eof`. -/
def current (s : ParserState) : Token := s.tokens.headD ⟨.eof, "", .nowhere⟩

/-- The kind of the token that stands `offset` tokens ahead. -/
def peek (s : ParserState) (offset : Nat) : TokenKind :=
  (s.tokens[offset]?.map Token.kind).getD .eof

/-- The text of the token that stands `offset` tokens ahead. -/
def peekText (s : ParserState) (offset : Nat) : String :=
  (s.tokens[offset]?.map Token.text).getD ""

/-- Number of tokens not yet consumed. -/
def remaining (s : ParserState) : Nat := s.tokens.length

/-- Consumes the token at hand, unless it is `eof`. -/
def advance (s : ParserState) : ParserState :=
  match h : s.tokens with
  | [] => s
  | t :: rest =>
    if t.kind = .eof then s
    else
      { s with
        tokens := rest
        last := some t.span
        words := fun u hu => s.words u (h ▸ List.mem_cons_of_mem t hu) }

/-- The state with what was found on the way to another. -/
def keepFindings (s u : ParserState) : ParserState :=
  { s with names := u.names, errors := u.errors, groups := u.groups, cutOff := u.cutOff }

/-- A state stands further on than another. -/
structure Leads (s u : ParserState) : Prop where
  names : s.names.Le u.names
  tokens : u.tokens <:+ s.tokens
  ends : ∀ t ∈ s.tokens, t.kind = .eof → t ∈ u.tokens
  errors : s.errors.toList <+: u.errors.toList
  groups : ∃ more, u.groups = more ++ s.groups ∧ ∀ n ∈ more, n ≤ s.remaining
  cutOff : s.cutOff = true → u.cutOff = true

theorem Leads.refl (s : ParserState) : s.Leads s where
  names := .refl _
  tokens := List.suffix_refl _
  ends _ ht _ := ht
  errors := List.prefix_refl _
  groups := ⟨[], rfl, by simp⟩
  cutOff h := h

theorem Leads.trans {s u v : ParserState} (h : s.Leads u) (h' : u.Leads v) : s.Leads v where
  names := h.names.trans h'.names
  tokens := h'.tokens.trans h.tokens
  ends t ht hk := h'.ends t (h.ends t ht hk) hk
  errors := h.errors.trans h'.errors
  groups := by
    obtain ⟨more, hu, hmore⟩ := h.groups
    obtain ⟨more', hv, hmore'⟩ := h'.groups
    refine ⟨more' ++ more, by rw [hv, hu, List.append_assoc], fun n hn => ?_⟩
    rcases List.mem_append.1 hn with hn | hn
    · exact Nat.le_trans (hmore' n hn) h.tokens.length_le
    · exact hmore n hn
  cutOff hs := h'.cutOff (h.cutOff hs)

theorem tokens_advance (s : ParserState) : s.advance.tokens <:+ s.tokens := by
  unfold advance
  split
  · exact List.suffix_refl _
  · rename_i t rest h
    split
    · exact List.suffix_refl _
    · exact ⟨[t], h.symm⟩

theorem leads_advance (s : ParserState) : s.Leads s.advance := by
  refine ⟨?_, s.tokens_advance, fun u hu hk => ?_, ?_, ⟨[], ?_, by simp⟩, fun hs => ?_⟩
  all_goals unfold advance; split
  · exact .refl _
  · split <;> exact .refl _
  · exact hu
  · rename_i t rest h
    split
    · exact hu
    · rename_i ht
      rw [h] at hu
      rcases List.mem_cons.1 hu with rfl | hu
      · exact absurd hk ht
      · exact hu
  · exact List.prefix_refl _
  · split <;> exact List.prefix_refl _
  · rfl
  · split <;> rfl
  · exact hs
  · split <;> exact hs

end ParserState

/-- A parser: its answer, and the state that it leads to. -/
structure Parser (α : Type) where
  run : ParserState → α × ParserState
  leads : ∀ s : ParserState, s.Leads (run s).2

namespace Parser

/-- The parser that consumes nothing. -/
protected def pure {α : Type} (a : α) : Parser α := ⟨fun s => (a, s), .refl⟩

/-- A parser, then the one that its answer chooses. -/
protected def bind {α β : Type} (p : Parser α) (f : α → Parser β) : Parser β where
  run s := (f (p.run s).1).run (p.run s).2
  leads s := (p.leads s).trans ((f _).leads _)

instance : Monad Parser where
  pure := Parser.pure
  bind := Parser.bind

instance {α : Type} [Inhabited α] : Inhabited (Parser α) := ⟨pure default⟩

/-! ### Primitive steps -/

/-- The state at hand. -/
def state : Parser ParserState := ⟨fun s => (s, s), .refl⟩

/-- The kind of the token at hand. -/
def kind : Parser TokenKind := return (← state).current.kind

/-- The span of the token at hand. -/
def currentSpan : Parser Span := return (← state).current.span

/-- The kind of the token that stands `offset` tokens ahead. -/
def peek (offset : Nat) : Parser TokenKind := return (← state).peek offset

/-- Whether the token at hand has a kind. -/
def isAt (k : TokenKind) : Parser Bool := return (← state).current.kind = k

/-- Whether the token at hand is the contextual word `word`. -/
def isAtWord (word : String) : Parser Bool := do
  let t := (← state).current
  return t.kind = .identifier && t.text == word

/-- Consumes the token at hand, unless it is `eof`. -/
def advance : Parser Unit := ⟨fun s => ((), s.advance), ParserState.leads_advance⟩

/-- The answer of a parser that its bound cuts off. -/
def cutOff {α : Type} (a : α) : Parser α where
  run s := (a, { s with cutOff := true })
  leads s := { ParserState.Leads.refl s with cutOff := fun _ => rfl }

/-- Consumes a number of tokens. -/
def advanceBy : Nat → Parser Unit
  | 0 => return
  | n + 1 => do
    advance
    advanceBy n

/-- Consumes the token at hand if it has the kind `k`, and says whether it did. -/
def eat (k : TokenKind) : Parser Bool := do
  if ← isAt k then
    advance
    return true
  else
    return false

/-- From `start` to the end of the token consumed last. -/
def spanFrom (start : Span) : Parser Span := do
  let s ← state
  return start.cover (s.last.getD s.current.span)

/-- Where a parser has no answer, goes back to where it started. What it interned and reported
    stays. -/
def orBack {α : Type} (p : Parser (Option α)) : Parser (Option α) where
  run s :=
    match p.run s with
    | (some a, u) => (some a, u)
    | (none, u) => (none, s.keepFindings u)
  leads s := by
    have h := p.leads s
    split
    · rename_i heq
      rwa [heq] at h
    · rename_i heq
      rw [heq] at h
      exact { ParserState.Leads.refl s with
        names := h.names
        errors := h.errors
        groups := h.groups
        cutOff := h.cutOff }

/-! ### Errors -/

/-- Reports a syntax error at a span. -/
def errorAt (span : Span) (message : String) : Parser Unit where
  run s := ((), { s with errors := s.errors.push ⟨.error, .syntactic, message, span, [], [], []⟩ })
  leads s := { ParserState.Leads.refl s with errors := by simp }

/-- Reports a syntax error at the token at hand. -/
def error (message : String) : Parser Unit := do errorAt (← currentSpan) message

/-- Reports that `what` stands in no place of the token at hand. -/
def expected (what : String) : Parser Unit := do
  let t := (← state).current
  let found := if t.kind = .eof then "end of file" else "`" ++ t.text ++ "`"
  errorAt t.span ("expected " ++ what ++ ", found " ++ found)

/-- Consumes a token of kind `k`, or reports that it is missing. -/
def expect (k : TokenKind) : Parser Unit := do
  unless ← eat k do
    expected k.label

/-- Interns a text. -/
def intern (text : String) : Parser Name where
  run s := ((s.names.intern text).1, { s with names := (s.names.intern text).2 })
  leads s := { ParserState.Leads.refl s with names := s.names.le_intern text }

/-- The name of an identifier, or a placeholder when the token at hand is none. -/
def identifier : Parser Name := do
  let t := (← state).current
  if t.kind = .identifier then
    let n ← intern t.text
    advance
    return n
  else
    -- Nothing is consumed, so what stands here is read as what comes next.
    expected "identifier"
    intern "<missing>"

/-! ### Groups, paths and annotations -/

/-- Steps past the delimiter that closes a group of kind `opening` at depth `depth + 1`. -/
def skipGroup (opening closing : TokenKind) (start : Span) : Nat → Nat → Parser Unit
  | 0, _ => cutOff ()
  | fuel + 1, depth => do
    let k ← kind
    if k = .eof then
      errorAt start ("unclosed " ++ opening.label)
    else if k = opening then
      advance
      skipGroup opening closing start fuel (depth + 1)
    else if k = closing then
      advance
      match depth with
      | 0 => return
      | depth + 1 => skipGroup opening closing start fuel depth
    else
      advance
      skipGroup opening closing start fuel depth

/-- Notes a group whose opening delimiter is at hand. -/
def noteGroup : Parser Unit where
  run s := ((), { s with groups := s.remaining :: s.groups })
  leads s :=
    { ParserState.Leads.refl s with
      groups := ⟨[s.remaining], rfl, by simp⟩ }

/-- Steps over a group with its delimiters. Groups of the same delimiters inside are counted. -/
def skipBalanced (opening closing : TokenKind) : Parser Unit := do
  let start ← currentSpan
  if ← isAt opening then
    noteGroup
    advance
    skipGroup opening closing start ((← state).remaining + 1) 0
  else
    expected opening.label

/-- Steps over a group in parentheses. -/
def skipParens : Parser Unit := skipBalanced .leftParen .rightParen

/-- Steps over a group in braces. -/
def skipBraces : Parser Unit := skipBalanced .leftBrace .rightBrace

/-- The further segments of a path. -/
def pathSegments : Nat → Parser (List Name)
  | 0 => cutOff []
  | fuel + 1 => do
    if (← kind) = .dot && (← peek 1) = .identifier then
      advance
      let n ← identifier
      return n :: (← pathSegments fuel)
    else
      return []

/-- A path `a.b.c`; it ends before a point that no identifier follows. -/
def path : Parser Path := do
  let start ← currentSpan
  let first ← identifier
  let segments := first :: (← pathSegments (← state).remaining)
  return ⟨segments, ← spanFrom start⟩

/-- Whether an annotation stands here, and not the head of an annotation type. -/
def isAtAnnotation : Parser Bool :=
  return (← kind) = .atSign && (← peek 1) ≠ .kwInterface

/-- Steps over arguments in parentheses, if any stand here. -/
def skipArguments : Parser Unit := do
  if ← isAt .leftParen then
    skipParens

/-- Steps over an annotation and its arguments. -/
def skipAnnotation : Parser Unit := do
  expect .atSign
  let _ ← path
  skipArguments

/-- Steps over annotations, `fuel` of them at most. -/
def skipAnnotationsUpTo : Nat → Parser Unit
  | 0 => cutOff ()
  | fuel + 1 => do
    if ← isAtAnnotation then
      skipAnnotation
      skipAnnotationsUpTo fuel

/-- Steps over all annotations that stand here. -/
def skipAnnotations : Parser Unit := do skipAnnotationsUpTo (← state).remaining

end Parser

end JavaAbi
