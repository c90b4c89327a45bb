import JavaAbi.Proofs.PairedDeclarations
import JavaAbi.Proofs.SafeParsing

namespace JavaAbi

/-!
# Two runs over a file

Where only the places of tokens differ, the going back behind `package` annotations is the same in
both runs, and so are the unit, the names and the messages. A sequence of tokens that ends is like
one whose tokens all stand at the start of an empty file; so no run over it is cut off.

* `ParserState.over` — the state before a sequence of tokens;
* `Parser.afterHeader` — a file from its imports on;
* `Parser.unit_places` — the unit does not depend on the places of tokens;
* `Parser.unit_whole` — a run over a sequence of tokens is never cut off.
-/

/-- The state before a sequence of tokens. -/
def ParserState.over (ts : List Token) (names : NameTable)
    (words : ∀ t ∈ ts, t.kind = .identifier → t.text ≠ "") : ParserState where
  tokens := ts
  names := names
  words := words

namespace Parser

variable {d : Difference} {s s' : ParserState}

/-- A file from its imports on, after what may precede them. -/
def afterHeader (start : Span) (package : Option PackageDecl) : Parser CompilationUnit := do
  let imported ← imports (← state).remaining
  let types ← topLevel (← state).remaining
  return ⟨package, imported, types, start.cover (← currentSpan)⟩

theorem unit_eq : unit = (do
    let before ← state
    let package ← orBack packageHeader
    afterHeader before.current.span package) := rfl

theorem afterHeader_pairs {start start' : Span} {package package' : Option PackageDecl}
    (hpackage : package.map PackageDecl.bare = package'.map PackageDecl.bare) (h : Matched d s s') :
    Pairs d (afterHeader start package) (afterHeader start' package') s s' fun x x' =>
      x.bare = x'.bare := by
  rw [afterHeader, afterHeader]
  refine .state ((imports_pairs _ _ h h.bounds).bind fun is is' u u' hu his => .state ?_)
  refine (topLevel_pairs _ _ hu hu.bounds).bind fun ts ts' v v' hv hts => .place fun _ _ => ?_
  refine .pure hv ?_
  rw [CompilationUnit.bare, CompilationUnit.bare, hpackage, his, hts]

/-- Both runs go back, or neither does. -/
theorem orBack_places {α : Type} {p p' : Parser (Option α)} {R : Option α → Option α → Prop}
    (hR : ∀ a a', R a a' → a.isSome = a'.isSome) (h : Matched .places s s')
    (hp : Pairs .places p p' s s' R) : Pairs .places (orBack p) (orBack p') s s' R := by
  intro _ _
  obtain ⟨hu, hr⟩ := (hp trivial trivial).resolve_left id
  have hsome := hR _ _ hr
  unfold orBack
  dsimp only
  split
  · -- The first run has found something, so the second one has, too.
    rename_i a u hrun
    rw [hrun] at hu hr hsome
    split
    · rename_i a' u' hrun'
      rw [hrun'] at hu hr
      exact .inr ⟨hu, hr⟩
    · rename_i u' hrun'
      rw [hrun'] at hsome
      cases hsome
  · -- The first run goes back, and so does the second: to where they were, with what they have
    -- reported.
    rename_i u hrun
    rw [hrun] at hu hr hsome
    split
    · rename_i a' u' hrun'
      rw [hrun'] at hsome
      cases hsome
    · rename_i u' hrun'
      rw [hrun'] at hu hr
      cases hu with
      | places found _ cutOff => cases h with
        | places _ ahead _ => exact .inr ⟨.places ⟨found.names, found.messages⟩ ahead cutOff, hr⟩

theorem unit_places (h : Matched .places s s') :
    Pairs .places unit unit s s' fun x x' => x.bare = x'.bare := by
  rw [unit_eq]
  refine .state ((orBack_places (fun a a' ha => ?_) h (packageHeader_pairs h)).bind
    fun p p' u u' hu hp => afterHeader_pairs hp hu)
  rw [← Option.isSome_map (f := PackageDecl.bare), ha, Option.isSome_map]

/-- No run over tokens that end is cut off. -/
theorem unit_whole {ts : List Token} {t : NameTable}
    (words : ∀ t ∈ ts, t.kind = .identifier → t.text ≠ "") (heof : ∃ t ∈ ts, t.kind = .eof) :
    (unit.run (.over ts t words)).2.cutOff = false := by
  obtain ⟨last, hlast, hk⟩ := heof
  have hstart : SourceText.Cuts ⟨0, ""⟩ 0 := ⟨[], [], rfl, rfl⟩
  -- Places do not matter for the run, so the tokens may stand at the start of an empty text.
  let moved : Token → Token := fun t => { t with span := ⟨some 0, 0, 0⟩ }
  let s : ParserState := .over (ts.map moved) t fun t ht => by
    obtain ⟨u, hu, rfl⟩ := List.mem_map.1 ht
    exact words u hu
  have hsane : s.Sane ⟨0, ""⟩ :=
    { whole := rfl
      ends := ⟨moved last, List.mem_map_of_mem hlast, hk⟩
      tokens := fun t ht => by
        obtain ⟨u, -, rfl⟩ := List.mem_map.1 ht
        exact ⟨rfl, Nat.le_refl 0, hstart, hstart⟩
      last := fun _ hp => by cases hp
      errors := fun _ hd => by cases hd
      ordered := List.pairwise_map.2 (List.pairwise_iff_forall_sublist.2 fun _ => Nat.le_refl 0)
      behind := fun _ hp => by cases hp }
  have hahead : (ParserState.over ts t words).ahead = s.ahead := by
    show ts.map Token.word = (ts.map moved).map Token.word
    rw [List.map_map]
    rfl
  have hmatch : Matched .places s (.over ts t words) := .places ⟨rfl, rfl⟩ hahead rfl
  obtain ⟨hu, -⟩ := (unit_places hmatch trivial trivial).resolve_left id
  obtain ⟨hwhole, -⟩ := unit_runs hsane
  cases hu with
  | places found ahead cutOff => rw [cutOff, hwhole.whole]

end Parser

end JavaAbi
