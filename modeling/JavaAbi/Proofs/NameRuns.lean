import JavaAbi.Proofs.DenseNames

namespace JavaAbi

/-!
# Programs that use names

Steps on a store of names are followed by the list of all texts that were named on the way. The store
holds these texts, each in its first place, so the numbers of names depend on the whole history, the
joins of a path and the steps that were refused half-way included.

* `NameStep.texts`, `NameStep.heard` — the texts that a step, and steps, name in order;
* `NameTable.Recalls` — a table holds these texts in the order in which they came first;
* `NameTable.Recalls.run` — a step of a table adds what it names;
* `Interner.Exact`, `Interner.names_exact` — what names are after any steps.
-/

/-! ### Texts that steps name -/

namespace NameStep

/-- The texts that a path names: each segment, and all up to it. An empty segment is the last. -/
def pathTexts : Option String → List String → List String
  | _, [] => []
  | outer, text :: rest =>
    if text = "" then [text]
    else text :: NameTable.joined outer text :: pathTexts (some (NameTable.joined outer text)) rest

/-- The texts that a step names, where `known` are those that have names. -/
def texts (known : List String) : NameStep → List String
  | intern text => [text]
  | get _ => []
  | qualify none _ => []
  | qualify (some outer) simple =>
    match known[outer.index]?, known[simple.index]? with
    | some outerText, some simpleText =>
      if outerText = "" ∨ simpleText = "" then [] else [outerText ++ "." ++ simpleText]
    | _, _ => []
  | qualifyPath segments => pathTexts none segments

/-- The texts named when steps follow after `before`. -/
def heardAfter (before : List String) (steps : List NameStep) : List String :=
  steps.foldl (fun heard step => heard ++ step.texts heard.eraseDups) before

/-- The texts that steps on a fresh store name, in order, the empty one first. -/
def heard (steps : List NameStep) : List String := heardAfter [""] steps

end NameStep

/-! ### What a table recalls -/

namespace NameTable

/-- A table holds the texts that were named, in the order in which they were named first. -/
def Recalls (t : NameTable) (heard : List String) : Prop := t.texts.toList = heard.eraseDups

theorem recalls_fresh : fresh.Recalls [""] := rfl

namespace Recalls

variable {t : NameTable} {heard : List String}

theorem resolve? (h : t.Recalls heard) (n : Name) : t.resolve? n = heard.eraseDups[n.index]? := by
  rw [← h, NameTable.resolve?, Array.getElem?_toList]

theorem mem_iff (h : t.Recalls heard) {text : String} : text ∈ t.texts.toList ↔ text ∈ heard := by
  rw [h, List.mem_eraseDups]

/-- A text that was named before is not added. -/
theorem append_of_mem (h : t.Recalls heard) {text : String} (hmem : text ∈ heard) :
    t.Recalls (heard ++ [text]) := by
  have hnone : [text].removeAll heard = [] := by simp [List.removeAll, hmem]
  rw [Recalls, List.eraseDups_append, hnone, List.eraseDups_nil, List.append_nil]
  exact h

theorem append_of_resolve? (h : t.Recalls heard) {n : Name} {text : String}
    (hn : t.resolve? n = some text) : t.Recalls (heard ++ [text]) :=
  h.append_of_mem (h.mem_iff.1 (Array.mem_toList_iff.2 (Array.mem_of_getElem? hn)))

/-- A text that is interned is named. -/
theorem intern (h : t.Recalls heard) (text : String) :
    (t.intern text).2.Recalls (heard ++ [text]) := by
  cases hf : t.find? text with
  | some n =>
    rw [intern_of_find? hf]
    exact h.append_of_resolve? (resolve?_of_find? hf)
  | none =>
    -- a text without a name was not named, so this is its first place
    have hnew : text ∉ heard := fun hmem => mem_texts_of_find?_eq_none hf (h.mem_iff.2 hmem)
    have hkept : [text].removeAll heard = [text] := by simp [List.removeAll, hnew]
    rw [intern_of_find?_eq_none hf, Recalls, List.eraseDups_append, hkept]
    simp only [push, Array.toList_push]
    rw [h]
    rfl

theorem exists_name_iff (h : t.Recalls heard) {text : String} :
    (∃ n, t.resolve? n = some text) ↔ text ∈ heard := by
  rw [← h.mem_iff, Array.mem_toList_iff]
  refine ⟨fun ⟨n, hn⟩ => Array.mem_of_getElem? hn, fun hmem => ?_⟩
  obtain ⟨i, hi⟩ := Array.getElem?_of_mem hmem
  exact ⟨⟨i⟩, hi⟩

/-- What is recalled of more texts agrees with what is recalled of less. -/
theorem le (h : t.Recalls heard) {u : NameTable} {more : List String}
    (hu : u.Recalls (heard ++ more)) : t.Le u := by
  intro n text hn
  rw [h.resolve?] at hn
  obtain ⟨hlt, -⟩ := List.getElem?_eq_some_iff.1 hn
  rw [hu.resolve?, List.eraseDups_append, List.getElem?_append_left hlt, hn]

end Recalls

/-! ### Joining names of a table -/

variable {t : NameTable}

theorem interner_qualify? (t : NameTable) (outer : Option Name) (simple : Name) :
    interner.qualify? t outer simple = t.qualify? outer simple := rfl

theorem interner_qualifySegments (t : NameTable) (outer : Option Name) (segments : List String) :
    interner.qualifySegments t outer segments = t.qualifySegments outer segments := by
  induction segments generalizing t outer with
  | nil => rfl
  | cons text rest ih =>
    have hintern : interner.intern t text = t.intern text := rfl
    simp only [Interner.qualifySegments, NameTable.qualifySegments, hintern, interner_qualify?]
    cases (t.intern text).2.qualify? outer (t.intern text).1 with
    | none => rfl
    | some p => exact ih p.2 (some p.1)

/-- Two names that are joined are named by what they are joined to. -/
theorem Recalls.qualify? {heard : List String} (h : t.Recalls heard) {outer : Option Name}
    {simple n : Name} {u : NameTable} {text : String}
    (hq : t.qualify? outer simple = some (n, u)) (hn : u.resolve? n = some text) :
    u.Recalls (heard ++ [text]) := by
  unfold NameTable.qualify? at hq
  by_cases hsimple : simple = .empty
  · rw [if_pos hsimple] at hq
    cases hq
  rw [if_neg hsimple] at hq
  cases outer with
  | none =>
    cases hq
    exact h.append_of_resolve? hn
  | some o =>
    by_cases ho : o = .empty
    · simp only [if_pos ho] at hq
      cases hq
      exact h.append_of_resolve? hn
    · simp only [if_neg ho, Option.bind_eq_bind, Option.bind_eq_some_iff] at hq
      obtain ⟨outerText, -, simpleText, -, hq⟩ := hq
      have hpair : t.intern (outerText ++ "." ++ simpleText) = (n, u) := Option.some.inj hq
      have hresolved := t.resolve?_intern (outerText ++ "." ++ simpleText)
      rw [hpair, hn] at hresolved
      cases hresolved
      have hnext := h.intern (outerText ++ "." ++ simpleText)
      rwa [hpair] at hnext

/-- An empty segment refuses a path, and leaves the table. -/
theorem qualifySegments_empty (outer : Option Name) (rest : List String) :
    t.qualifySegments outer ("" :: rest) = (none, t) := by
  have hintern : t.intern "" = (.empty, t) := intern_of_resolve? t.resolve?_empty
  simp [qualifySegments, hintern, qualify?]

/-- Another segment is joined to the path so far, and the path goes on from there. -/
theorem qualifySegments_cons {outer : Option Name} (ho : ∀ o ∈ outer, t.Proper o) {text : String}
    (htext : text ≠ "") :
    ∃ (q : Name) (u : NameTable), (∀ rest,
        t.qualifySegments outer (text :: rest) = u.qualifySegments (some q) rest) ∧
      u.Proper q ∧ u.text q = joined (outer.map t.text) text ∧
      ∀ heard, t.Recalls heard → u.Recalls (heard ++ [text, joined (outer.map t.text) text]) := by
  have hproper := t.proper_intern htext
  have hle := le_intern t text
  have htextOf := text_eq (t.resolve?_intern text)
  generalize hn : (t.intern text).1 = n at hproper htextOf
  generalize hu : (t.intern text).2 = u at hproper hle htextOf
  have hissued : ∀ o ∈ outer, u.Issued o := fun o hmem => (ho o hmem).1.le hle
  obtain ⟨q, v, hq, -, hjoined⟩ := qualify?_eq_some hissued hproper.1 hproper.2
  have houter : outer.map u.text = outer.map t.text :=
    Option.map_congr fun o hmem => text_le (ho o hmem).1 hle
  rw [houter, htextOf] at hjoined
  refine ⟨q, v, fun rest => ?_, ⟨⟨_, hjoined⟩, fun hempty => ?_⟩, text_eq hjoined, ?_⟩
  · simp [qualifySegments, hn, hu, hq]
  · rw [hempty, resolve?_empty] at hjoined
    exact joined_ne_empty _ htext (Option.some.inj hjoined).symm
  · -- the segment is named before the path that it makes
    intro heard h
    rw [List.append_cons]
    exact Recalls.qualify? (hu ▸ h.intern text) hq hjoined

/-- **A path adds the texts that it names.** -/
theorem Recalls.qualifySegments {heard : List String} (h : t.Recalls heard) {outer : Option Name}
    (ho : ∀ o ∈ outer, t.Proper o) (segments : List String) :
    (t.qualifySegments outer segments).2.Recalls
      (heard ++ NameStep.pathTexts (outer.map t.text) segments) := by
  -- each segment hands on a new table, what it recalls, and the path so far
  induction segments generalizing t heard outer with
  | nil => simpa [NameTable.qualifySegments, NameStep.pathTexts] using h
  | cons text rest ih =>
    by_cases htext : text = ""
    · subst htext
      rw [qualifySegments_empty, NameStep.pathTexts, if_pos rfl]
      exact h.append_of_resolve? t.resolve?_empty
    · obtain ⟨q, u, heq, hq, hjoined, hrecalls⟩ := qualifySegments_cons ho htext
      have hpath : ∀ o ∈ some q, u.Proper o := by simpa using hq
      have hrest := ih (hrecalls heard h) hpath
      rw [Option.map_some, hjoined] at hrest
      rw [heq, NameStep.pathTexts, if_neg htext]
      simpa using hrest

/-- A path is refused if a segment is empty, and not otherwise. -/
theorem qualifySegments_eq_none_iff {outer : Option Name} (ho : ∀ o ∈ outer, t.Proper o)
    {segments : List String} : (t.qualifySegments outer segments).1 = none ↔ "" ∈ segments := by
  induction segments generalizing t outer with
  | nil => simp [NameTable.qualifySegments]
  | cons text rest ih =>
    by_cases htext : text = ""
    · subst htext
      simp [qualifySegments_empty]
    · obtain ⟨q, u, heq, hq, -⟩ := qualifySegments_cons ho htext
      have hpath : ∀ o ∈ some q, u.Proper o := by simpa using hq
      rw [heq, ih hpath]
      simp [Ne.symm htext]

/-- The path of non-empty segments behind a name is the name of all joined. -/
theorem qualifySegments_some {o : Name} (ho : t.Proper o) {segments : List String}
    (h : "" ∉ segments) : ∃ n u, t.qualifySegments (some o) segments = (some (some n), u) ∧
      u.resolve? n = some (".".intercalate (t.text o :: segments)) := by
  induction segments generalizing t o with
  | nil => exact ⟨o, t, rfl, by rw [String.intercalate_singleton]; exact ho.1.resolve?⟩
  | cons text rest ih =>
    have htext : text ≠ "" := fun heq => h (heq ▸ List.mem_cons_self)
    have houter : ∀ p ∈ some o, t.Proper p := by simpa using ho
    obtain ⟨q, u, heq, hq, hjoined, -⟩ := qualifySegments_cons houter htext
    obtain ⟨n, v, hwalk, hn⟩ := ih hq fun hmem => h (List.mem_cons_of_mem _ hmem)
    refine ⟨n, v, (heq rest).trans hwalk, ?_⟩
    have hfull : t.text o ≠ "" := text_ne_empty ho.1 ho.2
    rw [hn, hjoined, Option.map_some, joined, if_neg hfull, String.intercalate_cons_append,
      String.intercalate_cons_cons]

/-- **A path of non-empty segments** is the name of the text that they make with dots between. -/
theorem qualifyPath_eq {segments : List String} (hne : segments ≠ []) (h : "" ∉ segments) :
    ∃ n u, t.qualifyPath segments = (some (some n), u) ∧
      u.resolve? n = some (".".intercalate segments) := by
  cases segments with
  | nil => exact absurd rfl hne
  | cons text rest =>
    have htext : text ≠ "" := fun heq => h (heq ▸ List.mem_cons_self)
    have hfirst : ∀ o ∈ (none : Option Name), t.Proper o := by simp
    obtain ⟨q, u, heq, hq, hjoined, -⟩ := qualifySegments_cons hfirst htext
    obtain ⟨n, v, hwalk, hn⟩ := qualifySegments_some hq fun hmem => h (List.mem_cons_of_mem _ hmem)
    exact ⟨n, v, (heq rest).trans hwalk, by rw [hn, hjoined]; rfl⟩

/-- What follows an empty segment of a path is not looked at. -/
theorem qualifySegments_upTo {outer : Option Name} (ho : ∀ o ∈ outer, t.Proper o)
    {before : List String} (h : "" ∉ before) (after : List String) :
    (t.qualifySegments outer (before ++ "" :: after)).2 = (t.qualifySegments outer before).2 := by
  induction before generalizing t outer with
  | nil => rw [List.nil_append, qualifySegments_empty]; rfl
  | cons text rest ih =>
    have htext : text ≠ "" := fun heq => h (heq ▸ List.mem_cons_self)
    obtain ⟨q, u, heq, hq, -⟩ := qualifySegments_cons ho htext
    have hpath : ∀ o ∈ some q, u.Proper o := by simpa using hq
    rw [List.cons_append, heq, heq]
    exact ih hpath fun hmem => h (List.mem_cons_of_mem _ hmem)

/-- Joining twice joins three texts. -/
theorem qualify?_twice {a b c : Name} (ha : t.Proper a) (hb : t.Proper b) (hc : t.Proper c) :
    ∃ ab u abc v, t.qualify? (some a) b = some (ab, u) ∧ u.qualify? (some ab) c = some (abc, v) ∧
      v.resolve? abc = some (t.text a ++ "." ++ t.text b ++ "." ++ t.text c) := by
  have hx := text_ne_empty ha.1 ha.2
  have hfirst : ∀ o ∈ some a, t.Issued o := by simpa using ha.1
  obtain ⟨ab, u, hab, hle, htext⟩ := qualify?_eq_some hfirst hb.1 hb.2
  have hjoined : u.text ab = t.text a ++ "." ++ t.text b := by
    simp [text_eq htext, joined, hx]
  have hne : u.text ab ≠ "" := by
    rw [text_eq htext]
    exact joined_ne_empty _ (text_ne_empty hb.1 hb.2)
  have hsecond : ∀ o ∈ some ab, u.Issued o := by simpa using ⟨_, htext⟩
  obtain ⟨abc, v, habc, -, htext'⟩ := qualify?_eq_some hsecond (hc.1.le hle) hc.2
  refine ⟨ab, u, abc, v, hab, habc, ?_⟩
  rw [htext', Option.map_some, joined, if_neg hne, hjoined, text_le hc.1 hle]

/-! ### Steps of a table -/

/-- The texts that a join names, read from the table. -/
theorem Recalls.texts_qualify {heard : List String} (h : t.Recalls heard) (o simple : Name) :
    (NameStep.qualify (some o) simple).texts heard.eraseDups =
      match t.resolve? o, t.resolve? simple with
      | some outerText, some simpleText =>
        if outerText = "" ∨ simpleText = "" then [] else [outerText ++ "." ++ simpleText]
      | _, _ => [] := by
  rw [NameStep.texts, h.resolve?, h.resolve?]

/-- **A step adds the texts that it names**, also one that is refused. -/
theorem Recalls.run {heard : List String} (h : t.Recalls heard) (step : NameStep) :
    (step.run interner t).2.Recalls (heard ++ step.texts heard.eraseDups) := by
  cases step with
  | intern text => exact h.intern text
  | get text => simpa [NameStep.run, NameStep.texts] using h
  | qualifyPath segments =>
    simp only [NameStep.run, Interner.qualifyPath, interner_qualifySegments]
    have hnone : ∀ o ∈ (none : Option Name), t.Proper o := by simp
    exact h.qualifySegments hnone segments
  | qualify outer simple =>
    simp only [NameStep.run, interner_qualify?, NameTable.qualify?]
    cases outer with
    | none => by_cases hs : simple = .empty <;> simpa [hs, NameStep.texts] using h
    | some o =>
      rw [h.texts_qualify]
      by_cases hs : simple = .empty
      · cases t.resolve? o <;> simpa [hs] using h
      by_cases ho : o = .empty
      · cases t.resolve? simple <;> simpa [hs, ho] using h
      cases hox : t.resolve? o with
      | none => simpa [hs, ho, hox] using h
      | some outerText =>
        cases hsx : t.resolve? simple with
        | none => simpa [hs, ho, hox, hsx] using h
        | some simpleText =>
          -- only the first name has the empty text
          have houter : outerText ≠ "" := fun heq =>
            ho (resolve?_inj (heq ▸ hox) t.resolve?_empty)
          have hsimple : simpleText ≠ "" := fun heq =>
            hs (resolve?_inj (heq ▸ hsx) t.resolve?_empty)
          simpa [hs, ho, hox, hsx, houter, hsimple] using h.intern (outerText ++ "." ++ simpleText)

/-- **Steps add the texts that they name.** -/
theorem Recalls.runAll {heard : List String} (h : t.Recalls heard) (steps : List NameStep) :
    (NameStep.runAll interner t steps).2.Recalls (NameStep.heardAfter heard steps) := by
  induction steps generalizing t heard with
  | nil => exact h
  | cons step rest ih => exact ih (h.run step)

end NameTable

/-! ### Refused steps -/

namespace NameStep

/-- A segment that is to be joined is empty. -/
def HasEmptySegment : NameStep → Prop
  | qualify _ simple => simple = .empty
  | qualifyPath segments => "" ∈ segments
  | intern _ | get _ => False

/-- A name that is to be joined is not one of the store. -/
def Foreign {σ : Type} (I : Interner σ) (s : σ) : NameStep → Prop
  | qualify (some outer) simple =>
    outer ≠ .empty ∧ (I.resolve? s outer = none ∨ I.resolve? s simple = none)
  | qualify none _ | qualifyPath _ | intern _ | get _ => False

end NameStep

theorem NameAnswer.ofName?_ne_refused (n : Option Name) : ofName? n ≠ refused := by
  cases n <;> simp [ofName?]

theorem NameAnswer.ofAnswer?_eq_refused_iff {answer : Option (Option Name)} :
    ofAnswer? answer = refused ↔ answer = none := by
  cases answer <;> simp [ofAnswer?, ofName?_ne_refused]

/-- **What is refused**: an empty segment, and a name of another store. -/
theorem NameTable.run_eq_refused_iff (t : NameTable) (step : NameStep) :
    (step.run interner t).1 = .refused ↔ step.HasEmptySegment ∨ step.Foreign interner t := by
  cases step with
  | intern text => simp [NameStep.run, NameStep.HasEmptySegment, NameStep.Foreign]
  | get text =>
    simp [NameStep.run, NameStep.HasEmptySegment, NameStep.Foreign, NameAnswer.ofName?_ne_refused]
  | qualifyPath segments =>
    simp only [NameStep.run, NameStep.HasEmptySegment, NameStep.Foreign, Interner.qualifyPath,
      interner_qualifySegments, NameAnswer.ofAnswer?_eq_refused_iff, or_false]
    exact qualifySegments_eq_none_iff (by simp)
  | qualify outer simple =>
    by_cases hs : simple = .empty
    · simp [NameStep.run, NameStep.HasEmptySegment, interner_qualify?, qualify?, hs]
    cases outer with
    | none =>
      simp [NameStep.run, NameStep.HasEmptySegment, NameStep.Foreign, interner_qualify?, qualify?, hs]
    | some o =>
      have hresolve : ∀ n, interner.resolve? t n = t.resolve? n := fun _ => rfl
      simp only [NameStep.run, NameStep.HasEmptySegment, NameStep.Foreign, interner_qualify?,
        qualify?, hs, hresolve, if_false, false_or]
      by_cases ho : o = .empty
      · simp [ho]
      · cases t.resolve? o <;> cases t.resolve? simple <;> simp [ho]

/-! ### What names are -/

theorem NameStep.exists_heardAfter (before : List String) (steps : List NameStep) :
    ∃ more, heardAfter before steps = before ++ more := by
  induction steps generalizing before with
  | nil => exact ⟨[], (List.append_nil _).symm⟩
  | cons step rest ih =>
    obtain ⟨more, hmore⟩ := ih (before ++ step.texts before.eraseDups)
    exact ⟨step.texts before.eraseDups ++ more, by rw [← List.append_assoc]; exact hmore⟩

namespace Interner

variable {σ : Type} (I : Interner σ)

/-- A fresh store after steps. -/
def after (steps : List NameStep) : σ := (NameStep.runAll I I.fresh steps).2

/-- What a step answers after others. -/
def answer (steps : List NameStep) (step : NameStep) : NameAnswer := (step.run I (I.after steps)).1

/-- **What names are** after steps on a fresh store. -/
structure Exact (I : Interner σ) (steps : List NameStep) : Prop where
  /-- Names count from zero, in the order in which their texts were named first. -/
  numbered : ∀ n, I.resolve? (I.after steps) n = (NameStep.heard steps).eraseDups[n.index]?
  /-- There is one for each text that was named. -/
  counted : I.size (I.after steps) = (NameStep.heard steps).eraseDups.length
  /-- The first of them is that of the empty text. -/
  empty_first : I.resolve? (I.after steps) .empty = some ""
  /-- A text is found under the name that resolves to it, and under no other. -/
  found_iff : ∀ text n,
    I.find? (I.after steps) text = some n ↔ I.resolve? (I.after steps) n = some text
  /-- Names that resolve to one text are one. -/
  unique : ∀ n m text, I.resolve? (I.after steps) n = some text →
    I.resolve? (I.after steps) m = some text → n = m
  /-- A text has a name exactly if it was named. -/
  named_iff : ∀ text, (∃ n, I.resolve? (I.after steps) n = some text) ↔ text ∈ NameStep.heard steps
  /-- A name keeps its text, whatever steps follow. -/
  kept : ∀ more n text, I.resolve? (I.after steps) n = some text →
    I.resolve? (I.after (steps ++ more)) n = some text
  /-- Interning answers the name of the text. -/
  interned : ∀ text, ∃ n, I.answer steps (.intern text) = .name n ∧
    I.resolve? (I.after (steps ++ [.intern text])) n = some text
  /-- A path of non-empty segments is the name of the text that they make with dots between. -/
  path : ∀ segments, segments ≠ [] → "" ∉ segments →
    ∃ n, I.answer steps (.qualifyPath segments) = .name n ∧
      I.resolve? (I.after (steps ++ [.qualifyPath segments])) n = some (".".intercalate segments)
  /-- Joining a non-empty name to two that were joined gives the name of all three texts with dots
      between, and no other name has that text, however it is made. -/
  nested : ∀ a b c x y z, I.resolve? (I.after steps) a = some x →
    I.resolve? (I.after steps) b = some y → I.resolve? (I.after steps) c = some z →
    a ≠ .empty → b ≠ .empty → c ≠ .empty →
    ∃ ab abc, I.answer steps (.qualify (some a) b) = .name ab ∧
      I.answer (steps ++ [.qualify (some a) b]) (.qualify (some ab) c) = .name abc ∧
      ∀ more n, I.resolve?
        (I.after (steps ++ [.qualify (some a) b, .qualify (some ab) c] ++ more)) n =
          some (x ++ "." ++ y ++ "." ++ z) ↔ n = abc
  /-- With names of the store, a step is refused exactly if a segment to be joined is empty. -/
  refused_iff : ∀ step : NameStep, ¬step.Foreign I (I.after steps) →
    (I.answer steps step = .refused ↔ step.HasEmptySegment)
  /-- With others it is refused in any case. -/
  foreign_refused : ∀ step : NameStep, step.Foreign I (I.after steps) →
    I.answer steps step = .refused
  /-- A refused join leaves the store. -/
  join_refused : ∀ outer simple, I.answer steps (.qualify outer simple) = .refused →
    I.after (steps ++ [.qualify outer simple]) = I.after steps
  /-- A refused path leaves what the segments before the empty one name. -/
  path_refused : ∀ before rest, "" ∉ before → ∀ n,
    I.resolve? (I.after (steps ++ [.qualifyPath (before ++ "" :: rest)])) n =
      I.resolve? (I.after (steps ++ [.qualifyPath before])) n

theorem runAll_append (s : σ) (steps more : List NameStep) :
    (NameStep.runAll I s (steps ++ more)).2 =
      (NameStep.runAll I (NameStep.runAll I s steps).2 more).2 := by
  induction steps generalizing s with
  | nil => rfl
  | cons step rest ih => exact ih (step.run I s).2

theorem after_concat (steps : List NameStep) (step : NameStep) :
    I.after (steps ++ [step]) = (step.run I (I.after steps)).2 := I.runAll_append _ _ _

variable {I}

/-- A dense store is like the table after the same steps. -/
theorem alike_after (hI : I.Dense) (steps : List NameStep) :
    I.Alike NameTable.interner (I.after steps) (NameTable.interner.after steps) :=
  ((alike_fresh hI NameTable.interner_dense).runAll hI NameTable.interner_dense steps).2

theorem resolve?_after (hI : I.Dense) (steps : List NameStep) (n : Name) :
    I.resolve? (I.after steps) n = (NameTable.interner.after steps).resolve? n :=
  (alike_after hI steps).resolve? n

theorem answer_eq (hI : I.Dense) (steps : List NameStep) (step : NameStep) :
    I.answer steps step = NameTable.interner.answer steps step :=
  ((alike_after hI steps).run hI NameTable.interner_dense step).1

theorem recalls_after (steps : List NameStep) :
    (NameTable.interner.after steps).Recalls (NameStep.heard steps) :=
  NameTable.recalls_fresh.runAll steps

/-- Names of the table stay. -/
theorem le_after (steps more : List NameStep) :
    (NameTable.interner.after steps).Le (NameTable.interner.after (steps ++ more)) := by
  obtain ⟨extra, hextra⟩ := NameStep.exists_heardAfter (NameStep.heard steps) more
  have hheard : NameStep.heard (steps ++ more) = NameStep.heard steps ++ extra := by
    rw [NameStep.heard, NameStep.heardAfter, List.foldl_append]
    exact hextra
  exact (recalls_after steps).le (hheard ▸ recalls_after (steps ++ more))

theorem foreign_after (hI : I.Dense) (steps : List NameStep) (step : NameStep) :
    step.Foreign I (I.after steps) ↔
      step.Foreign NameTable.interner (NameTable.interner.after steps) := by
  cases step with
  | qualify outer simple =>
    cases outer with
    | none => rfl
    | some o =>
      simp only [NameStep.Foreign, resolve?_after hI]
      rfl
  | intern _ | get _ | qualifyPath _ => rfl

/-- A join of the table that is carried out as a step. -/
theorem answer_qualify {steps : List NameStep} {o simple n : Name} {u : NameTable}
    (h : (NameTable.interner.after steps).qualify? (some o) simple = some (n, u)) :
    NameTable.interner.answer steps (.qualify (some o) simple) = .name n ∧
      NameTable.interner.after (steps ++ [.qualify (some o) simple]) = u := by
  rw [answer, after_concat, NameStep.run, NameTable.interner_qualify?, h]
  exact ⟨rfl, rfl⟩

/-- A path of the table as a step. -/
theorem answer_qualifyPath (steps : List NameStep) (segments : List String) :
    NameTable.interner.answer steps (.qualifyPath segments) =
        .ofAnswer? ((NameTable.interner.after steps).qualifyPath segments).1 ∧
      NameTable.interner.after (steps ++ [.qualifyPath segments]) =
        ((NameTable.interner.after steps).qualifyPath segments).2 := by
  rw [answer, after_concat, NameStep.run, Interner.qualifyPath, NameTable.interner_qualifySegments]
  exact ⟨rfl, rfl⟩

/-- **Joins may be nested.** -/
theorem nested_after (hI : I.Dense) {steps : List NameStep} {a b c : Name} {x y z : String}
    (hx : I.resolve? (I.after steps) a = some x) (hy : I.resolve? (I.after steps) b = some y)
    (hz : I.resolve? (I.after steps) c = some z) (ha : a ≠ .empty) (hb : b ≠ .empty)
    (hc : c ≠ .empty) :
    ∃ ab abc, I.answer steps (.qualify (some a) b) = .name ab ∧
      I.answer (steps ++ [.qualify (some a) b]) (.qualify (some ab) c) = .name abc ∧
      ∀ more n, I.resolve?
        (I.after (steps ++ [.qualify (some a) b, .qualify (some ab) c] ++ more)) n =
          some (x ++ "." ++ y ++ "." ++ z) ↔ n = abc := by
  rw [resolve?_after hI] at hx hy hz
  obtain ⟨ab, u, abc, v, hab, habc, htext⟩ :=
    NameTable.qualify?_twice ⟨⟨x, hx⟩, ha⟩ ⟨⟨y, hy⟩, hb⟩ ⟨⟨z, hz⟩, hc⟩
  rw [NameTable.text_eq hx, NameTable.text_eq hy, NameTable.text_eq hz] at htext
  obtain ⟨hfirst, rfl⟩ := answer_qualify hab
  obtain ⟨hsecond, rfl⟩ := answer_qualify habc
  refine ⟨ab, abc, (answer_eq hI _ _).trans hfirst, (answer_eq hI _ _).trans hsecond, ?_⟩
  intro more n
  have hsteps : steps ++ [.qualify (some a) b, .qualify (some ab) c] =
      steps ++ [.qualify (some a) b] ++ [.qualify (some ab) c] := by simp
  -- the text of all three keeps its name, and has no other
  have hlater := le_after _ more abc _ htext
  rw [resolve?_after hI, hsteps]
  exact ⟨fun hn => NameTable.resolve?_inj hn hlater, fun hn => hn ▸ hlater⟩

/-- **What names are.** Whatever steps are taken on a fresh store that numbers texts densely, refused
    ones included: names are the positions of the texts named so far in the order in which they were
    named first, the empty text at zero; names and texts correspond, for good; a path is the name of
    its segments with dots between, and joins may be nested; and what is refused is an empty
    segment. -/
theorem names_exact (hI : I.Dense) (steps : List NameStep) : I.Exact steps where
  numbered n := (resolve?_after hI steps n).trans ((recalls_after steps).resolve? n)
  -- Everything is said of the table that takes the same steps, and carried over.
  counted := by
    rw [(alike_after hI steps).size, ← recalls_after steps]
    exact Array.length_toList.symm
  empty_first := (resolve?_after hI steps .empty).trans (NameTable.resolve?_empty _)
  found_iff text n := by
    rw [(alike_after hI steps).find?, resolve?_after hI]
    exact NameTable.find?_eq_some_iff
  unique n m text hn hm := by
    rw [resolve?_after hI] at hn hm
    exact NameTable.resolve?_inj hn hm
  named_iff text := by
    simp only [resolve?_after hI]
    exact (recalls_after steps).exists_name_iff
  kept more n text h := by
    rw [resolve?_after hI] at h ⊢
    exact le_after steps more n text h
  interned text := by
    refine ⟨_, (answer_eq hI steps _).trans rfl, ?_⟩
    rw [resolve?_after hI, after_concat]
    exact NameTable.resolve?_intern _ _
  path segments hne hfull := by
    obtain ⟨n, u, hpath, hn⟩ := NameTable.qualifyPath_eq hne hfull
    obtain ⟨hanswer, hstore⟩ := answer_qualifyPath steps segments
    rw [hpath] at hanswer hstore
    refine ⟨n, (answer_eq hI steps _).trans hanswer, ?_⟩
    rw [resolve?_after hI, hstore]
    exact hn
  nested a b c x y z hx hy hz ha hb hc := nested_after hI hx hy hz ha hb hc
  refused_iff step hstep := by
    rw [foreign_after hI] at hstep
    rw [answer_eq hI, answer, NameTable.run_eq_refused_iff]
    simp [hstep]
  foreign_refused step hstep := by
    rw [foreign_after hI] at hstep
    rw [answer_eq hI, answer, NameTable.run_eq_refused_iff]
    exact .inr hstep
  join_refused outer simple h := by
    simp only [answer, NameStep.run] at h
    simp only [after_concat, NameStep.run]
    cases hq : I.qualify? (I.after steps) outer simple with
    | none => rfl
    | some p =>
      simp only [hq] at h
      cases h
  path_refused before rest h n := by
    rw [resolve?_after hI, resolve?_after hI, (answer_qualifyPath steps _).2,
      (answer_qualifyPath steps _).2]
    exact congrArg (NameTable.resolve? · n) (NameTable.qualifySegments_upTo (by simp) h rest)

/-- The name table, after a path that was refused half-way: its two names are kept, and what follows
    counts on from them. -/
theorem names_exact_refused :
    let steps : List NameStep := [.qualifyPath ["p", "q", "", "r"], .intern "p.q", .get "r",
      .qualifyPath ["p", "q", "A"], .qualify (some ⟨3⟩) ⟨0⟩, .qualify (some ⟨3⟩) ⟨4⟩]
    NameTable.interner.Dense ∧ NameTable.interner.Exact steps ∧
      NameStep.heard steps = ["", "p", "p", "q", "p.q", "", "p.q", "p", "p", "q", "p.q", "A",
        "p.q.A", "p.q.A"] ∧
      (NameStep.runAll NameTable.interner .fresh steps).1 =
        [.refused, .name ⟨3⟩, .nothing, .name ⟨5⟩, .refused, .name ⟨5⟩] ∧
      (NameTable.interner.after steps).resolve? ⟨5⟩ = some "p.q.A" := by
  have hexact := names_exact NameTable.interner_dense
  exact ⟨NameTable.interner_dense, hexact _, by decide +kernel, by decide +kernel,
    ((hexact _).numbered ⟨5⟩).trans (by decide +kernel)⟩

end Interner

end JavaAbi
