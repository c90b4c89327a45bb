import JavaAbi.Model.Session
import JavaAbi.Proofs.IndexedBatch

namespace JavaAbi

/-!
# What a look-up comes to

Which canonical names have a type is decided by the batch and the provider alone. The rule is stated
here without a session: a name that the batch declares has a type; for another, the provider's answer
has to bear the name, and the type around it, if its name says that there is one, has to be known or
else unknown to everyone.

* `lookupOutcome` — the rule;
* `Session.declares` — the names that the batch of a session declares.
-/

/-! ### Names that point outwards -/

/-- The declaring type of a precompiled type has a shorter name. -/
theorem Descriptor.length_lt_of_enclosingType? {d : Descriptor} {outer : String}
    (h : d.enclosingType? = some outer) : outer.length < d.qualifiedName.length := by
  unfold enclosingType? at h
  dsimp only at h
  split at h
  · rename_i hfront
    obtain ⟨⟨front, last⟩, hsplit, ho⟩ := Option.bind_eq_some_iff.1 h
    cases ho
    obtain ⟨hdrop, -⟩ := eq_append_of_splitLastDot? hsplit
    obtain ⟨rest, hrest⟩ := List.isPrefixOf_iff_prefix.1 hfront
    rw [← hrest, List.drop_left] at hdrop
    have hlen : d.qualifiedName.length = (packageFront d.package).length + rest.length := by
      rw [← String.length_toList, ← hrest, List.length_append]
    rw [hlen, hdrop, String.length_ofList, List.length_append, List.length_append, List.length_cons]
    dsimp only
    omega
  · cases h

/-! ### The rule -/

/-- **What a look-up comes to.** `declared` are the names of the batch. Whether the name around a
    precompiled type has a type decides only whether that type encloses it, unless the answer for
    that name is unusable. -/
def lookupOutcome (declared : String → Bool) (provider : Provider) (name : String) :
    Except ModelError Unit :=
  if declared name then .ok ()
  else
    match provider.resolve? name with
    | none => .error (.unknown name)
    | some d =>
      if _h : d.qualifiedName = name then
        match _ho : d.enclosingType? with
        | none => .ok ()
        | some outer =>
          match lookupOutcome declared provider outer with
          | .ok () => .ok ()
          | .error e => if e.isUnknownSymbol then .ok () else .error e
      else .error (.misnamed name d.qualifiedName)
  termination_by name.length
  decreasing_by exact _h ▸ d.length_lt_of_enclosingType? _ho

section Rule

variable {declared : String → Bool} {provider : Provider} {name : String}

theorem lookupOutcome_declared (h : declared name = true) :
    lookupOutcome declared provider name = .ok () := by
  rw [lookupOutcome, if_pos h]

theorem lookupOutcome_unknown (h : declared name = false)
    (hp : provider.resolve? name = none) :
    lookupOutcome declared provider name = .error (.unknown name) := by
  rw [lookupOutcome, if_neg (by simp [h]), hp]

theorem lookupOutcome_misnamed (h : declared name = false) {d : Descriptor}
    (hp : provider.resolve? name = some d) (hd : d.qualifiedName ≠ name) :
    lookupOutcome declared provider name = .error (.misnamed name d.qualifiedName) := by
  rw [lookupOutcome, if_neg (by simp [h]), hp]
  exact dif_neg hd

theorem lookupOutcome_top (h : declared name = false) {d : Descriptor}
    (hp : provider.resolve? name = some d) (hd : d.qualifiedName = name)
    (ho : d.enclosingType? = none) : lookupOutcome declared provider name = .ok () := by
  rw [lookupOutcome, if_neg (by simp [h]), hp]
  dsimp only
  rw [dif_pos hd]
  split
  · rfl
  · rename_i heq
    rw [ho] at heq
    cases heq

theorem lookupOutcome_member (h : declared name = false) {d : Descriptor} {outer : String}
    (hp : provider.resolve? name = some d) (hd : d.qualifiedName = name)
    (ho : d.enclosingType? = some outer) :
    lookupOutcome declared provider name = match lookupOutcome declared provider outer with
      | .ok () => .ok ()
      | .error e => if e.isUnknownSymbol then .ok () else .error e := by
  rw [lookupOutcome, if_neg (by simp [h]), hp]
  dsimp only
  rw [dif_pos hd]
  split
  · rename_i heq
    rw [ho] at heq
    cases heq
  · rename_i o heq
    rw [ho] at heq
    cases heq
    rfl

/-- Only what the provider says about names that the batch does not declare makes a difference. -/
theorem lookupOutcome_congr {provider' : Provider}
    (h : ∀ n, declared n = false → provider.resolve? n = provider'.resolve? n) (name : String) :
    lookupOutcome declared provider name = lookupOutcome declared provider' name := by
  cases hd : declared name with
  | true => rw [lookupOutcome_declared hd, lookupOutcome_declared hd]
  | false =>
    cases hp : provider.resolve? name with
    | none => rw [lookupOutcome_unknown hd hp, lookupOutcome_unknown hd ((h name hd).symm.trans hp)]
    | some d =>
      have hp' := (h name hd).symm.trans hp
      by_cases hq : d.qualifiedName = name
      · cases ho : d.enclosingType? with
        | none => rw [lookupOutcome_top hd hp hq ho, lookupOutcome_top hd hp' hq ho]
        | some outer =>
          rw [lookupOutcome_member hd hp hq ho, lookupOutcome_member hd hp' hq ho,
            lookupOutcome_congr h outer]
      · rw [lookupOutcome_misnamed hd hp hq, lookupOutcome_misnamed hd hp' hq]
  termination_by name.length
  decreasing_by exact hq ▸ d.length_lt_of_enclosingType? ho

end Rule

/-! ### In a session -/

/-- Whether the batch of a session declares a canonical name. -/
def Session.declares (s : Session) (name : String) : Bool :=
  ((s.names.find? name).bind s.index.find?).isSome

/-- What a look-up comes to in a session. -/
def Session.lookupOutcome (s : Session) (name : String) : Except ModelError Unit :=
  JavaAbi.lookupOutcome s.declares s.provider name

/-- A name that is found belongs to the table. -/
theorem DeclIndex.Sound.issued_of_find? {units : List CompilationUnit} {t : NameTable}
    {x : DeclIndex} (h : x.Sound units t) {n : Name} {d : DeclId} (hf : x.find? n = some d) :
    t.Issued n := by
  obtain ⟨i, hi, hq, -⟩ := h.named n d hf
  obtain ⟨j, hj, rfl⟩ := Option.map_eq_some_iff.1 hi
  have hq' : j.qualifiedName = .named n := hq
  exact (h.infos d j hj).qualified n (by rw [hq']; rfl)

theorem Session.declares_of_resolve? {s : Session} {n : Name} {text : String}
    (h : s.names.resolve? n = some text) : s.declares text = (s.index.find? n).isSome := by
  rw [declares, NameTable.find?_of_resolve? h, Option.bind_some]

/-- What the batch declares does not change as the table grows. -/
theorem DeclIndex.Sound.find?_le {units : List CompilationUnit} {t u : NameTable} {x : DeclIndex}
    (h : x.Sound units t) (hle : t.Le u) (text : String) :
    (u.find? text).bind x.find? = (t.find? text).bind x.find? := by
  cases hf : t.find? text with
  | some n =>
    rw [NameTable.find?_of_resolve? (hle n text (NameTable.resolve?_of_find? hf))]
  | none =>
    rw [Option.bind_none]
    cases hu : u.find? text with
    | none => rfl
    | some n =>
      rw [Option.bind_some]
      cases hd : x.find? n with
      | none => rfl
      | some d =>
        obtain ⟨old, hold⟩ := h.issued_of_find? hd
        have heq : old = text := by
          have hn := hle n old hold
          rw [NameTable.resolve?_of_find? hu] at hn
          exact (Option.some.inj hn).symm
        rw [NameTable.find?_of_resolve? (heq ▸ hold)] at hf
        cases hf

theorem Session.declares_grow {s t : Session} (hs : s.index.Sound s.units s.names)
    (hle : s.names.Le t.names) (hb : t.index = s.index) : t.declares = s.declares := by
  funext text
  rw [declares, declares, hb, hs.find?_le hle]

end JavaAbi
