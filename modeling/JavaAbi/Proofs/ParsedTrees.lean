import JavaAbi.Proofs.ParsedTypes
import JavaAbi.Syntax.Parser.Unit

namespace JavaAbi

/-!
# Trees as the parser makes them

Whatever the texts of a batch, the names in its trees are names of the batch's table that are not
empty. In a batch that parses without diagnostics no written supertype stands for what could not be
parsed, and every header has only the clauses that its kind of declaration may have.

* `CompilationUnit.Sound` — what is so of every tree;
* `parseBatch_sound` — the trees of a batch are sound.

`clean` stands for "there are no diagnostics"; it is given to the tree as a proposition because the
parts of a tree are parsed before it is known.
-/

/-! ### Sound trees -/

/-- The clauses that a header may have: a class extends one type at most, and no other declaration
    but an interface extends any; interfaces implement none. -/
structure DeclHead.Regular (h : DeclHead) : Prop where
  single : h.kind = .classType → h.extended.length ≤ 1
  rootless : h.kind ≠ .classType → h.kind ≠ .interfaceType → h.extended = []
  interfaces : h.kind = .interfaceType ∨ h.kind = .annotationType → h.implemented = []

/-- The names of a header are proper names, and if the file is clean, its supertypes are parsed and
    its clauses are those that it may have. -/
structure DeclHead.Sound (t : NameTable) (clean : Prop) (h : DeclHead) : Prop where
  name : ∀ n ∈ h.name, t.Proper n
  typeParams : ∀ p ∈ h.typeParams, t.Proper p.name
  supertypes : ∀ r ∈ h.extended ++ h.implemented, r.Sound t
  parsed : clean → ∀ r ∈ h.extended ++ h.implemented, r.isError = false
  regular : clean → h.Regular

/-- The header of the body of a constant: a class without name, modifiers, parameters or
    supertypes. -/
structure DeclHead.IsBody (h : DeclHead) : Prop where
  kind : h.kind = .classType
  name : h.name = none
  modifiers : h.modifiers = []
  typeParams : h.typeParams = []
  extended : h.extended = []
  implemented : h.implemented = []

/-- The names of a field declaration are proper names. -/
structure FieldDecl.Sound (t : NameTable) (f : FieldDecl) : Prop where
  type : f.type.Sound t
  declarators : ∀ v ∈ f.declarators, t.Proper v.name

mutual

/-- The headers and members of a declaration and those inside it are sound. -/
def TypeDecl.Sound (t : NameTable) (clean : Prop) : TypeDecl → Prop
  | .mk head members => head.Sound t clean ∧ Member.AllSound t clean members

/-- The same for a member. -/
def Member.Sound (t : NameTable) (clean : Prop) : Member → Prop
  | .type d => d.Sound t clean
  | .field f => f.Sound t
  | .constant n none _ => t.Proper n
  | .constant n (some body) _ => t.Proper n ∧ body.head.IsBody ∧ body.Sound t clean

/-- The same for members. -/
def Member.AllSound (t : NameTable) (clean : Prop) : List Member → Prop
  | [] => True
  | m :: rest => m.Sound t clean ∧ Member.AllSound t clean rest

end

/-- The names of a file are proper names, and its supertypes are parsed if it is clean. -/
structure CompilationUnit.Sound (t : NameTable) (clean : Prop) (u : CompilationUnit) : Prop where
  package : ∀ p ∈ u.package, ∀ n ∈ p.path.segments, t.Proper n
  imports : ∀ i ∈ u.imports, ∀ n ∈ i.path.segments, t.Proper n
  types : ∀ d ∈ u.types, d.Sound t clean

section Weaken

variable {t u : NameTable} {c c' : Prop}

theorem DeclHead.Sound.weaken {h : DeclHead} (hs : h.Sound t c) (hle : t.Le u) (hc : c' → c) :
    h.Sound u c' where
  name n hn := (hs.name n hn).le hle
  typeParams p hp := (hs.typeParams p hp).le hle
  supertypes r hr := (hs.supertypes r hr).le hle
  parsed h := hs.parsed (hc h)
  regular h := hs.regular (hc h)

theorem FieldDecl.Sound.le {f : FieldDecl} (h : f.Sound t) (hle : t.Le u) : f.Sound u :=
  ⟨h.type.le hle, fun v hv => (h.declarators v hv).le hle⟩

mutual

theorem TypeDecl.Sound.weaken {d : TypeDecl} (h : d.Sound t c) (hle : t.Le u) (hc : c' → c) :
    d.Sound u c' := by
  match d with
  | .mk head members =>
    rw [TypeDecl.Sound] at h ⊢
    exact ⟨h.1.weaken hle hc, Member.AllSound.weaken h.2 hle hc⟩

theorem Member.Sound.weaken {m : Member} (h : m.Sound t c) (hle : t.Le u) (hc : c' → c) :
    m.Sound u c' := by
  match m with
  | .type d =>
    rw [Member.Sound] at h ⊢
    exact h.weaken hle hc
  | .field f =>
    rw [Member.Sound] at h ⊢
    exact h.le hle
  | .constant n none _ =>
    rw [Member.Sound] at h ⊢
    exact h.le hle
  | .constant n (some body) _ =>
    rw [Member.Sound] at h ⊢
    exact ⟨h.1.le hle, h.2.1, h.2.2.weaken hle hc⟩

theorem Member.AllSound.weaken {ms : List Member} (h : Member.AllSound t c ms) (hle : t.Le u)
    (hc : c' → c) : Member.AllSound u c' ms := by
  match ms with
  | [] => rw [Member.AllSound]; trivial
  | m :: rest =>
    rw [Member.AllSound] at h ⊢
    exact ⟨h.1.weaken hle hc, Member.AllSound.weaken h.2 hle hc⟩

end

theorem CompilationUnit.Sound.weaken {x : CompilationUnit} (h : x.Sound t c) (hle : t.Le u)
    (hc : c' → c) : x.Sound u c' where
  package p hp n hn := (h.package p hp n hn).le hle
  imports i hi n hn := (h.imports i hi n hn).le hle
  types d hd := (h.types d hd).weaken hle hc

end Weaken

theorem Member.allSound_iff {t : NameTable} {c : Prop} {ms : List Member} :
    Member.AllSound t c ms ↔ ∀ m ∈ ms, m.Sound t c := by
  induction ms with
  | nil => simp [Member.AllSound]
  | cons m rest ih => simp [Member.AllSound, ih]

/-! ### Paths and fields -/

/-- No error has been reported. -/
def ParserState.Clean (s : ParserState) : Prop := s.errors = #[]

theorem ParserState.Clean.of_leads {s u : ParserState} (h : s.Leads u) (hu : u.Clean) : s.Clean :=
  Classical.byContradiction fun hs => Parser.errors_ne_of_leads h hs hu

theorem Member.Sound.leads {m : Member} {s u : ParserState} (h : m.Sound s.names s.Clean)
    (hl : s.Leads u) : m.Sound u.names u.Clean :=
  h.weaken hl.names (ParserState.Clean.of_leads hl)

namespace Parser

theorem pathSegments_gives (fuel : Nat) (s : ParserState) :
    (pathSegments fuel).Gives s fun ns u => ∀ n ∈ ns, u.names.Proper n := by
  induction fuel generalizing s with
  | zero => exact .cutOff (List.forall_mem_nil _)
  | succ fuel ih =>
    rw [pathSegments]
    refine Gives.after fun k u _ => Gives.after fun next v _ => ?_
    split
    · refine Gives.after fun _ w _ => identifier_gives.bind fun n x _ hn => ?_
      refine (ih x).bind fun rest y hy hrest => .pure ?_
      rintro m (_ | ⟨_, hm⟩)
      · exact hn.1.le hy.names
      · exact hrest m hm
    · exact .pure (List.forall_mem_nil _)

theorem path_gives (s : ParserState) :
    path.Gives s fun p u => ∀ n ∈ p.segments, u.names.Proper n := by
  rw [path]
  refine Gives.after fun start u _ => identifier_gives.bind fun first v _ hf => ?_
  refine Gives.after fun here v' hv => ?_
  refine (pathSegments_gives _ v').bind fun rest w hw hrest => Gives.after fun span x hx => .pure ?_
  rintro n (_ | ⟨_, hn⟩)
  · exact hf.1.le ((hv.trans hw).trans hx).names
  · exact (hrest n hn).le hx.names

theorem declarators_gives (fuel : Nat) (s : ParserState) :
    (declarators fuel).Gives s fun vs u => ∀ v ∈ vs, u.names.Proper v.name := by
  induction fuel generalizing s with
  | zero => exact .cutOff (List.forall_mem_nil _)
  | succ fuel ih =>
    rw [declarators]
    refine Gives.after fun span u _ => identifier_gives.bind fun name v _ hn => ?_
    refine Gives.after fun here v' hv => Gives.after fun dims w hw => ?_
    refine Gives.after fun _ x hx => Gives.after fun more y hy => ?_
    have hl := ((hv.trans hw).trans hx).trans hy
    split
    · refine (ih y).bind fun rest z hz hrest => .pure ?_
      rintro m (_ | ⟨_, hm⟩)
      · exact hn.1.le (hl.trans hz).names
      · exact hrest m hm
    · refine .pure ?_
      rintro m (_ | ⟨_, hm⟩)
      · exact hn.1.le hl.names
      · cases hm

theorem field_gives (start : Span) (ms : List Modifier) {type : TypeRef} {s : ParserState}
    (h : type.Sound s.names) :
    (field start ms type).Gives s fun f u => f.Sound u.names := by
  rw [field]
  refine Gives.after fun here t ht => ?_
  refine (declarators_gives _ t).bind fun vars u hu hvars => Gives.after fun _ v hv => ?_
  refine Gives.after fun span w hw => .pure ⟨?_, fun m hm => ?_⟩
  · exact h.le (((ht.trans hu).trans hv).trans hw).names
  · exact (hvars m hm).le (hv.trans hw).names

theorem componentType_gives (start : Span) (s : ParserState) :
    (componentType start).Gives s fun r u => r.Sound u.names := by
  rw [componentType]
  refine (type_gives s).bind fun plain u _ hplain => Gives.after fun dots v hv => ?_
  split
  · exact Gives.after fun span w hw => .pure (.array plain span (hplain.1.le (hv.trans hw).names))
  · exact .pure (hplain.1.le hv.names)

theorem component_gives (s : ParserState) : component.Gives s fun f u => f.Sound u.names := by
  rw [component]
  refine Gives.after fun start u _ => Gives.after fun _ v _ => ?_
  refine (componentType_gives start v).bind fun type w _ htype => Gives.after fun place x hx => ?_
  refine identifier_gives.bind fun name y hy hn => Gives.after fun span z hz => .pure ?_
  refine ⟨htype.le ((hx.trans hy).trans hz).names, ?_⟩
  rintro m (_ | ⟨_, hm⟩)
  · exact hn.1.le hz.names
  · cases hm

theorem componentList_gives (fuel : Nat) (s : ParserState) :
    (componentList fuel).Gives s fun fs u => ∀ f ∈ fs, f.Sound u.names := by
  induction fuel generalizing s with
  | zero => exact .cutOff fun f hf => nomatch hf
  | succ fuel ih =>
    rw [componentList]
    refine Gives.after fun closed s' _ => Gives.after fun ended t _ => ?_
    split
    · exact .pure fun f hf => nomatch hf
    · refine (component_gives t).bind fun first u _ hfirst => Gives.after fun more v hv => ?_
      split
      · refine (ih v).bind fun rest w hw hrest => .pure ?_
        rintro f (_ | ⟨_, hf⟩)
        · exact hfirst.le (hv.trans hw).names
        · exact hrest f hf
      · refine .pure ?_
        rintro f (_ | ⟨_, hf⟩)
        · exact hfirst.le hv.names
        · cases hf

theorem components_gives (s : ParserState) :
    components.Gives s fun fs u => ∀ f ∈ fs, f.Sound u.names := by
  rw [components]
  refine Gives.after fun _ t _ => Gives.after fun here u _ => ?_
  refine (componentList_gives _ u).bind fun fs v _ hfs => Gives.after fun _ w hw => ?_
  exact .pure fun f hf => (hfs f hf).le hw.names

/-! ### Headers -/

theorem extendsClause_gives (k : DeclKind) (s : ParserState) :
    (extendsClause k).Gives s fun types u => (∀ r ∈ types, Typed r u) ∧
      (k = .classType → types.length ≤ 1) ∧
      (k ≠ .classType → k ≠ .interfaceType → types = []) := by
  unfold extendsClause
  refine Gives.after fun found u _ => ?_
  split
  · match k with
    | .classType =>
      exact (type_gives u).bind fun r v _ hr => .pure ⟨List.forall_mem_singleton.2 hr,
        fun _ => Nat.le_refl 1, fun h => absurd rfl h⟩
    | .interfaceType =>
      exact (typeList_gives u).mono fun types v _ h => ⟨h, nofun, fun _ h => absurd rfl h⟩
    | .enumType | .annotationType | .recordType =>
      exact Gives.after fun _ v _ => Gives.after fun _ w _ =>
        .pure ⟨List.forall_mem_nil _, nofun, fun _ _ => rfl⟩
  · exact .pure ⟨List.forall_mem_nil _, fun _ => Nat.zero_le 1, fun _ _ => rfl⟩

/-- An `implements` clause of an interface is reported. -/
theorem checkImplements_gives {k : DeclKind} (s : ParserState) :
    (checkImplements k).Gives s fun _ u =>
      k = .interfaceType ∨ k = .annotationType → ¬u.Clean := by
  rw [checkImplements]
  split
  · exact error_gives.mono fun _ _ _ hreported _ => hreported
  · rename_i hk
    exact .pure fun h => absurd (by simpa using h) hk

theorem implementsClause_gives (k : DeclKind) (s : ParserState) :
    (implementsClause k).Gives s fun types u => (∀ r ∈ types, Typed r u) ∧
      (u.Clean → k = .interfaceType ∨ k = .annotationType → types = []) := by
  rw [implementsClause]
  refine Gives.after fun found u _ => ?_
  split
  · refine (typeList_gives u).bind fun types v _ htypes => ?_
    refine (checkImplements_gives v).bind fun _ w hw hreported => .pure ⟨fun r hr => ?_, ?_⟩
    · exact (htypes r hr).leads hw
    · exact fun hclean hk => absurd hclean (hreported hk)
  · exact .pure ⟨List.forall_mem_nil _, fun _ _ => rfl⟩

theorem DeclHead.regular_default : DeclHead.Regular default where
  single _ := Nat.zero_le 1
  rootless _ _ := rfl
  interfaces _ := rfl

theorem DeclHead.sound_default {t : NameTable} {c : Prop} : DeclHead.Sound t c default where
  name _ h := nomatch h
  typeParams _ h := nomatch h
  supertypes _ h := nomatch h
  parsed _ _ h := nomatch h
  regular _ := DeclHead.regular_default

/-- A header whose clauses are as the parser gives them is sound. -/
theorem header_sound {kind : DeclKind} {name : Option Name} {place span : Span}
    {ms : List Modifier} {params : List TypeParam} {extended implemented : List TypeRef}
    {s : ParserState} (hn : ∀ n ∈ name, s.names.Proper n)
    (hp : ∀ p ∈ params, s.names.Proper p.name)
    (ht : ∀ r ∈ extended ++ implemented, Typed r s)
    (hr : s.Clean → DeclHead.Regular ⟨kind, name, place, ms, params, extended, implemented, span⟩) :
    DeclHead.Sound s.names s.Clean
      ⟨kind, name, place, ms, params, extended, implemented, span⟩ where
  name := hn
  typeParams := hp
  supertypes r hr := (ht r hr).1
  parsed hc r hr := by
    cases h : r.isError with
    | true => exact absurd hc ((ht r hr).2 h)
    | false => rfl
  regular := hr

/-! ### Members and declarations -/

theorem fieldOrMethod_gives (start : Span) (ms : List Modifier) (s : ParserState) :
    (fieldOrMethod start ms).Gives s fun m u => ∀ x ∈ m, x.Sound u.names u.Clean := by
  rw [fieldOrMethod]
  refine (type_gives s).bind fun t u _ ht => ?_
  split
  · exact Gives.after fun _ v _ => Gives.after fun _ w _ => .pure fun x hx => nomatch hx
  · refine Gives.after fun named v hv => Gives.after fun next w hw => ?_
    split
    · exact Gives.after fun _ x _ => Gives.after fun _ y _ => .pure fun m hm => nomatch hm
    · refine (field_gives start ms (ht.1.le (hv.trans hw).names)).bind fun f x _ hf => .pure ?_
      rintro _ ⟨⟩
      rw [Member.Sound]
      exact hf

theorem plainMember_gives (start : Span) (ms : List Modifier) (s : ParserState) :
    (plainMember start ms).Gives s fun m u => ∀ x ∈ m, x.Sound u.names u.Clean := by
  have none_sound (u : ParserState) : ∀ x ∈ (none : Option Member), x.Sound u.names u.Clean :=
    fun x hx => nomatch hx
  rw [plainMember]
  refine Gives.after fun here t _ => ?_
  split
  · exact Gives.after fun _ u _ => Gives.after fun _ v _ => Gives.after fun _ w _ =>
      .pure (none_sound w)
  · split
    · exact Gives.after fun _ u _ => .pure (none_sound u)
    · split
      · exact Gives.after fun _ u _ => Gives.after fun _ v _ => .pure (none_sound v)
      · exact fieldOrMethod_gives start ms t

theorem afterConstants_gives {others : Parser (List Member)}
    (h : ∀ s, others.Gives s fun ms u => ∀ m ∈ ms, m.Sound u.names u.Clean) (s : ParserState) :
    (afterConstants others).Gives s fun ms u => ∀ m ∈ ms, m.Sound u.names u.Clean := by
  rw [afterConstants]
  refine Gives.after fun found u _ => ?_
  split
  · exact h u
  · refine Gives.after fun closed v _ => ?_
    split
    · exact .pure fun m hm => nomatch hm
    · exact Gives.after fun _ w _ => h w

mutual

theorem declWithin_gives (ms : List Modifier) (start : Span) (fuel : Nat) (s : ParserState) :
    (declWithin ms start fuel).Gives s fun d u => d.Sound u.names u.Clean := by
  match fuel with
  | 0 =>
    rw [declWithin]
    refine .cutOff ?_
    show TypeDecl.Sound _ _ (.mk default [])
    rw [TypeDecl.Sound, Member.AllSound]
    exact ⟨DeclHead.sound_default, trivial⟩
  | fuel + 1 =>
    rw [declWithin]
    refine Gives.after fun kind a _ => Gives.after fun place b _ => ?_
    refine identifier_gives.bind fun name c _ ⟨hname, _⟩ => ?_
    refine (optionalTypeParams_gives c).bind fun params d hd hparams => ?_
    refine Gives.join (P := fun fs e => ∀ f ∈ fs, FieldDecl.Sound e.names f) ?_ ?_
    · split
      · exact components_gives d
      · exact .pure fun f hf => nomatch hf
    intro fields e he hfields
    refine (extendsClause_gives kind e).bind fun extended f hf ⟨hextended, hsingle, hrootless⟩ => ?_
    refine (implementsClause_gives kind f).bind fun implemented g hg ⟨himplemented, hnone⟩ => ?_
    refine Gives.after fun _ h hh => ?_
    refine Gives.join (P := fun body i => ∀ m ∈ body, m.Sound i.names i.Clean) ?_ ?_
    · split
      · exact enumBody_gives fuel h
      · exact classBody_gives fuel h
    intro body i hi hbody
    refine Gives.after fun span j hj => .pure ?_
    -- What was read before is carried over what was read after it.
    have hgj := (hh.trans hi).trans hj
    have hej := (hf.trans hg).trans hgj
    rw [TypeDecl.Sound, Member.allSound_iff]
    refine ⟨header_sound ?_ ?_ ?_ ?_, ?_⟩
    · rintro n ⟨⟩
      exact hname.le ((hd.trans he).trans hej).names
    · exact fun p hp => (hparams p hp).le (he.trans hej).names
    · intro r hr
      rcases List.mem_append.1 hr with hr | hr
      · exact (hextended r hr).leads (hg.trans hgj)
      · exact (himplemented r hr).leads hgj
    · exact fun hclean => ⟨hsingle, hrootless, hnone (.of_leads hgj hclean)⟩
    · intro m hm
      rcases List.mem_append.1 hm with hm | hm
      · obtain ⟨x, hx, rfl⟩ := List.mem_map.1 hm
        rw [Member.Sound]
        exact (hfields x hx).le hej.names
      · exact (hbody m hm).leads hj

theorem classBody_gives (fuel : Nat) (s : ParserState) :
    (classBody fuel).Gives s fun ms u => ∀ m ∈ ms, m.Sound u.names u.Clean := by
  match fuel with
  | 0 => rw [classBody]; exact .cutOff fun m hm => nomatch hm
  | fuel + 1 =>
    rw [classBody]
    refine Gives.after fun _ t _ => ?_
    refine (members_gives fuel t).bind fun found u _ hfound => Gives.after fun _ v hv => ?_
    exact .pure fun m hm => (hfound m hm).leads hv

theorem members_gives (fuel : Nat) (s : ParserState) :
    (members fuel).Gives s fun ms u => ∀ m ∈ ms, m.Sound u.names u.Clean := by
  match fuel with
  | 0 => rw [members]; exact .cutOff fun m hm => nomatch hm
  | fuel + 1 =>
    rw [members]
    refine Gives.after fun closed t _ => Gives.after fun ended u _ => ?_
    split
    · exact .pure fun m hm => nomatch hm
    · refine Gives.after fun before v _ => ?_
      refine (member_gives fuel v).bind fun found w _ hfound => Gives.after fun _ x hx => ?_
      refine (members_gives fuel x).bind fun rest y hy hrest => .pure fun m hm => ?_
      rcases List.mem_append.1 hm with hm | hm
      · exact (hfound m (Option.mem_toList.1 hm)).leads (hx.trans hy)
      · exact hrest m hm

theorem member_gives (fuel : Nat) (s : ParserState) :
    (member fuel).Gives s fun m u => ∀ x ∈ m, x.Sound u.names u.Clean := by
  have none_sound (u : ParserState) : ∀ x ∈ (none : Option Member), x.Sound u.names u.Clean :=
    fun x hx => nomatch hx
  match fuel with
  | 0 => rw [member]; exact .cutOff (none_sound _)
  | fuel + 1 =>
    rw [member]
    refine Gives.after fun here t _ => ?_
    split
    · exact Gives.after fun _ u _ => .pure (none_sound u)
    · split
      · exact Gives.after fun _ u _ => .pure (none_sound u)
      · split
        · exact Gives.after fun _ u _ => Gives.after fun _ v _ => .pure (none_sound v)
        · refine Gives.after fun start u _ => Gives.after fun ms v _ => Gives.after fun now w _ => ?_
          split
          · refine (declWithin_gives ms start fuel w).bind fun d x _ hd => .pure ?_
            rintro _ ⟨⟩
            rw [Member.Sound]
            exact hd
          · exact plainMember_gives start ms w

theorem enumBody_gives (fuel : Nat) (s : ParserState) :
    (enumBody fuel).Gives s fun ms u => ∀ m ∈ ms, m.Sound u.names u.Clean := by
  match fuel with
  | 0 => rw [enumBody]; exact .cutOff fun m hm => nomatch hm
  | fuel + 1 =>
    rw [enumBody]
    refine Gives.after fun _ t _ => ?_
    refine (enumConstants_gives fuel t).bind fun constants u _ hconstants => ?_
    refine (afterConstants_gives (members_gives fuel) u).bind fun others v hv hothers => ?_
    refine Gives.after fun _ w hw => .pure fun m hm => ?_
    rcases List.mem_append.1 hm with hm | hm
    · exact (hconstants m hm).leads (hv.trans hw)
    · exact (hothers m hm).leads hw

theorem enumConstants_gives (fuel : Nat) (s : ParserState) :
    (enumConstants fuel).Gives s fun ms u => ∀ m ∈ ms, m.Sound u.names u.Clean := by
  match fuel with
  | 0 => rw [enumConstants]; exact .cutOff fun m hm => nomatch hm
  | fuel + 1 =>
    rw [enumConstants]
    refine Gives.after fun _ t _ => Gives.after fun named u _ => ?_
    split
    · refine (enumConstant_gives fuel u).bind fun constant v _ hc => Gives.after fun more w hw => ?_
      split
      · refine (enumConstants_gives fuel w).bind fun rest x hx hrest => .pure ?_
        rintro m (_ | ⟨_, hm⟩)
        · exact hc.leads (hw.trans hx)
        · exact hrest m hm
      · refine .pure ?_
        rintro m (_ | ⟨_, hm⟩)
        · exact hc.leads hw
        · cases hm
    · exact .pure fun m hm => nomatch hm

theorem enumConstant_gives (fuel : Nat) (s : ParserState) :
    (enumConstant fuel).Gives s fun m u => m.Sound u.names u.Clean := by
  match fuel with
  | 0 =>
    rw [enumConstant]
    refine .cutOff ?_
    show Member.Sound _ _ (.field default)
    rw [Member.Sound]
    exact ⟨.error .nowhere, fun v hv => nomatch hv⟩
  | fuel + 1 =>
    rw [enumConstant]
    refine Gives.after fun start t _ => identifier_gives.bind fun name u _ ⟨hname, _⟩ => ?_
    refine Gives.after fun _ v hv => Gives.after fun bodyStart w hw => Gives.after fun open_ x hx => ?_
    have hl := (hv.trans hw).trans hx
    split
    · refine (classBody_gives fuel x).bind fun found y hy hfound => ?_
      refine Gives.after fun span z hz => Gives.after fun span' z' hz' => .pure ?_
      have hl' := (hy.trans hz).trans hz'
      rw [Member.Sound, TypeDecl.Sound, Member.allSound_iff]
      -- The body of a constant has a header with nothing in it.
      refine ⟨hname.le (hl.trans hl').names, ⟨rfl, rfl, rfl, rfl, rfl, rfl⟩,
        header_sound ?_ ?_ ?_ ?_, fun m hm => ?_⟩
      · exact fun n hn => nomatch hn
      · exact fun p hp => nomatch hp
      · exact fun r hr => nomatch hr
      · exact fun _ => ⟨fun _ => Nat.zero_le 1, fun _ _ => rfl, fun _ => rfl⟩
      · exact (hfound m hm).leads (hz.trans hz')
    · refine Gives.after fun span y hy => .pure ?_
      rw [Member.Sound]
      exact hname.le (hl.trans hy).names

end

/-! ### Files -/

/-- Going back keeps what is known of the names of an answer. -/
theorem orBack_gives {α : Type} {p : Parser (Option α)} {s : ParserState}
    {P : α → NameTable → Prop} (h : p.Gives s fun a u => ∀ x ∈ a, P x u.names) :
    (orBack p).Gives s fun a u => ∀ x ∈ a, P x u.names := by
  unfold Gives orBack at *
  dsimp only
  split
  · rename_i heq
    rwa [heq] at h
  · exact fun x hx => absurd hx (Option.not_mem_none x)

theorem packageDecl_gives (s : ParserState) :
    packageDecl.Gives s fun p u => ∀ n ∈ p.path.segments, u.names.Proper n := by
  rw [packageDecl]
  refine Gives.after fun start t _ => Gives.after fun _ u _ => ?_
  refine (path_gives u).bind fun p v _ hp => Gives.after fun _ w hw => Gives.after fun span x hx => ?_
  exact .pure fun n hn => (hp n hn).le (hw.trans hx).names

theorem packageHeader_gives (s : ParserState) :
    packageHeader.Gives s fun p u => ∀ x ∈ p, ∀ n ∈ x.path.segments, u.names.Proper n := by
  rw [packageHeader]
  refine Gives.after fun _ t _ => Gives.after fun found u _ => ?_
  split
  · refine (packageDecl_gives u).bind fun p v _ hp => .pure ?_
    rintro _ ⟨⟩
    exact hp
  · exact .pure fun x hx => nomatch hx

theorem importSegments_gives (fuel : Nat) (s : ParserState) :
    (importSegments fuel).Gives s fun r u => ∀ n ∈ r.1, u.names.Proper n := by
  induction fuel generalizing s with
  | zero => exact .cutOff fun n hn => nomatch hn
  | succ fuel ih =>
    rw [importSegments]
    refine Gives.after fun dot t _ => ?_
    split
    · refine Gives.after fun here u _ => ?_
      split
      · refine Gives.after fun _ v _ => identifier_gives.bind fun first w _ ⟨hfirst, _⟩ => ?_
        refine (ih w).bind fun r x hx hr => .pure ?_
        rintro n (_ | ⟨_, hn⟩)
        · exact hfirst.le hx.names
        · exact hr n hn
      · split
        · exact Gives.after fun _ v _ => Gives.after fun _ w _ => .pure fun n hn => nomatch hn
        · exact Gives.after fun _ v _ => Gives.after fun _ w _ => .pure fun n hn => nomatch hn
    · exact .pure fun n hn => nomatch hn

theorem importDecl_gives (s : ParserState) :
    importDecl.Gives s fun i u => ∀ n ∈ i.path.segments, u.names.Proper n := by
  rw [importDecl]
  refine Gives.after fun start a _ => Gives.after fun _ b _ => Gives.after fun isStatic c _ => ?_
  refine Gives.after fun place d _ => identifier_gives.bind fun first e _ ⟨hfirst, _⟩ => ?_
  refine Gives.after fun here f hf => (importSegments_gives _ f).bind fun r g hg hr => ?_
  refine Gives.after fun span h hh => Gives.after fun _ i hi => Gives.after fun span' j hj => .pure ?_
  have hl := (hh.trans hi).trans hj
  rintro n (_ | ⟨_, hn⟩)
  · exact hfirst.le ((hf.trans hg).trans hl).names
  · exact (hr n hn).le hl.names

theorem imports_gives (fuel : Nat) (s : ParserState) :
    (imports fuel).Gives s fun is u =>
      ∀ i ∈ is, ∀ n ∈ i.path.segments, u.names.Proper n := by
  induction fuel generalizing s with
  | zero => exact .cutOff fun i hi => nomatch hi
  | succ fuel ih =>
    rw [imports]
    refine Gives.after fun found t _ => ?_
    split
    · refine (importDecl_gives t).bind fun first u _ hfirst => ?_
      refine (ih u).bind fun rest v hv hrest => .pure ?_
      rintro i (_ | ⟨_, hi⟩)
      · exact fun n hn => (hfirst n hn).le hv.names
      · exact hrest i hi
    · exact .pure fun i hi => nomatch hi

theorem topLevel_gives (fuel : Nat) (s : ParserState) :
    (topLevel fuel).Gives s fun ds u => ∀ d ∈ ds, d.Sound u.names u.Clean := by
  induction fuel generalizing s with
  | zero => exact .cutOff fun d hd => nomatch hd
  | succ fuel ih =>
    rw [topLevel]
    refine Gives.after fun ended t _ => ?_
    split
    · exact .pure fun d hd => nomatch hd
    · refine Gives.after fun empty u _ => ?_
      split
      · exact ih u
      · refine Gives.after fun start v _ => Gives.after fun ms w _ => Gives.after fun here x _ => ?_
        split
        · have hd : (typeDecl ms start).Gives x fun d u => d.Sound u.names u.Clean := by
            rw [typeDecl, gives_steps]
            exact declWithin_gives ms start _ x
          refine hd.bind fun first y _ hfirst => (ih y).bind fun rest z hz hrest => .pure ?_
          rintro d (_ | ⟨_, hd⟩)
          · exact hfirst.weaken hz.names (ParserState.Clean.of_leads hz)
          · exact hrest d hd
        · refine Gives.after fun _ y _ => Gives.after fun _ z _ => Gives.after fun here' z' _ => ?_
          exact Gives.after fun _ z'' _ => ih z''

theorem unit_gives (s : ParserState) :
    unit.Gives s fun x u => x.Sound u.names u.Clean := by
  rw [unit]
  refine Gives.after fun before a _ => ?_
  have hpackage := orBack_gives (P := fun (p : PackageDecl) t => ∀ n ∈ p.path.segments, t.Proper n)
    (packageHeader_gives a)
  refine hpackage.bind fun package b _ hpackage => Gives.after fun here c hc => ?_
  refine (imports_gives _ c).bind fun imported d hd himported => Gives.after fun here' e he => ?_
  refine (topLevel_gives _ e).bind fun types f hf htypes => Gives.after fun span g hg => .pure ?_
  have hdg := (he.trans hf).trans hg
  exact
    { package := fun p hp n hn => (hpackage p hp n hn).le ((hc.trans hd).trans hdg).names
      imports := fun i hi n hn => (himported i hi n hn).le hdg.names
      types := fun x hx => (htypes x hx).weaken hg.names (ParserState.Clean.of_leads hg) }

end Parser

/-! ### Batches -/

theorem parse_sound (file : Nat) (source : String) (names : NameTable) :
    names.Le (parse file source names).2.1 ∧
      (parse file source names).1.Sound (parse file source names).2.1
        ((parse file source names).2.2 = []) := by
  have hl := Parser.unit.leads (.start file source names)
  have hs := Parser.unit_gives (.start file source names)
  rw [Parser.Gives] at hs
  rw [parse]
  generalize Parser.unit.run (.start file source names) = r at hl hs
  obtain ⟨unit, s⟩ := r
  refine ⟨hl.names, hs.weaken (.refl _) fun h => ?_⟩
  exact Array.toList_eq_nil_iff.1 (List.append_eq_nil_iff.1 h).2

theorem parseFrom_sound (file : Nat) (names : NameTable) (files : List SourceFile) :
    names.Le (parseFrom file names files).2.1 ∧
      ∀ u ∈ (parseFrom file names files).1,
        u.Sound (parseFrom file names files).2.1 ((parseFrom file names files).2.2 = []) := by
  induction files generalizing file names with
  | nil => exact ⟨.refl names, fun u hu => nomatch hu⟩
  | cons f rest ih =>
    have hfirst := parse_sound file f.content names
    rw [parseFrom]
    generalize parse file f.content names = first at hfirst
    obtain ⟨unit, names', errors⟩ := first
    have hrest := ih (file + 1) names'
    dsimp only
    generalize parseFrom (file + 1) names' rest = more at hrest
    obtain ⟨units, names'', errors'⟩ := more
    refine ⟨hfirst.1.trans hrest.1, ?_⟩
    rintro u (_ | ⟨_, hu⟩)
    · exact hfirst.2.weaken hrest.1 fun h => (List.append_eq_nil_iff.1 h).1
    · exact (hrest.2 u hu).weaken (.refl _) fun h => (List.append_eq_nil_iff.1 h).2

/-- **Parsed trees are sound.** In every batch the names of the trees are proper names of the table
    that comes with them; without diagnostics every written supertype is parsed. -/
theorem parseBatch_sound (b : Batch) :
    ∀ u ∈ (parseBatch b).1, u.Sound (parseBatch b).2.1 ((parseBatch b).2.2 = []) :=
  (parseFrom_sound 0 .fresh b.toList).2

end JavaAbi
