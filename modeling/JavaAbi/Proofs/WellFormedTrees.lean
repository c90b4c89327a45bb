import JavaAbi.Proofs.ParsedTrees
import JavaAbi.Proofs.SafeParsing

namespace JavaAbi

/-!
# Well-formed trees

Whatever the text, and wherever recovery goes on in it, the tree of a file is well formed: paths, class
types and field declarations are not empty, and neither are names; what has no name is the body of a
constant; constants stand in enums, before the other members; and a field whose type could not be
parsed is the component of a record.

* `CompilationUnit.WellFormed` — what is so of every tree;
* `Parser.Forms` — the judgement on parsers: a parser that is not cut off answers as promised;
* `Parser.unit_forms` — the parser of files gives well-formed trees.

No state is left in the judgement. A parser that is not cut off was not cut off on the way, and the
names found on the way are names of every later table, so that one table serves for all of them.
-/

/-! ### Well-formed types -/

section Types

variable (t : NameTable)

mutual

/-- A written type that is no wildcard. -/
inductive TypeRef.WellFormed : TypeRef → Prop
  | primitive {p : PrimitiveType} {span : Span} : TypeRef.WellFormed (.primitive p span)
  | void {span : Span} : TypeRef.WellFormed (.void span)
  | classType {segments : List ClassSegment} {span : Span} (filled : segments ≠ [])
      (names : ∀ seg ∈ segments, t.Proper seg.name)
      (args : ∀ seg ∈ segments, ∀ a ∈ seg.args, TypeRef.WellFormedArgument a) :
      TypeRef.WellFormed (.classType segments span)
  | array {component : TypeRef} {span : Span} (inner : TypeRef.WellFormed component) :
      TypeRef.WellFormed (.array component span)
  | error {span : Span} : TypeRef.WellFormed (.error span)

/-- A type argument: a type, or a wildcard with the bound that it may have. -/
inductive TypeRef.WellFormedArgument : TypeRef → Prop
  | type {r : TypeRef} (plain : TypeRef.WellFormed r) : TypeRef.WellFormedArgument r
  | wildcard {span : Span} : TypeRef.WellFormedArgument (.wildcard span)
  | wildcardExtends {bound : TypeRef} {span : Span} (inner : TypeRef.WellFormed bound) :
      TypeRef.WellFormedArgument (.wildcardExtends bound span)
  | wildcardSuper {bound : TypeRef} {span : Span} (inner : TypeRef.WellFormed bound) :
      TypeRef.WellFormedArgument (.wildcardSuper bound span)

end

/-- A segment of a class type. -/
def ClassSegment.WellFormed (seg : ClassSegment) : Prop :=
  t.Proper seg.name ∧ ∀ a ∈ seg.args, a.WellFormedArgument t

/-- A type parameter with its bounds. -/
structure TypeParam.WellFormed (p : TypeParam) : Prop where
  name : t.Proper p.name
  bounds : ∀ r ∈ p.bounds, r.WellFormed t

end Types

/-! ### Well-formed declarations -/

section Declarations

variable (t : NameTable)

/-- A dotted path has a segment, and its names are proper. -/
structure Path.WellFormed (p : Path) : Prop where
  filled : p.segments ≠ []
  names : ∀ n ∈ p.segments, t.Proper n

/-- A field declaration has a variable. -/
structure FieldDecl.WellFormed (f : FieldDecl) : Prop where
  modifiers : f.modifiers.Nodup
  type : f.type.WellFormed t
  filled : f.declarators ≠ []
  names : ∀ v ∈ f.declarators, t.Proper v.name

/-- A record component: a private final field of one variable. -/
structure FieldDecl.IsComponent (f : FieldDecl) : Prop where
  modifiers : f.modifiers = [.privateAccess, .final]
  single : ∃ v, f.declarators = [v] ∧ v.dims = 0

/-- The header of a declaration. -/
structure DeclHead.WellFormed (h : DeclHead) : Prop where
  name : ∃ n, h.name = some n ∧ t.Proper n
  modifiers : h.modifiers.Nodup
  typeParams : ∀ p ∈ h.typeParams, p.WellFormed t
  supertypes : ∀ r ∈ h.extended ++ h.implemented, r.WellFormed t
  single : h.kind = .classType → h.extended.length ≤ 1
  rootless : h.kind ≠ .classType → h.kind ≠ .interfaceType → h.extended = []

mutual

/-- **A declaration** has a name. Its members are the components of a record or the constants of an
    enum, if it is one, and then member types and fields. -/
inductive TypeDecl.WellFormed : TypeDecl → Prop
  | mk {head : DeclHead} {members : List Member} {components : List FieldDecl}
      {constants others : List Member} (header : head.WellFormed t)
      (order : members = components.map Member.field ++ constants ++ others)
      (record : components ≠ [] → head.kind = .recordType)
      (component : ∀ f ∈ components, f.WellFormed t ∧ f.IsComponent)
      (enum : constants ≠ [] → head.kind = .enumType)
      (constant : ∀ m ∈ constants, Member.WellFormedConstant m)
      (other : ∀ m ∈ others, Member.WellFormed m) : TypeDecl.WellFormed (.mk head members)

/-- A member type, or a field of a type that could be parsed. -/
inductive Member.WellFormed : Member → Prop
  | type {d : TypeDecl} (decl : TypeDecl.WellFormed d) : Member.WellFormed (.type d)
  | field {f : FieldDecl} (decl : f.WellFormed t) (parsed : f.type.isError = false) :
      Member.WellFormed (.field f)

/-- A constant. Its body has a member type or field for each member. -/
inductive Member.WellFormedConstant : Member → Prop
  | plain {n : Name} {span : Span} (name : t.Proper n) :
      Member.WellFormedConstant (.constant n none span)
  | withBody {n : Name} {head : DeclHead} {members : List Member} {span : Span}
      (name : t.Proper n) (body : head.IsBody) (inside : ∀ m ∈ members, Member.WellFormed m) :
      Member.WellFormedConstant (.constant n (some (.mk head members)) span)

end

/-- **The tree of a file.** -/
structure CompilationUnit.WellFormed (u : CompilationUnit) : Prop where
  package : ∀ p ∈ u.package, p.path.WellFormed t
  imports : ∀ i ∈ u.imports, i.path.WellFormed t
  types : ∀ d ∈ u.types, d.WellFormed t

end Declarations

namespace Parser

variable {α β : Type} {t : NameTable} {p q : Parser α} {P : α → Prop} {Q : β → Prop}

/-! ### The judgement -/

/-- A parser that is not cut off answers as promised, if the names that it finds are those of the
    table `t`. -/
def Forms (t : NameTable) (p : Parser α) (post : α → Prop) : Prop :=
  ∀ s, (p.run s).2.cutOff = false → (p.run s).2.names.Le t → post (p.run s).1

theorem Forms.pure {a : α} (h : P a) : Forms t (Pure.pure a) P := fun _ _ _ => h

theorem Forms.cutOff {a : α} : Forms t (cutOff a) P := fun _ h _ => nomatch h

theorem Forms.mono {P' : α → Prop} (h : Forms t p P) (hm : ∀ a, P a → P' a) : Forms t p P' :=
  fun s hs hn => hm _ (h s hs hn)

/-- A parser after another: what is promised of the first answer may be used for the second. -/
theorem Forms.bind {f : α → Parser β} (h : Forms t p P) (hf : ∀ a, P a → Forms t (f a) Q) :
    Forms t (p >>= f) Q := by
  intro s hs hn
  -- A run that is not cut off as a whole was not cut off in its first part, and the names that
  -- were there then are there at the end.
  have hl := (f (p.run s).1).leads (p.run s).2
  have hwhole : (p.run s).2.cutOff = false := by
    rw [Bool.eq_false_iff]
    exact fun hcut => Bool.false_ne_true (hs.symm.trans (hl.cutOff hcut))
  exact hf _ (h s hwhole (hl.names.trans hn)) _ hs hn

/-- A parser after one whose answer does not matter. -/
theorem Forms.after {f : α → Parser β} (hf : ∀ a, Forms t (f a) Q) : Forms t (p >>= f) Q :=
  Forms.bind (P := fun _ => True) (fun _ _ _ => trivial) fun a _ => hf a

/-- Two branches that go on in the same way. -/
theorem Forms.join {c : Prop} [Decidable c] {f : α → Parser β}
    (h : Forms t (if c then p else q) P) (hf : ∀ a, P a → Forms t (f a) Q) :
    Forms t (if c then p >>= f else q >>= f) Q := by
  split <;> rename_i hc
  · rw [if_pos hc] at h
    exact h.bind hf
  · rw [if_neg hc] at h
    exact h.bind hf

/-- Where a parser has no answer, what is promised of answers holds of none. -/
theorem orBack_forms {p : Parser (Option α)} (h : Forms t p fun a => ∀ x ∈ a, P x) :
    Forms t (orBack p) fun a => ∀ x ∈ a, P x := by
  intro s
  have hp := h s
  unfold orBack
  dsimp only
  split <;> rename_i heq <;> rw [heq] at hp
  · exact hp
  · exact fun _ _ x hx => absurd hx (Option.not_mem_none x)

theorem identifier_forms : Forms t identifier t.Proper :=
  fun _ _ hn => (identifier_gives.1).le hn

/-! ### Types -/

theorem arrayOf_forms {start : Span} (fuel : Nat) {r : TypeRef} (h : r.WellFormed t) :
    Forms t (arrayOf start fuel r) (TypeRef.WellFormed t) := by
  induction fuel generalizing r with
  | zero => exact .cutOff
  | succ fuel ih =>
    rw [arrayOf]
    refine .after fun more => ?_
    split
    · exact .after fun _ => .after fun _ => .after fun _ => ih (.array h)
    · exact .pure h

mutual

theorem typeWithin_forms (fuel : Nat) : Forms t (typeWithin fuel) (TypeRef.WellFormed t) := by
  match fuel with
  | 0 =>
    rw [typeWithin]
    exact .after fun _ => .cutOff
  | fuel + 1 =>
    rw [typeWithin]
    refine .after fun _ => .after fun start => .after fun k => ?_
    split
    · refine (classSegments_forms fuel).bind fun segments ⟨hne, hs⟩ => ?_
      exact .after fun _ => .after fun _ => arrayOf_forms _
        (.classType hne (fun seg h => (hs seg h).1) fun seg h => (hs seg h).2)
    · split
      · exact .after fun _ => .after fun _ => arrayOf_forms _ .void
      · split
        · exact .after fun _ => .after fun _ => arrayOf_forms _ .primitive
        · exact .after fun _ => .pure .error

theorem classSegments_forms (fuel : Nat) :
    Forms t (classSegments fuel) fun segs => segs ≠ [] ∧ ∀ seg ∈ segs, seg.WellFormed t := by
  match fuel with
  | 0 =>
    rw [classSegments]
    exact .cutOff
  | fuel + 1 =>
    rw [classSegments]
    refine identifier_forms.bind fun name hname => .after fun _ => ?_
    refine .join (P := fun args => ∀ a ∈ args, TypeRef.WellFormedArgument t a) ?_ fun args hargs => ?_
    · split
      · exact typeArgs_forms fuel
      · exact .pure (List.forall_mem_nil _)
    have hseg : (ClassSegment.mk name args).WellFormed t := ⟨hname, hargs⟩
    refine .after fun _ => .after fun _ => ?_
    split
    · refine .after fun _ => .after fun _ => (classSegments_forms fuel).bind fun rest hrest => ?_
      exact .pure ⟨List.cons_ne_nil _ _, List.forall_mem_cons.2 ⟨hseg, hrest.2⟩⟩
    · exact .pure ⟨List.cons_ne_nil _ _, List.forall_mem_singleton.2 hseg⟩

theorem typeArgs_forms (fuel : Nat) :
    Forms t (typeArgs fuel) fun args => ∀ a ∈ args, a.WellFormedArgument t := by
  match fuel with
  | 0 =>
    rw [typeArgs]
    exact .cutOff
  | fuel + 1 =>
    rw [typeArgs]
    refine .after fun _ => .after fun empty => ?_
    split
    · exact .pure (List.forall_mem_nil _)
    · exact (typeArgList_forms fuel).bind fun args hargs => .after fun _ => .pure hargs

theorem typeArgList_forms (fuel : Nat) :
    Forms t (typeArgList fuel) fun args => ∀ a ∈ args, a.WellFormedArgument t := by
  match fuel with
  | 0 =>
    rw [typeArgList]
    exact .cutOff
  | fuel + 1 =>
    rw [typeArgList]
    refine (typeArg_forms fuel).bind fun arg harg => .after fun more => ?_
    split
    · exact (typeArgList_forms fuel).bind fun rest hrest =>
        .pure (List.forall_mem_cons.2 ⟨harg, hrest⟩)
    · exact .pure (List.forall_mem_singleton.2 harg)

theorem typeArg_forms (fuel : Nat) : Forms t (typeArg fuel) (TypeRef.WellFormedArgument t) := by
  match fuel with
  | 0 =>
    rw [typeArg]
    exact .after fun _ => .cutOff
  | fuel + 1 =>
    rw [typeArg]
    refine .after fun _ => .after fun _ => .after fun asked => ?_
    split
    · refine .after fun upper => ?_
      split
      · exact (typeWithin_forms fuel).bind fun _ hb => .after fun _ => .pure (.wildcardExtends hb)
      · refine .after fun lower => ?_
        split
        · exact (typeWithin_forms fuel).bind fun _ hb => .after fun _ => .pure (.wildcardSuper hb)
        · exact .after fun _ => .pure .wildcard
    · exact (typeWithin_forms fuel).mono fun _ h => .type h

end

theorem type_forms : Forms t type (TypeRef.WellFormed t) := .after fun _ => typeWithin_forms _

theorem typesBetween_forms (separator : TokenKind) (fuel : Nat) :
    Forms t (typesBetween separator fuel) fun types => ∀ r ∈ types, r.WellFormed t := by
  induction fuel with
  | zero => exact .cutOff
  | succ fuel ih =>
    rw [typesBetween]
    refine type_forms.bind fun first hfirst => .after fun more => ?_
    split
    · exact ih.bind fun rest hrest => .pure (List.forall_mem_cons.2 ⟨hfirst, hrest⟩)
    · exact .pure (List.forall_mem_singleton.2 hfirst)

theorem typeList_forms : Forms t typeList fun types => ∀ r ∈ types, r.WellFormed t :=
  .after fun _ => typesBetween_forms _ _

theorem typeParam_forms : Forms t typeParam (TypeParam.WellFormed t) := by
  rw [typeParam]
  refine .after fun _ => .after fun _ => identifier_forms.bind fun name hname => .after fun more => ?_
  refine .join (P := fun bounds => ∀ r ∈ bounds, TypeRef.WellFormed t r) ?_ fun bounds hbounds =>
    .after fun _ => .pure ⟨hname, hbounds⟩
  split
  · exact .after fun _ => typesBetween_forms _ _
  · exact .pure (List.forall_mem_nil _)

theorem typeParamList_forms (fuel : Nat) :
    Forms t (typeParamList fuel) fun params => ∀ p ∈ params, p.WellFormed t := by
  induction fuel with
  | zero => exact .cutOff
  | succ fuel ih =>
    rw [typeParamList]
    refine typeParam_forms.bind fun first hfirst => .after fun more => ?_
    split
    · exact ih.bind fun rest hrest => .pure (List.forall_mem_cons.2 ⟨hfirst, hrest⟩)
    · exact .pure (List.forall_mem_singleton.2 hfirst)

theorem optionalTypeParams_forms :
    Forms t optionalTypeParams fun params => ∀ p ∈ params, p.WellFormed t := by
  rw [optionalTypeParams]
  refine .after fun found => ?_
  split
  · rw [typeParams]
    exact .after fun _ => .after fun _ => (typeParamList_forms _).bind fun params hparams =>
      .after fun _ => .pure hparams
  · exact .pure (List.forall_mem_nil _)

/-! ### Modifiers -/

theorem nodup_addModifier {m : Modifier} {ms : List Modifier} (h : ms.Nodup) :
    (addModifier m ms).Nodup := by
  unfold addModifier
  split
  · exact h
  · rename_i hm
    rw [List.contains_iff_mem] at hm
    exact List.nodup_append.2 ⟨h, List.nodup_cons.2 ⟨List.not_mem_nil, .nil⟩, fun a ha b hb heq =>
      hm (List.mem_singleton.1 hb ▸ heq ▸ ha)⟩

theorem modifiersAfter_forms (fuel : Nat) {found : List Modifier} (h : found.Nodup) :
    Forms t (modifiersAfter fuel found) List.Nodup := by
  induction fuel generalizing found with
  | zero => exact .cutOff
  | succ fuel ih =>
    rw [modifiersAfter]
    refine .after fun annotated => ?_
    split
    · exact .after fun _ => ih h
    · refine .after fun s => ?_
      split
      · exact .pure h
      · exact .after fun _ => ih (nodup_addModifier h)

theorem modifiers_forms : Forms t modifiers List.Nodup :=
  .after fun _ => modifiersAfter_forms _ List.nodup_nil

/-! ### Fields -/

theorem declarators_forms (fuel : Nat) :
    Forms t (declarators fuel) fun vs => vs ≠ [] ∧ ∀ v ∈ vs, t.Proper v.name := by
  induction fuel with
  | zero => exact .cutOff
  | succ fuel ih =>
    rw [declarators]
    refine .after fun span => identifier_forms.bind fun name hname => .after fun _ => ?_
    refine .after fun dims => .after fun _ => .after fun more => ?_
    split
    · refine ih.bind fun rest hrest => .pure ⟨List.cons_ne_nil _ _, ?_⟩
      exact List.forall_mem_cons.2 ⟨hname, hrest.2⟩
    · exact .pure ⟨List.cons_ne_nil _ _, List.forall_mem_singleton.2 hname⟩

theorem field_forms {start : Span} {ms : List Modifier} {type : TypeRef} (hms : ms.Nodup)
    (htype : type.WellFormed t) :
    Forms t (field start ms type) fun f => f.WellFormed t ∧ f.type = type := by
  rw [field]
  refine .after fun _ => (declarators_forms _).bind fun vars hvars => ?_
  exact .after fun _ => .after fun _ => .pure ⟨⟨hms, htype, hvars.1, hvars.2⟩, rfl⟩

theorem component_forms : Forms t component fun f => f.WellFormed t ∧ f.IsComponent := by
  have htype (start : Span) : Forms t (componentType start) (TypeRef.WellFormed t) := by
    rw [componentType]
    refine type_forms.bind fun plain hplain => .after fun dots => ?_
    split
    · exact .after fun _ => .pure (.array hplain)
    · exact .pure hplain
  rw [component]
  refine .after fun start => .after fun _ => (htype start).bind fun type htype => ?_
  refine .after fun place => identifier_forms.bind fun name hname => .after fun span => .pure ?_
  have hmodifiers : [Modifier.privateAccess, .final].Nodup := by decide
  exact ⟨⟨hmodifiers, htype, List.cons_ne_nil _ _, List.forall_mem_singleton.2 hname⟩,
    ⟨rfl, _, rfl, rfl⟩⟩

theorem componentList_forms (fuel : Nat) :
    Forms t (componentList fuel) fun fs => ∀ f ∈ fs, f.WellFormed t ∧ f.IsComponent := by
  induction fuel with
  | zero => exact .cutOff
  | succ fuel ih =>
    rw [componentList]
    refine .after fun closed => .after fun ended => ?_
    split
    · exact .pure (List.forall_mem_nil _)
    · refine component_forms.bind fun first hfirst => .after fun more => ?_
      split
      · exact ih.bind fun rest hrest => .pure (List.forall_mem_cons.2 ⟨hfirst, hrest⟩)
      · exact .pure (List.forall_mem_singleton.2 hfirst)

theorem components_forms :
    Forms t components fun fs => ∀ f ∈ fs, f.WellFormed t ∧ f.IsComponent := by
  rw [components]
  exact .after fun _ => .after fun _ => (componentList_forms _).bind fun fs hfs =>
    .after fun _ => .pure hfs

/-! ### Headers -/

/-- An `extends` clause has as many types as declarations of the kind may have. -/
theorem extendsClause_forms (k : DeclKind) :
    Forms t (extendsClause k) fun types => (∀ r ∈ types, r.WellFormed t) ∧
      (k = .classType → types.length ≤ 1) ∧
      (k ≠ .classType → k ≠ .interfaceType → types = []) := by
  unfold extendsClause
  refine .after fun found => ?_
  split
  · cases k with
    | classType =>
      exact type_forms.bind fun r hr => .pure ⟨List.forall_mem_singleton.2 hr,
        fun _ => Nat.le_refl 1, fun h => absurd rfl h⟩
    | interfaceType =>
      exact typeList_forms.mono fun types h => ⟨h, nofun, fun _ h => absurd rfl h⟩
    | enumType | annotationType | recordType =>
      exact .after fun _ => .after fun _ => .pure ⟨List.forall_mem_nil _, nofun, fun _ _ => rfl⟩
  · exact .pure ⟨List.forall_mem_nil _, fun _ => Nat.zero_le 1, fun _ _ => rfl⟩

theorem implementsClause_forms (k : DeclKind) :
    Forms t (implementsClause k) fun types => ∀ r ∈ types, r.WellFormed t := by
  rw [implementsClause]
  refine .after fun found => ?_
  split
  · exact typeList_forms.bind fun types htypes => .after fun _ => .pure htypes
  · exact .pure (List.forall_mem_nil _)

/-! ### Members and declarations -/

theorem fieldOrMethod_forms {start : Span} {ms : List Modifier} (hms : ms.Nodup) :
    Forms t (fieldOrMethod start ms) fun m => ∀ x ∈ m, x.WellFormed t := by
  rw [fieldOrMethod]
  refine type_forms.bind fun type htype => ?_
  split
  · exact .after fun _ => .after fun _ => .pure fun x hx => absurd hx (Option.not_mem_none x)
  -- The type is no error: only then a field is read.
  · rename_i herror
    refine .after fun _ => .after fun _ => ?_
    split
    · exact .after fun _ => .after fun _ => .pure fun x hx => absurd hx (Option.not_mem_none x)
    · refine (field_forms hms htype).bind fun f hfield => .pure ?_
      obtain ⟨hf, heq⟩ := hfield
      rintro _ ⟨⟩
      exact .field hf (by rw [heq]; exact Bool.eq_false_iff.2 herror)

theorem plainMember_forms {start : Span} {ms : List Modifier} (hms : ms.Nodup) :
    Forms t (plainMember start ms) fun m => ∀ x ∈ m, x.WellFormed t := by
  have hnone : ∀ x ∈ (none : Option Member), x.WellFormed t := fun x hx =>
    absurd hx (Option.not_mem_none x)
  rw [plainMember]
  refine .after fun s => ?_
  split
  · exact .after fun _ => .after fun _ => .after fun _ => .pure hnone
  · split
    · exact .after fun _ => .pure hnone
    · split
      · exact .after fun _ => .after fun _ => .pure hnone
      · exact fieldOrMethod_forms hms

theorem afterConstants_forms {others : Parser (List Member)}
    (h : Forms t others fun ms => ∀ m ∈ ms, m.WellFormed t) :
    Forms t (afterConstants others) fun ms => ∀ m ∈ ms, m.WellFormed t := by
  rw [afterConstants]
  refine .after fun found => ?_
  split
  · exact h
  · refine .after fun closed => ?_
    split
    · exact .pure (List.forall_mem_nil _)
    · exact .after fun _ => h

/-- The members of a declaration of kind `k` after the components that it may have. -/
def BodyFormed (t : NameTable) (k : DeclKind) (body : List Member) : Prop :=
  ∃ constants others, body = constants ++ others ∧ (constants ≠ [] → k = .enumType) ∧
    (∀ m ∈ constants, m.WellFormedConstant t) ∧ ∀ m ∈ others, m.WellFormed t

theorem BodyFormed.plain {k : DeclKind} {body : List Member} (h : ∀ m ∈ body, m.WellFormed t) :
    BodyFormed t k body :=
  ⟨[], body, rfl, fun h => absurd rfl h, List.forall_mem_nil _, h⟩

mutual

theorem declWithin_forms {ms : List Modifier} {start : Span} (hms : ms.Nodup) (fuel : Nat) :
    Forms t (declWithin ms start fuel) (TypeDecl.WellFormed t) := by
  match fuel with
  | 0 =>
    rw [declWithin]
    exact .cutOff
  | fuel + 1 =>
    rw [declWithin]
    refine .after fun kind => .after fun place => identifier_forms.bind fun name hname => ?_
    refine optionalTypeParams_forms.bind fun params hparams => ?_
    refine .join (P := fun fs => (fs ≠ [] → kind = .recordType) ∧
      ∀ f ∈ fs, FieldDecl.WellFormed t f ∧ f.IsComponent) ?_ fun fields ⟨hrecord, hfields⟩ => ?_
    · split
      · rename_i hkind
        exact components_forms.mono fun fs h => ⟨fun _ => hkind, h⟩
      · exact .pure ⟨fun h => absurd rfl h, List.forall_mem_nil _⟩
    refine (extendsClause_forms kind).bind fun extended ⟨hextended, hsingle, hrootless⟩ => ?_
    refine (implementsClause_forms kind).bind fun implemented himplemented => .after fun _ => ?_
    refine .join (P := BodyFormed t kind) ?_ fun body hbody => .after fun span => .pure ?_
    · split
      · rename_i hkind
        exact hkind ▸ enumBody_forms fuel
      · exact (classBody_forms fuel).mono fun _ => .plain
    -- Components stand in front, then constants, and then the other members.
    obtain ⟨constants, others, rfl, henum, hconstants, hothers⟩ := hbody
    refine .mk ⟨⟨name, rfl, hname⟩, hms, hparams, fun r hr => ?_, hsingle, hrootless⟩
      (List.append_assoc _ _ _).symm hrecord hfields henum hconstants hothers
    exact (List.mem_append.1 hr).elim (hextended r) (himplemented r)

theorem classBody_forms (fuel : Nat) :
    Forms t (classBody fuel) fun ms => ∀ m ∈ ms, m.WellFormed t := by
  match fuel with
  | 0 =>
    rw [classBody]
    exact .cutOff
  | fuel + 1 =>
    rw [classBody]
    exact .after fun _ => (members_forms fuel).bind fun found hfound => .after fun _ => .pure hfound

theorem members_forms (fuel : Nat) :
    Forms t (members fuel) fun ms => ∀ m ∈ ms, m.WellFormed t := by
  match fuel with
  | 0 =>
    rw [members]
    exact .cutOff
  | fuel + 1 =>
    rw [members]
    refine .after fun closed => .after fun ended => ?_
    split
    · exact .pure (List.forall_mem_nil _)
    · refine .after fun _ => (member_forms fuel).bind fun found hfound => .after fun _ => ?_
      refine (members_forms fuel).bind fun rest hrest => .pure fun m hm => ?_
      exact (List.mem_append.1 hm).elim (fun hm => hfound m (Option.mem_toList.1 hm)) (hrest m)

theorem member_forms (fuel : Nat) :
    Forms t (member fuel) fun m => ∀ x ∈ m, x.WellFormed t := by
  have hnone : ∀ x ∈ (none : Option Member), x.WellFormed t := fun x hx =>
    absurd hx (Option.not_mem_none x)
  match fuel with
  | 0 =>
    rw [member]
    exact .cutOff
  | fuel + 1 =>
    rw [member]
    refine .after fun s => ?_
    split
    · exact .after fun _ => .pure hnone
    · split
      · exact .after fun _ => .pure hnone
      · split
        · exact .after fun _ => .after fun _ => .pure hnone
        · refine .after fun start => modifiers_forms.bind fun ms hms => .after fun _ => ?_
          split
          · refine (declWithin_forms hms fuel).bind fun d hd => .pure ?_
            rintro _ ⟨⟩
            exact .type hd
          · exact plainMember_forms hms

theorem enumBody_forms (fuel : Nat) : Forms t (enumBody fuel) (BodyFormed t .enumType) := by
  match fuel with
  | 0 =>
    rw [enumBody]
    exact .cutOff
  | fuel + 1 =>
    rw [enumBody]
    refine .after fun _ => (enumConstants_forms fuel).bind fun constants hconstants => ?_
    refine (afterConstants_forms (members_forms fuel)).bind fun others hothers => .after fun _ => ?_
    exact .pure ⟨constants, others, rfl, fun _ => rfl, hconstants, hothers⟩

theorem enumConstants_forms (fuel : Nat) :
    Forms t (enumConstants fuel) fun ms => ∀ m ∈ ms, m.WellFormedConstant t := by
  match fuel with
  | 0 =>
    rw [enumConstants]
    exact .cutOff
  | fuel + 1 =>
    rw [enumConstants]
    refine .after fun _ => .after fun named => ?_
    split
    · refine (enumConstant_forms fuel).bind fun first hfirst => .after fun more => ?_
      split
      · exact (enumConstants_forms fuel).bind fun rest hrest =>
          .pure (List.forall_mem_cons.2 ⟨hfirst, hrest⟩)
      · exact .pure (List.forall_mem_singleton.2 hfirst)
    · exact .pure (List.forall_mem_nil _)

theorem enumConstant_forms (fuel : Nat) :
    Forms t (enumConstant fuel) (Member.WellFormedConstant t) := by
  match fuel with
  | 0 =>
    rw [enumConstant]
    exact .cutOff
  | fuel + 1 =>
    rw [enumConstant]
    refine .after fun _ => identifier_forms.bind fun name hname => .after fun _ => .after fun _ => ?_
    refine .after fun opens => ?_
    split
    · refine (classBody_forms fuel).bind fun found hfound => .after fun _ => .after fun _ => ?_
      exact .pure (.withBody hname ⟨rfl, rfl, rfl, rfl, rfl, rfl⟩ hfound)
    · exact .after fun _ => .pure (.plain hname)

end

/-! ### Files -/

theorem pathSegments_forms (fuel : Nat) :
    Forms t (pathSegments fuel) fun ns => ∀ n ∈ ns, t.Proper n := by
  induction fuel with
  | zero => exact .cutOff
  | succ fuel ih =>
    rw [pathSegments]
    refine .after fun _ => .after fun _ => ?_
    split
    · exact .after fun _ => identifier_forms.bind fun n hn => ih.bind fun rest hrest =>
        .pure (List.forall_mem_cons.2 ⟨hn, hrest⟩)
    · exact .pure (List.forall_mem_nil _)

theorem path_forms : Forms t path (Path.WellFormed t) := by
  rw [path]
  refine .after fun _ => identifier_forms.bind fun first hfirst => .after fun _ => ?_
  refine (pathSegments_forms _).bind fun rest hrest => .after fun _ => .pure ?_
  exact ⟨List.cons_ne_nil _ _, List.forall_mem_cons.2 ⟨hfirst, hrest⟩⟩

theorem packageHeader_forms :
    Forms t packageHeader fun p => ∀ x ∈ p, x.path.WellFormed t := by
  rw [packageHeader]
  refine .after fun _ => .after fun found => ?_
  split
  · have hdecl : Forms t packageDecl fun p => p.path.WellFormed t := by
      rw [packageDecl]
      exact .after fun _ => .after fun _ => path_forms.bind fun p hp =>
        .after fun _ => .after fun _ => .pure hp
    refine hdecl.bind fun p hp => .pure ?_
    rintro _ ⟨⟩
    exact hp
  · exact .pure fun x hx => absurd hx (Option.not_mem_none x)

theorem importSegments_forms (fuel : Nat) :
    Forms t (importSegments fuel) fun r => ∀ n ∈ r.1, t.Proper n := by
  induction fuel with
  | zero => exact .cutOff
  | succ fuel ih =>
    rw [importSegments]
    refine .after fun dot => ?_
    split
    · refine .after fun s => ?_
      split
      · exact .after fun _ => identifier_forms.bind fun n hn => ih.bind fun r hr =>
          .pure (List.forall_mem_cons.2 ⟨hn, hr⟩)
      · split
        · exact .after fun _ => .after fun _ => .pure (List.forall_mem_nil _)
        · exact .after fun _ => .after fun _ => .pure (List.forall_mem_nil _)
    · exact .pure (List.forall_mem_nil _)

theorem importDecl_forms : Forms t importDecl fun i => i.path.WellFormed t := by
  rw [importDecl]
  refine .after fun _ => .after fun _ => .after fun _ => .after fun _ => ?_
  refine identifier_forms.bind fun first hfirst => .after fun _ => ?_
  refine (importSegments_forms _).bind fun r hr => .after fun _ => .after fun _ => .after fun _ => ?_
  exact .pure ⟨List.cons_ne_nil _ _, List.forall_mem_cons.2 ⟨hfirst, hr⟩⟩

theorem imports_forms (fuel : Nat) :
    Forms t (imports fuel) fun is => ∀ i ∈ is, i.path.WellFormed t := by
  induction fuel with
  | zero => exact .cutOff
  | succ fuel ih =>
    rw [imports]
    refine .after fun found => ?_
    split
    · exact importDecl_forms.bind fun first hfirst => ih.bind fun rest hrest =>
        .pure (List.forall_mem_cons.2 ⟨hfirst, hrest⟩)
    · exact .pure (List.forall_mem_nil _)

theorem topLevel_forms (fuel : Nat) :
    Forms t (topLevel fuel) fun ds => ∀ d ∈ ds, d.WellFormed t := by
  induction fuel with
  | zero => exact .cutOff
  | succ fuel ih =>
    rw [topLevel]
    refine .after fun ended => ?_
    split
    · exact .pure (List.forall_mem_nil _)
    · refine .after fun empty => ?_
      split
      · exact ih
      · refine .after fun start => modifiers_forms.bind fun ms hms => .after fun _ => ?_
        split
        · have hdecl : Forms t (typeDecl ms start) (TypeDecl.WellFormed t) :=
            .after fun _ => declWithin_forms hms _
          exact hdecl.bind fun first hfirst => ih.bind fun rest hrest =>
            .pure (List.forall_mem_cons.2 ⟨hfirst, hrest⟩)
        · exact .after fun _ => .after fun _ => .after fun _ => .after fun _ => ih

/-- **The parser of files gives well-formed trees**, if it is not cut off. -/
theorem unit_forms : Forms t unit (CompilationUnit.WellFormed t) := by
  rw [unit]
  refine .after fun _ => (orBack_forms packageHeader_forms).bind fun package hpackage => ?_
  refine .after fun _ => (imports_forms _).bind fun imported himported => .after fun _ => ?_
  refine (topLevel_forms _).bind fun types htypes => .after fun _ => .pure ?_
  exact ⟨hpackage, himported, htypes⟩

end Parser

/-- **Every tree is well formed**, also after errors. -/
theorem parse_wellFormed (file : Nat) (source : String) (names : NameTable) :
    (parse file source names).1.WellFormed (parse file source names).2.1 := by
  have hruns := Parser.unit_runs (ParserState.sane_start file source names)
  rw [parse_eq]
  exact Parser.unit_forms _ hruns.1.whole (.refl _)

end JavaAbi
