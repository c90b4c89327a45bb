import JavaAbi.Syntax.Tree

namespace JavaAbi

/-!
# Spans that nest

In a tree whose spans nest, the span of each node contains those of the nodes below it, and nodes that
follow each other have disjoint spans in increasing order. Types that could not be parsed have no
place in such a tree.

* `Span.Contains`, `Span.Lines` — a span inside another, and spans one after the other inside one;
* `Row` — nodes one after the other inside a span;
* `TypeRef.Nested`, `TypeDecl.Nested`, `CompilationUnit.Nested` — trees whose spans nest.

`Reads n place` stands for "the name `n` is what stands at `place`".
-/

namespace Span

/-- A span lies inside another one of its file. -/
structure Contains (outer inner : Span) : Prop where
  file : inner.file = outer.file
  start : outer.start ≤ inner.start
  le : inner.start ≤ inner.stop
  stop : inner.stop ≤ outer.stop

/-- Spans follow each other inside a span, and they do not overlap. -/
structure Lines (outer : Span) (spans : List Span) : Prop where
  inside : ∀ p ∈ spans, outer.Contains p
  ordered : spans.Pairwise fun p q => p.stop ≤ q.start

/-- The offsets of a span are among those of another one of its file. -/
structure Inside (inner outer : Span) : Prop where
  file : outer.file = inner.file
  start : outer.start ≤ inner.start
  stop : inner.stop ≤ outer.stop

variable {a b c p q : Span} {ps qs : List Span}

theorem Inside.trans (h : a.Inside b) (h' : b.Inside c) : a.Inside c :=
  ⟨h'.file.trans h.file, Nat.le_trans h'.start h.start, Nat.le_trans h.stop h'.stop⟩

theorem Contains.widen (h : a.Contains p) (hab : a.Inside b) : b.Contains p :=
  ⟨h.file.trans hab.file.symm, Nat.le_trans hab.start h.start, h.le, Nat.le_trans h.stop hab.stop⟩

theorem Lines.nil (a : Span) : a.Lines [] := ⟨List.forall_mem_nil _, .nil⟩

theorem Lines.singleton (h : a.Contains p) : a.Lines [p] :=
  ⟨List.forall_mem_singleton.2 h, List.pairwise_singleton _ _⟩

theorem Lines.widen (h : a.Lines ps) (hab : a.Inside b) : b.Lines ps :=
  ⟨fun p hp => (h.inside p hp).widen hab, h.ordered⟩

/-- Spans inside a span, then spans inside one that follows it. -/
theorem Lines.append (h : a.Lines ps) (h' : b.Lines qs) (hab : a.stop ≤ b.start)
    (ha : a.Inside c) (hb : b.Inside c) : c.Lines (ps ++ qs) where
  inside p hp := (List.mem_append.1 hp).elim (fun hp => (h.inside p hp).widen ha)
    fun hp => (h'.inside p hp).widen hb
  ordered := List.pairwise_append.2 ⟨h.ordered, h'.ordered, fun p hp q hq =>
    Nat.le_trans (h.inside p hp).stop (Nat.le_trans hab (h'.inside q hq).start)⟩

end Span

/-- Nodes that follow each other inside a span, each of them as it has to be. -/
structure Row {α : Type} (place : α → Span) (Fine : α → Prop) (outer : Span) (xs : List α) :
    Prop where
  lines : outer.Lines (xs.map place)
  fine : ∀ x ∈ xs, Fine x

namespace Row

variable {α : Type} {place : α → Span} {Fine : α → Prop} {a b : Span} {x : α} {xs : List α}

theorem nil (a : Span) : Row place Fine a [] := ⟨.nil a, List.forall_mem_nil _⟩

theorem singleton (hx : Fine x) (h : a.Contains (place x)) : Row place Fine a [x] :=
  ⟨.singleton h, List.forall_mem_singleton.2 hx⟩

theorem widen (h : Row place Fine a xs) (hab : a.Inside b) : Row place Fine b xs :=
  ⟨h.lines.widen hab, h.fine⟩

/-- The node that there is, if there is one. -/
theorem option {o : Option α} (h : ∀ x ∈ o, Fine x ∧ a.Contains (place x)) :
    Row place Fine a o.toList := by
  cases o with
  | none => exact .nil a
  | some x => exact .singleton (h x rfl).1 (h x rfl).2

end Row

/-! ### Types -/

/-- **A written type whose spans nest.** No type that could not be parsed is one. -/
inductive TypeRef.Nested : TypeRef → Prop
  | primitive {p : PrimitiveType} {span : Span} : TypeRef.Nested (.primitive p span)
  | void {span : Span} : TypeRef.Nested (.void span)
  | classType {segments : List ClassSegment} {span : Span}
      (lines : span.Lines ((segments.flatMap ClassSegment.args).map TypeRef.span))
      (args : ∀ seg ∈ segments, ∀ a ∈ seg.args, TypeRef.Nested a) :
      TypeRef.Nested (.classType segments span)
  | array {component : TypeRef} {span : Span} (inside : span.Contains component.span)
      (inner : TypeRef.Nested component) : TypeRef.Nested (.array component span)
  | wildcard {span : Span} : TypeRef.Nested (.wildcard span)
  | wildcardExtends {bound : TypeRef} {span : Span} (inside : span.Contains bound.span)
      (inner : TypeRef.Nested bound) : TypeRef.Nested (.wildcardExtends bound span)
  | wildcardSuper {bound : TypeRef} {span : Span} (inside : span.Contains bound.span)
      (inner : TypeRef.Nested bound) : TypeRef.Nested (.wildcardSuper bound span)

theorem TypeRef.Nested.isError {r : TypeRef} (h : r.Nested) : r.isError = false := by
  cases h <;> rfl

/-- Types that follow each other inside a span. -/
abbrev TypeRef.AllNested : Span → List TypeRef → Prop := Row TypeRef.span TypeRef.Nested

/-- A type parameter with its bounds. -/
def TypeParam.Nested (p : TypeParam) : Prop := TypeRef.AllNested p.span p.bounds

/-- Type parameters that follow each other inside a span. -/
abbrev TypeParam.AllNested : Span → List TypeParam → Prop := Row TypeParam.span TypeParam.Nested

/-! ### Declarations -/

/-- The span of a member. -/
def Member.span : Member → Span
  | .type d => d.head.span
  | .field f => f.span
  | .constant _ _ span => span

section Declarations

variable (Reads : Name → Span → Prop)

/-- A field declaration: its type, then its variables, each with its name. -/
structure FieldDecl.Nested (f : FieldDecl) : Prop where
  type : f.type.Nested
  lines : f.span.Lines (f.type.span :: f.declarators.map Variable.span)
  names : ∀ v ∈ f.declarators, Reads v.name v.span

/-- The header of a declaration: its name, then its type parameters, then its supertypes. -/
structure DeclHead.Nested (h : DeclHead) : Prop where
  name : ∀ n ∈ h.name, Reads n h.nameSpan
  params : ∀ p ∈ h.typeParams, p.Nested
  supertypes : ∀ r ∈ h.extended ++ h.implemented, r.Nested
  lines : h.span.Lines (h.nameSpan ::
    (h.typeParams.map TypeParam.span ++ (h.extended ++ h.implemented).map TypeRef.span))

mutual

/-- **A declaration whose spans nest**: its header and its members are inside its span. -/
inductive TypeDecl.Nested : TypeDecl → Prop
  | mk {head : DeclHead} {members : List Member} (header : head.Nested Reads)
      (lines : head.span.Lines (members.map Member.span))
      (inner : ∀ m ∈ members, Member.Nested m) : TypeDecl.Nested (.mk head members)

/-- A member; the body of a constant is inside it. -/
inductive Member.Nested : Member → Prop
  | type {d : TypeDecl} (decl : TypeDecl.Nested d) : Member.Nested (.type d)
  | field {f : FieldDecl} (decl : f.Nested Reads) : Member.Nested (.field f)
  | plain {n : Name} {span : Span} : Member.Nested (.constant n none span)
  | withBody {n : Name} {body : TypeDecl} {span : Span} (inside : span.Contains body.head.span)
      (decl : TypeDecl.Nested body) : Member.Nested (.constant n (some body) span)

end

/-- **The tree of a file whose spans nest**: its package, then its imports, then its types. -/
structure CompilationUnit.Nested (u : CompilationUnit) : Prop where
  package : ∀ p ∈ u.package, p.span.Contains p.path.span
  imports : ∀ i ∈ u.imports, i.span.Contains i.path.span
  types : ∀ d ∈ u.types, d.Nested Reads
  lines : u.span.Lines (u.package.toList.map PackageDecl.span ++
    (u.imports.map ImportDecl.span ++ u.types.map fun d => d.head.span))

end Declarations

/-- Members that follow each other inside a span. -/
abbrev Member.AllNested (Reads : Name → Span → Prop) : Span → List Member → Prop :=
  Row Member.span (Member.Nested Reads)

/-- Fields as members. -/
theorem Row.of_fields {Reads : Name → Span → Prop} {a : Span} {fs : List FieldDecl}
    (h : Row FieldDecl.span (FieldDecl.Nested Reads) a fs) :
    Member.AllNested Reads a (fs.map Member.field) where
  lines := by
    rw [List.map_map]
    exact h.lines
  fine m hm := by
    obtain ⟨f, hf, rfl⟩ := List.mem_map.1 hm
    exact .field (h.fine f hf)

end JavaAbi
