import JavaAbi.Proofs.NameTables
import JavaAbi.Syntax.Token
import JavaAbi.Syntax.Tree

namespace JavaAbi

/-!
# Trees in another place

A tree is carried over into another table of names and to another place of a text: each name becomes
the one that the other table has for its text, and all places move by the same number of bytes. Nothing
else changes.

* `Span.shift`, `Token.shift` — places further back in a text;
* `Carrier` — where names and places go, and `Carrier.between` — from one table to another;
* `Carrier.type`, `Carrier.decl` and the like — the parts of a tree.
-/

/-- A place some bytes further back. -/
def Span.shift (offset : Nat) (s : Span) : Span := ⟨s.file, s.start + offset, s.stop + offset⟩

/-- A token some bytes further back. -/
def Token.shift (offset : Nat) (t : Token) : Token := ⟨t.kind, t.text, t.span.shift offset⟩

theorem Span.shift_cover (offset : Nat) (s t : Span) :
    (s.cover t).shift offset = (s.shift offset).cover (t.shift offset) := by
  simp only [Span.shift, Span.cover, Nat.add_min_add_right, Nat.add_max_add_right]

/-- Where the names and the places of a tree go. -/
structure Carrier where
  name : Name → Name
  place : Span → Span

/-- From a table into another one, and some bytes further back. A name goes to the one that the other
    table has for its text, or to `other` where it has none. -/
def Carrier.between (t t' : NameTable) (offset : Nat) (other : Name) : Carrier :=
  ⟨fun n => (t'.find? (t.text n)).getD other, Span.shift offset⟩

/-- A text that both tables have. -/
theorem Carrier.name_between {t t' : NameTable} {offset : Nat} {n n' other : Name} {text : String}
    (h : t.resolve? n = some text) (h' : t'.resolve? n' = some text) :
    (between t t' offset other).name n = n' := by
  show (t'.find? (t.text n)).getD other = n'
  rw [NameTable.text_eq h, NameTable.find?_of_resolve? h', Option.getD_some]

namespace Carrier

variable (c : Carrier)

/-! ### Written types -/

mutual

/-- A written type, carried over. -/
def type : TypeRef → TypeRef
  | .primitive p place => .primitive p (c.place place)
  | .void place => .void (c.place place)
  | .classType segs place => .classType (segments segs) (c.place place)
  | .array component place => .array (type component) (c.place place)
  | .wildcard place => .wildcard (c.place place)
  | .wildcardExtends bound place => .wildcardExtends (type bound) (c.place place)
  | .wildcardSuper bound place => .wildcardSuper (type bound) (c.place place)
  | .error place => .error (c.place place)

/-- Segments of a class type, carried over. -/
def segments : List ClassSegment → List ClassSegment
  | [] => []
  | .mk name args :: rest => .mk (c.name name) (types args) :: segments rest

/-- Written types, carried over. -/
def types : List TypeRef → List TypeRef
  | [] => []
  | r :: rest => type r :: types rest

end

theorem isError_type (r : TypeRef) : (c.type r).isError = r.isError := by
  cases r <;> rw [type] <;> rfl

/-- A type parameter, carried over. -/
def typeParam (p : TypeParam) : TypeParam := ⟨c.name p.name, p.bounds.map c.type, c.place p.span⟩

/-! ### Declarations -/

/-- A path, carried over. -/
def path (p : Path) : Path := ⟨p.segments.map c.name, c.place p.span⟩

/-- A `package` declaration, carried over. -/
def package (p : PackageDecl) : PackageDecl := ⟨c.path p.path, c.place p.span⟩

/-- An import, carried over. -/
def importDecl (i : ImportDecl) : ImportDecl :=
  ⟨i.isStatic, c.path i.path, i.onDemand, c.place i.span⟩

/-- A variable, carried over. -/
def declarator (v : Variable) : Variable := ⟨c.name v.name, v.dims, c.place v.span⟩

/-- A field declaration, carried over. -/
def field (f : FieldDecl) : FieldDecl :=
  ⟨f.modifiers, c.type f.type, f.declarators.map c.declarator, c.place f.span⟩

/-- The head of a declaration, carried over. -/
def head (h : DeclHead) : DeclHead where
  kind := h.kind
  name := h.name.map c.name
  nameSpan := c.place h.nameSpan
  modifiers := h.modifiers
  typeParams := h.typeParams.map c.typeParam
  extended := h.extended.map c.type
  implemented := h.implemented.map c.type
  span := c.place h.span

mutual

/-- A declaration, carried over. -/
def decl : TypeDecl → TypeDecl
  | .mk head ms => .mk (c.head head) (members ms)

/-- A member, carried over. -/
def member : Member → Member
  | .type d => .type (decl d)
  | .field f => .field (c.field f)
  | .constant name none place => .constant (c.name name) none (c.place place)
  | .constant name (some d) place => .constant (c.name name) (some (decl d)) (c.place place)

/-- Members, carried over. -/
def members : List Member → List Member
  | [] => []
  | m :: rest => member m :: members rest

end

theorem members_eq_map (ms : List Member) : c.members ms = ms.map c.member := by
  induction ms with
  | nil => rw [members, List.map_nil]
  | cons m ms ih => rw [members, ih, List.map_cons]

end Carrier

end JavaAbi
