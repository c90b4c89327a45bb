import JavaAbi.Model.Query
import JavaAbi.Proofs.Reference

namespace JavaAbi

/-!
# What elements answer

The rules for what a session answers about an element, stated for its symbol. As in the rules for
names, what depends on lists of supertypes asks for them.

* `World.declaredType` — the type that a declaration declares;
* `World.OwnTypeIs` — the own types of elements that come from source code;
* `World.superclassOf`, `World.interfacesOf` — the supertypes of a symbol;
* `World.Unparsed` — the symbols with a supertype that could not be parsed;
* `World.textOf`, `World.headOf` — the text of a type, and what it begins with;
* `enumSuperclass`, `bodySuperclass` — parts of what a session does for a superclass;
* `displayHead`, `displayType_declared` — what it does for the text of a type.
-/

/-- Whether the type is a class or interface type. -/
def TypeView.isDeclared : TypeView → Bool
  | declared .. => true
  | _ => false

/-- Whether the type is a class or interface type that, or whose enclosing type, has arguments. -/
def TypeView.isParameterized : TypeView → Bool
  | declared _ args enclosing => !args.isEmpty || enclosing.isDeclared
  | _ => false

/-- A class or interface type without arguments. -/
def TypeView.plain (symbol : Symbol) : TypeView := .declared (.known symbol) [] .absent

namespace World

variable (w : World)

/-! ### Own types -/

/-- The kind of a declaration of the batch. -/
def kindOf? (d : DeclId) : Option DeclKind := (w.index.tree? w.units d).map (·.head.kind)

/-- The type around the types of an inner class, if it is parameterized; `outer` are the types that
    declarations declare. -/
def instanceAround (outer : DeclId → TypeView) (i : DeclInfo) (h : DeclHead) : TypeView :=
  if h.kind ≠ .classType || h.modifiers.contains .static then .absent
  else
    match i.parent, i.constant with
    | some p, none =>
      match w.kindOf? p with
      | some .classType | some .enumType | some .recordType =>
        if (outer p).isParameterized then outer p else .absent
      | _ => .absent
    | _, _ => .absent

/-- The type that a declaration declares; `fuel` bounds the declarations around it. -/
def declaredWithin : Nat → DeclId → TypeView
  | 0, _ => .error
  | fuel + 1, d =>
    match w.index.get? d, w.index.tree? w.units d with
    | some i, some tree =>
      .declared (.known (w.symbolOf d))
        (i.typeParams.map fun n => .typeVariable (w.text n) (w.symbolOf d))
        (w.instanceAround (declaredWithin fuel) i tree.head)
    | _, _ => .error

/-- The type that a declaration declares. -/
def declaredType (d : DeclId) : TypeView := w.declaredWithin (d + 1) d

/-- The type that is written for a variable of a field declaration. -/
def fieldType? (d : DeclId) (m number : Nat) : Option TypeRef :=
  match (w.index.tree? w.units d).bind (·.members[m]?) with
  | some (.field f) => f.declarators[number]?.map fun v => Element.withDimensions v.span v.dims f.type
  | _ => none

/-- The type that is written for the element of a symbol. -/
def written? : Symbol → Option TypeRef
  | .field d m number => w.fieldType? d m number
  | _ => none

/-- How the type that is written for the element of a symbol is read. -/
def reading? : Symbol → Option (Inquiry TypeView)
  | .field d m number => (w.fieldType? d m number).map (w.typeOf (w.scopeOf d))
  | _ => none

/-- The own type of an element that comes from source code. -/
def OwnTypeIs : Symbol → TypeView → Prop
  | .package _, v => v = .package
  | .field d m number, v =>
    ∃ type, w.fieldType? d m number = some type ∧ w.Settles (w.typeOf (w.scopeOf d) type) v
  | .constant d _, v => v = w.declaredType d
  | symbol, v => ∃ d, w.declOf? symbol = some d ∧ v = w.declaredType d

/-! ### Supertypes -/

/-- The type of a canonical name; an unknown one is placed at `place`. -/
def plainType (place : Span) (name : String) : Rule TypeView := do
  let symbol ← tryCatch (Rule.ofExcept (w.lookup name)) fun e => throw (e.located place)
  return .plain symbol

/-- The type that a supertype clause writes. -/
def supertype (sc : ScopeView) (t : TypeRef) : Rule TypeView := do
  let type ← w.typeOf sc t
  match type with
  | .error => throw .unparsableSupertype
  | type =>
    let _ ← w.resolveType type
    return type

/-- The superclass of a declaration. -/
def declaredSuperclass (d : DeclId) (i : DeclInfo) (h : DeclHead) : Rule TypeView :=
  if h.kind = .interfaceType || h.kind = .annotationType then return .absent
  else if i.constant.isSome then
    match i.parent with
    | some p => return w.declaredType p
    | none => throw .bodyOutsideEnum
  else if h.kind = .enumType then do
    let base ← tryCatch (Rule.ofExcept (w.lookup (w.text w.wellKnown.enumBase))) fun e =>
      throw (e.located i.nameSpan)
    return .declared (.known base) [w.declaredType d] .absent
  else if h.kind = .recordType then w.plainType i.nameSpan (w.text w.wellKnown.recordBase)
  else if i.qualifiedName = .named w.wellKnown.rootObject then return .absent
  else
    match h.extended with
    | written :: _ => w.supertype (w.headerScopeOf d) written
    | [] => w.plainType i.nameSpan (w.text w.wellKnown.rootObject)

/-- The superclass of a symbol. -/
def superclassOf (symbol : Symbol) : Rule TypeView :=
  match w.declOf? symbol with
  | some d =>
    match w.index.get? d, w.index.tree? w.units d with
    | some i, some tree => w.declaredSuperclass d i tree.head
    | _, _ => return .absent
  | none =>
    match w.descriptorOf? symbol with
    | some d =>
      if d.kind = .interfaceType || d.kind = .annotationType then return .absent
      else
        match d.superclass with
        | some name => w.plainType .nowhere name
        | none => return .absent
    | none => return .absent

/-- The interfaces of a declaration. -/
def declaredInterfaces (d : DeclId) (i : DeclInfo) (h : DeclHead) : Rule (List TypeView) :=
  if h.kind = .annotationType then do
    return [← w.plainType i.nameSpan (w.text w.wellKnown.annotationBase)]
  else
    (if h.kind = .interfaceType then h.extended else h.implemented).mapM
      (w.supertype (w.headerScopeOf d))

/-- The interfaces of a symbol. -/
def interfacesOf (symbol : Symbol) : Rule (List TypeView) :=
  match w.declOf? symbol with
  | some d =>
    match w.index.get? d, w.index.tree? w.units d with
    | some i, some tree => w.declaredInterfaces d i tree.head
    | _, _ => return []
  | none =>
    match w.descriptorOf? symbol with
    | some d => d.interfaces.mapM (w.plainType .nowhere)
    | none => return []

/-- A supertype of the symbol could not be parsed. -/
def Unparsed (symbol : Symbol) : Prop :=
  ∃ d tree, w.declOf? symbol = some d ∧ w.index.tree? w.units d = some tree ∧
    ∃ r ∈ tree.head.extended ++ tree.head.implemented, r.isError = true

/-! ### Texts -/

/-- The text of the element of a type: the canonical name, or else the simple one. -/
def nameOf : Symbol → String
  | .type name => name
  | .unnamed d => ((w.index.get? d).map fun i => w.text i.simpleName).getD ""
  | _ => ""

/-- The path that a type target writes. -/
def pathOf? : TargetView → Option String
  | .known _ => none
  | .written r => some (".".intercalate (r.path.map w.text))

mutual

/-- A type as source text; what does not resolve stands as it is written. -/
def textOf : TypeView → Inquiry String
  | .primitive p => return p.keyword
  | .absent => return "none"
  | .void => return "void"
  | .package => return "package"
  | .error => return "<error>"
  | .typeVariable name _ => return name
  | .array component => return (← textOf component) ++ "[]"
  | .wildcard upper lower => do
    let upper ← boundTextOf " extends " upper
    let lower ← boundTextOf " super " lower
    return "?" ++ upper ++ lower
  | .declared target args enclosing => do
    let head ←
      match ← (w.resolveType (.declared target args enclosing)).run with
      | .ok (some symbol) => pure (w.nameOf symbol)
      | _ => pure ((w.pathOf? target).getD "<error>")
    let args ← textsOf args
    return if args.isEmpty then head else head ++ "<" ++ ", ".intercalate args ++ ">"

/-- A bound of a wildcard after its word. -/
def boundTextOf (word : String) : Option TypeView → Inquiry String
  | none => return ""
  | some v => return word ++ (← textOf v)

/-- Types as source text. -/
def textsOf : List TypeView → Inquiry (List String)
  | [] => return []
  | v :: rest => return (← textOf v) :: (← textsOf rest)

end

/-- What the text of a declared type begins with: the text of its element, if it has one, or else the
    path that it writes. -/
def headOf (target : TargetView) : Except ModelError (Option Symbol) → String
  | .ok (some symbol) => w.nameOf symbol
  | _ => (w.pathOf? target).getD "<error>"

theorem textOf_declared (target : TargetView) (args : List TypeView) (enclosing : TypeView) :
    w.textOf (.declared target args enclosing) = do
      let found ← (w.resolveType (.declared target args enclosing)).run
      let args ← w.textsOf args
      return if args.isEmpty then w.headOf target found
        else w.headOf target found ++ "<" ++ ", ".intercalate args ++ ">" := by
  rw [textOf]
  refine bind_congr fun found => ?_
  match found with
  | .ok (some symbol) => rfl
  | .ok none | .error _ => rfl

end World

/-! ### What a session does -/

/-- Makes the superclass of an enum. -/
def enumSuperclass (base : Name) (place : Span) (id : ElementId) : Query ModelType := do
  let base ← tryCatch (findType base) fun e => throw (e.located place)
  let own ← ownType id
  return .declared (← get).token (.known base) [own] .absent

/-- Makes the superclass of the body of a constant: the type of the enum around the constant. -/
def bodySuperclass : Option ElementId → Query ModelType
  | none => throw .bodyOutsideEnum
  | some constant => do
    match (← elementAt constant).enclosing with
    | none => throw .bodyOutsideEnum
    | some owner => ownType owner

/-- Writes what the text of a type begins with. -/
def displayHead (origin : SessionToken) (target : TypeTarget) :
    Except ModelError (Option ElementId) → SessionM String
  | .ok (some id) => displayElement id
  | _ => return (← writtenName? origin target).getD "<error>"

theorem displayType_declared (origin : SessionToken) (target : TypeTarget) (args : List ModelType)
    (enclosing : ModelType) :
    displayType (.declared origin target args enclosing) = do
      let found ← (elementOfType (.declared origin target args enclosing)).run
      let head ← displayHead origin target found
      let args ← displayTypes args
      return if args.isEmpty then head else head ++ "<" ++ ", ".intercalate args ++ ">" := by
  rw [displayType]
  refine bind_congr fun found => ?_
  match found with
  | .ok (some id) => rfl
  | .ok none | .error _ => simp only [displayHead, bind_assoc, pure_bind]

end JavaAbi
