import JavaAbi.Symbols.Table

namespace JavaAbi

/-!
# Providers of precompiled types

A provider answers for the names that no declaration of the batch has: it is any function of the
name. Providers are made by stacking layers, each of which knows finitely many names; the first
layer that knows a name answers for it.
-/

/-- What answers for the names that the batch does not declare. An answer may describe a type of
    another name. `extent` bounds the names that a search for a member type goes through; for a
    provider that knows finitely many names, their number is enough. -/
structure Provider where
  resolve? : String → Option Descriptor
  extent : Nat
  deriving Inhabited

/-- The names that a layer knows, with its answers. -/
abbrev Layer := List (String × Descriptor)

/-- The layer of a symbol table: each descriptor under its own name. -/
def SymbolTable.layer (t : SymbolTable) : Layer := t.descriptors.map fun d => (d.qualifiedName, d)

/-- Layers, the first one consulted first. -/
abbrev Layers := List Layer

namespace Layers

/-- The answer for a name. -/
def resolve? (p : Layers) (name : String) : Option Descriptor := p.findSome? (·.lookup name)

/-- The names that some layer knows. -/
def known (p : Layers) : List String := p.flatMap (·.map Prod.fst)

/-- The provider that consults layers. -/
def provider (p : Layers) : Provider := ⟨p.resolve?, p.known.length⟩

theorem mem_known_of_resolve? {p : Layers} {name : String} {d : Descriptor}
    (h : p.resolve? name = some d) : name ∈ p.known := by
  obtain ⟨layer, hl, hd⟩ := List.exists_of_findSome?_eq_some h
  refine List.mem_flatMap.2 ⟨layer, hl, ?_⟩
  clear h hl
  induction layer with
  | nil => simp at hd
  | cons e rest ih =>
    rw [List.lookup_cons] at hd
    split at hd
    · rename_i heq; simp [eq_of_beq heq]
    · simp only [List.map_cons, List.mem_cons]; exact Or.inr (ih hd)

end Layers

end JavaAbi
