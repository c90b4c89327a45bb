import JavaAbi.Symbols.Table

namespace JavaAbi.SymbolTable

/-!
# The platform table

The types that every batch can refer to without a symbol file.
-/

/-- A public class of `java.lang`. -/
def langClass (simple : String) (more : List Modifier) (superclass : Option String)
    (interfaces : List String) : Descriptor where
  qualifiedName := "java.lang." ++ simple
  package := "java.lang"
  kind := .classType
  modifiers := .publicAccess :: more
  superclass := superclass
  interfaces := interfaces

/-- A public interface of `java.lang`. -/
def langInterface (simple : String) (typeParameters : List String) : Descriptor where
  qualifiedName := "java.lang." ++ simple
  package := "java.lang"
  kind := .interfaceType
  modifiers := [.publicAccess]
  typeParameters := typeParameters

/-- A public annotation type of `java.lang`. -/
def langAnnotation (simple : String) : Descriptor where
  qualifiedName := "java.lang." ++ simple
  package := "java.lang"
  kind := .annotationType
  modifiers := [.publicAccess]

/-- The platform table. -/
def platform : SymbolTable :=
  let object := "java.lang.Object"
  let serializable := "java.io.Serializable"
  let comparable := "java.lang.Comparable"
  let throwable := "java.lang.Throwable"
  let exception := "java.lang.Exception"
  ofList
    [langClass "Object" [] none [],
     { langClass "Enum" [.abstract] (some object) [comparable, serializable] with
       typeParameters := ["E"] },
     langClass "Record" [.abstract] (some object) [],
     langClass "String" [.final] (some object) [serializable, comparable, "java.lang.CharSequence"],
     langClass "Number" [.abstract] (some object) [serializable],
     langClass "Integer" [.final] (some "java.lang.Number") [comparable],
     langClass "Throwable" [] (some object) [serializable],
     langClass "Exception" [] (some throwable) [],
     langClass "RuntimeException" [] (some exception) [],
     langClass "Error" [] (some throwable) [],
     langInterface "Runnable" [],
     langInterface "Cloneable" [],
     langInterface "CharSequence" [],
     langInterface "AutoCloseable" [],
     langInterface "Comparable" ["T"],
     langInterface "Iterable" ["T"],
     { langInterface "Annotation" [] with
       qualifiedName := "java.lang.annotation.Annotation", package := "java.lang.annotation" },
     { langInterface "Serializable" [] with qualifiedName := serializable, package := "java.io" },
     langAnnotation "Override",
     langAnnotation "Deprecated"]

end JavaAbi.SymbolTable
