/-!
# Type references

A reference names its base, a definition or a primitive type, and never holds it, so types that
refer to each other in a circle need no special care.
-/

namespace Bindery

/-- One level of indirection above a base type. -/
inductive Modifier where
  | pointer
  /-- A pointer to const. -/
  | constPointer
  /-- An array of unknown length. -/
  | array
  /-- An array of unknown length with const elements. -/
  | constArray
deriving DecidableEq, Repr

def Modifier.isPointer : Modifier → Bool
  | pointer | constPointer => true
  | array | constArray => false

/-- The structure of a type reference, its display name aside. -/
structure TypeKey where
  base : String
  modifiers : List Modifier
deriving DecidableEq, Repr

/-- A reference to a type. -/
structure TypeRef where
  base : String
  /-- The modifiers, the one closest to the base first. -/
  modifiers : List Modifier
  /-- The display name, once it is known. -/
  hostName : Option String
deriving DecidableEq, Repr

namespace TypeRef

/-- The reference to `base` itself. -/
def plain (base : String) : TypeRef := ⟨base, [], none⟩

instance : Inhabited TypeRef := ⟨plain ""⟩

/-- The reference with one more modifier on the outside. -/
def push (ty : TypeRef) (m : Modifier) : TypeRef := { ty with modifiers := ty.modifiers ++ [m] }

/-- The outermost modifier. -/
def outermost? (ty : TypeRef) : Option Modifier := ty.modifiers.getLast?

/-- The reference without its outermost modifier. -/
def pop (ty : TypeRef) : TypeRef := { ty with modifiers := ty.modifiers.dropLast }

def isPlain (ty : TypeRef) : Bool := ty.modifiers.isEmpty

def isPointer (ty : TypeRef) : Bool := ty.outermost?.any Modifier.isPointer

/-- The reference without its outermost modifier when that is a pointer. -/
def popPointer? (ty : TypeRef) : Option TypeRef := if ty.isPointer then some ty.pop else none

def key (ty : TypeRef) : TypeKey := ⟨ty.base, ty.modifiers⟩

/-- The display name over the given host name of the base: one star for each modifier. A base that
has no host name goes by its source name. -/
def display (ty : TypeRef) (baseHost : Option String) : String :=
  baseHost.getD ty.base ++ String.ofList (List.replicate ty.modifiers.length '*')

end TypeRef

end Bindery
