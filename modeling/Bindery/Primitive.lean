/-!
# Primitive types

The vocabulary of types that need no definition. A type reference whose base is not the name of a
definition names one of these.
-/

namespace Bindery

/-- A primitive type. -/
inductive Primitive where
  | void | bool
  | sbyte | byte | short | ushort | int | uint | long | ulong
  | float | double
  /-- A signed integer of the size of a pointer. -/
  | nint
  /-- An unsigned integer of the size of a pointer. -/
  | nuint
  /-- Kept apart from `nuint`, so that it can be written as itself. -/
  | sizeT
deriving DecidableEq, Repr, Inhabited

namespace Primitive

def name : Primitive → String
  | void => "void"
  | bool => "bool"
  | sbyte => "sbyte"
  | byte => "byte"
  | short => "short"
  | ushort => "ushort"
  | int => "int"
  | uint => "uint"
  | long => "long"
  | ulong => "ulong"
  | float => "float"
  | double => "double"
  | nint => "nint"
  | nuint => "nuint"
  | sizeT => "size_t"

def all : List Primitive :=
  [void, bool, sbyte, byte, short, ushort, int, uint, long, ulong, float, double, nint, nuint,
    sizeT]

/-- The primitive type of that name. -/
def ofName? (name : String) : Option Primitive := all.find? (·.name == name)

def isInteger : Primitive → Bool
  | void | bool | float | double => false
  | _ => true

def isSigned : Primitive → Bool
  | sbyte | short | int | long | nint => true
  | _ => false

/-- The width of an integer type; the types of the size of a pointer count as 64 bits wide. -/
def bits : Primitive → Nat
  | sbyte | byte => 8
  | short | ushort => 16
  | int | uint => 32
  | _ => 64

/-- How many values an integer type has. -/
def valueCount (p : Primitive) : Nat := Nat.pow 2 p.bits

/-- The smallest unsigned integer type of at least `bits` bits. -/
def unsignedOfBits? (bits : Nat) : Option Primitive :=
  if bits ≤ 8 then some byte
  else if bits ≤ 16 then some ushort
  else if bits ≤ 32 then some uint
  else if bits ≤ 64 then some ulong
  else none

end Primitive

end Bindery
