/-!
# Types of constant expressions

The types a macro body can have, their host spellings, the names C and host sources use for them,
and the rule for the type of an arithmetic operation.
-/

namespace Bindery

/-- The type of a constant expression. -/
inductive Ty where
  | bool
  /-- A character literal. -/
  | char
  | i8 | u8 | i16 | u16 | i32 | u32 | i64 | u64
  | f32 | f64
  /-- A string literal. -/
  | str
  /-- A type that only its name is known of. -/
  | named (name : String)
deriving DecidableEq, Repr, Inhabited

namespace Ty

/-- How the host language writes the type. -/
def spelling : Ty → String
  | bool => "bool"
  | char => "char"
  | i8 => "sbyte"
  | u8 => "byte"
  | i16 => "short"
  | u16 => "ushort"
  | i32 => "int"
  | u32 => "uint"
  | i64 => "long"
  | u64 => "ulong"
  | f32 => "float"
  | f64 => "double"
  | str => "string"
  | named name => name

/-- The type that a single word names, in C or in the host language. Plain `char` is a byte. -/
def ofName? : String → Option Ty
  | "bool" | "_Bool" => some bool
  | "char" | "byte" | "uint8_t" => some u8
  | "sbyte" | "int8_t" => some i8
  | "short" | "int16_t" => some i16
  | "ushort" | "uint16_t" => some u16
  | "int" | "signed" | "int32_t" => some i32
  | "uint" | "unsigned" | "uint32_t" => some u32
  | "long" | "int64_t" => some i64
  | "ulong" | "uint64_t" => some u64
  | "float" => some f32
  | "double" => some f64
  | _ => none

/-- The type that `name` stands for; a name that `ofName?` does not know stands for itself. -/
def ofName (name : String) : Ty := (ofName? name).getD (named name)

/-- The unsigned integer type of the same width; other types stay. -/
def toUnsigned : Ty → Ty
  | i8 => u8
  | i16 => u16
  | i32 => u32
  | i64 => u64
  | ty => ty

def isUnsigned : Ty → Bool
  | u8 | u16 | u32 | u64 => true
  | _ => false

/-- The width in bits of a type that has one. -/
def bits : Ty → Nat
  | bool | char | i8 | u8 => 8
  | i16 | u16 => 16
  | i32 | u32 | f32 => 32
  | i64 | u64 | f64 => 64
  | str | named _ => 0

/-- Integer promotion: what is narrower than 32 bits becomes `int`. A named type takes no part in
arithmetic. -/
def promoted? : Ty → Option Ty
  | bool | char | i8 | u8 | i16 | u16 => some i32
  | named _ => none
  | ty => some ty

/-- The type of an operation on two promoted types. -/
def join (left right : Ty) : Ty :=
  if left = str ∨ right = str then str
  else if left = f64 ∨ right = f64 then f64
  else if left = f32 ∨ right = f32 then f32
  else
    let width := max left.bits right.bits
    let unsigned :=
      (left.bits == width && left.isUnsigned) || (right.bits == width && right.isUnsigned)
    match width == 64, unsigned with
    | true, true => u64
    | true, false => i64
    | false, true => u32
    | false, false => i32

/-- The type of a binary arithmetic or bitwise operation. A string wins, then `double`, then
`float`; integers widen to the larger width, where unsigned beats signed. -/
def arithmetic? (left right : Ty) : Option Ty :=
  match left.promoted?, right.promoted? with
  | some l, some r => some (join l r)
  | _, _ => none

end Ty

end Bindery
