import Bindery.Definition

/-!
# Declarations

What a header parser hands over: the macros, enums, records, typedefs and functions of one header,
with types as C writes them. A record without fields is a forward declaration.
-/

namespace Bindery

/-- The builtin types of C. -/
inductive Builtin where
  | void | bool
  | char | schar | uchar
  | short | ushort | int | uint | long | ulong | longLong | ulongLong
  | float | double
  | intPtr | uintPtr
deriving DecidableEq, Repr

/-- The primitive type of a builtin. Plain `char` is a byte. -/
def Builtin.primitive : Builtin → Primitive
  | void => .void
  | bool => .bool
  | char | uchar => .byte
  | schar => .sbyte
  | short => .short
  | ushort => .ushort
  | int => .int
  | uint => .uint
  | long | longLong => .long
  | ulong | ulongLong => .ulong
  | float => .float
  | double => .double
  | intPtr => .nint
  | uintPtr => .nuint

inductive ArraySize where
  | constant (length : Nat)
  /-- As in `T x[]`. -/
  | incomplete
  /-- The length is an expression. -/
  | variable
deriving DecidableEq, Repr

/-- Calling conventions as header parsers report them. -/
inductive CallConv where
  | c | stdCall | thisCall | fastCall | other
deriving DecidableEq, Repr

/-- The calling convention of the host; one that has no counterpart there counts as C's. -/
def CallConv.toHost : CallConv → CallingConvention
  | c | other => .cdecl
  | stdCall => .stdCall
  | thisCall => .thisCall
  | fastCall => .fastCall

structure EnumItemDecl where
  name : String
  /-- The 64 bits that the parser reports. -/
  value : UInt64
  doc : Doc
deriving DecidableEq, Repr

mutual

/-- A type as C writes it. -/
inductive CType where
  | builtin (b : Builtin)
  | pointer (pointee : CType) (pointeeConst : Bool)
  | array (element : CType) (size : ArraySize) (elementConst : Bool)
  | typedef (name : String) (target : CType)
  | record (decl : RecordDecl)
  | enum (decl : EnumDecl)
  | function (ty : FunctionType)
  /-- A type that the parser could not express; only its spelling is known. -/
  | unsupported (spelling : String)

/-- A struct or a union. -/
structure RecordDecl where
  name : Option String
  /-- Nothing for a forward declaration. -/
  fields : Option (List FieldDecl)
  isUnion : Bool
  doc : Doc

structure FieldDecl where
  name : String
  ty : CType
  /-- The width of a bit-field. -/
  bitWidth : Option Nat
  doc : Doc
  deprecation : Option String

structure EnumDecl where
  name : Option String
  underlying : CType
  items : List EnumItemDecl
  doc : Doc

/-- The type of a function, as found behind a pointer. -/
structure FunctionType where
  returnType : CType
  params : List ParamDecl
  callConv : CallConv

structure ParamDecl where
  /-- Empty when the prototype leaves the parameter unnamed. -/
  name : String
  ty : CType
  doc : Doc

end

/-- An object-like macro. -/
structure MacroDecl where
  name : String
  /-- The body as written, continuations included. -/
  text : String
deriving DecidableEq, Repr

structure TypedefDecl where
  name : String
  target : CType

structure FunctionDecl where
  name : String
  returnType : CType
  params : List ParamDecl
  callConv : CallConv
  isInline : Bool
  deprecation : Option String
  doc : Doc

/-- All that one header declares. -/
structure Header where
  file : String
  /-- A system header gives context and is never lowered. -/
  isSystem : Bool
  macros : List MacroDecl
  enums : List EnumDecl
  records : List RecordDecl
  typedefs : List TypedefDecl
  functions : List FunctionDecl

namespace CType

/-- The type behind its typedefs. -/
def desugar : CType → CType
  | typedef _ target => target.desugar
  | ty => ty

/-- The record that the type is, behind its typedefs. -/
def asRecord? (ty : CType) : Option RecordDecl :=
  match ty.desugar with
  | record decl => some decl
  | _ => none

def isBuiltin : CType → Bool
  | builtin _ => true
  | _ => false

/-- A builtin, or a typedef of one. -/
def isBuiltinLike : CType → Bool
  | builtin _ => true
  | typedef _ target => target.isBuiltin
  | _ => false

end CType

def RecordDecl.isComplete (decl : RecordDecl) : Bool := decl.fields.isSome

/-- `struct` or `union`. -/
def RecordDecl.keyword (decl : RecordDecl) : String := if decl.isUnion then "union" else "struct"

namespace CType

/-- The type as it is shown to people. -/
def display : CType → String
  | builtin b => b.primitive.name
  | pointer pointee pointeeConst =>
    (if pointeeConst then "const " else "") ++ pointee.display ++ "*"
  | array element (.constant n) _ => element.display ++ "[" ++ toString n ++ "]"
  | array element .incomplete _ => element.display ++ "[]"
  | array element .variable _ => element.display ++ "[*]"
  | typedef name _ => name
  | record decl => decl.keyword ++ " " ++ decl.name.getD "<anonymous>"
  | enum ⟨name, _, _, _⟩ => "enum " ++ name.getD "<anonymous>"
  | function ⟨returnType, _, _⟩ => returnType.display ++ " (*)(...)"
  | unsupported spelling => spelling

end CType

end Bindery
