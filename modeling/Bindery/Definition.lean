import Bindery.Expr.Basic
import Bindery.Primitive
import Bindery.TypeRef

/-!
# Definitions

What a binding generator hands to its emitters: macros, enums, structs, functions, delegates and
fixed-length arrays. Lowering builds definitions, the visitor pass edits them, and the naming pass
gives them their host names.
-/

namespace Bindery

/-- Documentation taken over from a declaration. -/
structure Doc where
  summary : Option String
  detail : Option String
deriving DecidableEq, Repr

namespace Doc

def none : Doc := ⟨.none, .none⟩

instance : Inhabited Doc := ⟨none⟩

def ofSummary (text : String) : Doc := ⟨some text, .none⟩

def isEmpty (doc : Doc) : Bool := doc.summary.isNone && doc.detail.isNone

end Doc

/-- What every definition carries. -/
structure Label where
  /-- The source name, under which the definition is registered. -/
  name : String
  /-- The final identifier, once the naming pass has chosen it. -/
  hostName : Option String
  doc : Doc
deriving DecidableEq, Repr, Inhabited

/-- The label of a definition that has only its source name yet. -/
def Label.ofName (name : String) : Label := ⟨name, none, .none⟩

/-- The kinds of definitions, in the order in which they are emitted. -/
inductive Kind where
  | macroDef | enumDef | structDef | functionDef | delegateDef | fixedArray
deriving DecidableEq, Repr

namespace Kind

def all : List Kind := [macroDef, enumDef, structDef, functionDef, delegateDef, fixedArray]

def name : Kind → String
  | macroDef => "macro"
  | enumDef => "enum"
  | structDef => "struct"
  | functionDef => "function"
  | delegateDef => "delegate"
  | fixedArray => "fixed array"

end Kind

/-- A preprocessor constant. One whose body is no expression has neither expression nor type. -/
structure MacroDef where
  label : Label
  /-- The body with its continuations folded. -/
  text : String
  expr : Option Expr
  ty : Option Ty
  /-- Whether the macro is a constant; decided once `hostText` is there. -/
  constant : Bool
  /-- The body in host syntax. -/
  hostText : Option String
deriving Repr

/-- The value of an enum item, read as its underlying type asks for. -/
inductive EnumValue where
  | signed (value : Int)
  | unsigned (value : Nat)
deriving DecidableEq, Repr

namespace EnumValue

def toInt : EnumValue → Int
  | signed value => value
  | unsigned value => value

def isSigned : EnumValue → Bool
  | signed _ => true
  | unsigned _ => false

end EnumValue

structure EnumItem where
  name : String
  hostName : Option String
  value : EnumValue
  doc : Doc
deriving DecidableEq, Repr

structure EnumDef where
  label : Label
  underlying : Primitive
  items : List EnumItem
  /-- A set of bit flags, as the visitor pass decides. -/
  isFlags : Bool
deriving DecidableEq, Repr

/-- A member of a struct. -/
structure Field where
  name : String
  hostName : Option String
  ty : TypeRef
  /-- The length of an inline array, for a member that was one. -/
  fixedLength : Option Nat
  attributes : List String
  /-- The deprecation message, empty when there is none but the mark. -/
  deprecation : Option String
  doc : Doc
deriving DecidableEq, Repr

/-- A member of which only name and type are known. -/
def Field.ofType (name : String) (ty : TypeRef) : Field := ⟨name, none, ty, none, [], none, .none⟩

/-- A struct or a union. -/
structure StructDef where
  label : Label
  fields : List Field
  /-- Whether more than a forward declaration has been seen. -/
  complete : Bool
  isUnion : Bool
  attributes : List String
deriving DecidableEq, Repr

/-- The struct that only its name is known of. -/
def StructDef.placeholder (label : Label) : StructDef := ⟨label, [], false, false, []⟩

inductive CallingConvention where
  | cdecl | stdCall | thisCall | fastCall
deriving DecidableEq, Repr

/-- How a parameter is passed. -/
inductive ParamModifier where
  | byValue | byIn | byOut | byRef
deriving DecidableEq, Repr

structure Param where
  name : String
  hostName : Option String
  ty : TypeRef
  modifier : ParamModifier
  attributes : List String
  doc : Doc
deriving DecidableEq, Repr

/-- A parameter of which only name and type are known. -/
def Param.ofType (name : String) (ty : TypeRef) : Param := ⟨name, none, ty, .byValue, [], .none⟩

/-- What functions and delegates share. -/
structure Signature where
  returnType : TypeRef
  params : List Param
  callingConvention : CallingConvention
  returnAttributes : List String
deriving DecidableEq, Repr

structure FunctionDef where
  label : Label
  signature : Signature
  /-- The native library that exports the function. -/
  library : String
  /-- Whether `library` is a literal name and not an expression of the host language. -/
  libraryIsConst : Bool
  deprecation : Option String
deriving DecidableEq, Repr

/-- The type of a function pointer. -/
structure DelegateDef where
  label : Label
  signature : Signature
  /-- Declared inside a struct. -/
  embedded : Bool
deriving DecidableEq, Repr

/-- An inline array type of fixed length. -/
structure FixedArray where
  label : Label
  element : TypeRef
  length : Nat
  elementIsPrimitive : Bool
deriving DecidableEq, Repr

/-- A definition. -/
inductive Definition where
  | macroDef (d : MacroDef)
  | enumDef (d : EnumDef)
  | structDef (d : StructDef)
  | functionDef (d : FunctionDef)
  | delegateDef (d : DelegateDef)
  | fixedArray (d : FixedArray)
deriving Repr

namespace Definition

def kind : Definition → Kind
  | macroDef _ => .macroDef
  | enumDef _ => .enumDef
  | structDef _ => .structDef
  | functionDef _ => .functionDef
  | delegateDef _ => .delegateDef
  | fixedArray _ => .fixedArray

def label : Definition → Label
  | macroDef d => d.label
  | enumDef d => d.label
  | structDef d => d.label
  | functionDef d => d.label
  | delegateDef d => d.label
  | fixedArray d => d.label

/-- The definition with another label. -/
def withLabel (label : Label) : Definition → Definition
  | macroDef d => macroDef { d with label }
  | enumDef d => enumDef { d with label }
  | structDef d => structDef { d with label }
  | functionDef d => functionDef { d with label }
  | delegateDef d => delegateDef { d with label }
  | fixedArray d => fixedArray { d with label }

/-- The source name. -/
def name (d : Definition) : String := d.label.name

def hostName (d : Definition) : Option String := d.label.hostName

/-- The definition under the given host name. -/
def setHostName (hostName : Option String) (d : Definition) : Definition :=
  d.withLabel { d.label with hostName }

@[simp] theorem label_withLabel (l : Label) (d : Definition) : (d.withLabel l).label = l := by
  cases d <;> rfl

@[simp] theorem kind_withLabel (l : Label) (d : Definition) : (d.withLabel l).kind = d.kind := by
  cases d <;> rfl

def asMacro? : Definition → Option MacroDef
  | macroDef d => some d
  | _ => none

def asEnum? : Definition → Option EnumDef
  | enumDef d => some d
  | _ => none

def asStruct? : Definition → Option StructDef
  | structDef d => some d
  | _ => none

def asFunction? : Definition → Option FunctionDef
  | functionDef d => some d
  | _ => none

def asDelegate? : Definition → Option DelegateDef
  | delegateDef d => some d
  | _ => none

def asFixedArray? : Definition → Option FixedArray
  | fixedArray d => some d
  | _ => none

/-- The type references that a definition holds, in order: field types, return type and parameter
types, or the element type. -/
def typeRefs : Definition → List TypeRef
  | macroDef _ | enumDef _ => []
  | structDef d => d.fields.map Field.ty
  | functionDef d => d.signature.returnType :: d.signature.params.map Param.ty
  | delegateDef d => d.signature.returnType :: d.signature.params.map Param.ty
  | fixedArray d => [d.element]

end Definition

end Bindery
