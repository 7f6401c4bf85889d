import Bindery.Pass.Visit
import Bindery.Text.Search

/-!
# Stock visitor policies

Building blocks that targets configure: out parameters, error messages, marshaled booleans, text,
struct attributes, boolean fields, a recorder of every hook, and chains of policies.
-/

namespace Bindery

/-- The lines that recording policies leave, in order. -/
abbrev Trace := Array String

namespace PassM

variable {σ : Type}

/-- Whether the base of a reference is the given primitive; asking mentions the primitive. -/
def hasBase (ty : TypeRef) (p : Primitive) : PassM σ Bool := do
  mention p.name
  return ty.base == p.name

/-- Whether the type is `char` behind exactly these modifiers. -/
def isCharBehind (ty : TypeRef) (modifiers : List Modifier) : PassM σ Bool := do
  return (← hasBase ty .byte) && ty.modifiers == modifiers

end PassM

namespace Param

variable {σ : Type}

/-! ### Out parameters -/

/-- Whether the name is `Out` followed by an uppercase letter. -/
def isOutName (name : String) : Bool :=
  (Text.after? name "Out").any fun rest => rest.toList.head?.any Char.isUpper

/-- The parameter passed out instead of by pointer, if it is named as one and the owner begins with
one of the given texts. -/
def markOut (starts : List String) (owner : Label) (param : Param) : Param :=
  if starts.any (Text.beginsWith owner.name) && isOutName param.name && !param.ty.isPlain then
    { param with ty := param.ty.pop, modifier := .byOut }
  else param

/-! ### Error messages -/

/-- Whether the name reads as that of an error message. -/
def isErrorMessageName (name : String) : Bool :=
  Text.beginsWith name "OutMessage" || Text.beginsWith name "ErrorMessage" ||
    Text.contains name "ErrMsg" || Text.endsWith name "OutError"

/-- A `char**` parameter for an error message passes the text handle `handle` out. -/
def markErrorMessage (handle : String) (param : Param) : PassM σ Param := do
  if param.modifier != .byValue || !isErrorMessageName param.name then return param
  if ← PassM.isCharBehind param.ty [.pointer, .pointer] then
    PassM.mention handle
    return { param with ty := .plain handle, modifier := .byOut }
  return param

/-! ### Booleans -/

/-- A `bool` parameter carries the attribute. -/
def markBool (attr : String) (param : Param) : PassM σ Param := do
  if !param.ty.isPlain then return param
  if ← PassM.hasBase param.ty .bool then return { param with attributes := [attr] }
  return param

/-! ### Text -/

/-- Whether the name reads as that of a text: it has the word `Name` or `Str`, or it is one of three
names. -/
def isTextName (name : String) : Bool :=
  ["ModuleID", "Path", "Ident"].contains name ||
    ["Name", "Str"].any fun word =>
      (Text.afterEach word.toList name.toList).any fun rest => rest.head?.all Char.isUpper

/-- A `const char*` parameter for a text takes the string type and carries the attribute. -/
def markText (stringType attr : String) (param : Param) : PassM σ Param := do
  if param.modifier != .byValue || !isTextName param.name then return param
  if ← PassM.isCharBehind param.ty [.constPointer] then
    PassM.mention stringType
    return { param with ty := .plain stringType, attributes := [attr] }
  return param

end Param

namespace Signature

variable {σ : Type}

/-- A `bool` return carries the attribute. -/
def markBoolReturn (attr : String) (s : Signature) : PassM σ Signature := do
  if !s.returnType.isPlain then return s
  if ← PassM.hasBase s.returnType .bool then return { s with returnAttributes := [attr] }
  return s

/-- A `const char*` return takes the string type and carries the attribute. -/
def markTextReturn (stringType attr : String) (s : Signature) : PassM σ Signature := do
  if ← PassM.isCharBehind s.returnType [.constPointer] then
    PassM.mention stringType
    return { s with returnType := .plain stringType, returnAttributes := [attr] }
  return s

end Signature

/-- A `bool` field, however indirect, takes the boolean type of the target. -/
def Field.retypeBool {σ : Type} (typeName : String) (field : Field) : PassM σ Field := do
  if ← PassM.hasBase field.ty .bool then
    PassM.mention typeName
    return { field with ty := { field.ty with base := typeName } }
  return field

/-- A struct called `start…stop` carries the attribute, once. -/
def StructDef.markAttribute (start stop attr : String) (d : StructDef) : StructDef :=
  if Text.beginsWith d.label.name start && Text.endsWith d.label.name stop &&
      !d.attributes.contains attr then
    { d with attributes := d.attributes ++ [attr] }
  else d

namespace VisitPolicy

variable {σ : Type}

/-- The policy that changes parameters as `mark` says, in functions and delegates alike. -/
def ofParams (mark : Label → Param → PassM σ Param) : VisitPolicy σ :=
  ofChildren { ChildHooks.standard with
    onFunctionParam := fun _ => mark
    onDelegateParam := fun _ => mark }

/-- The policy that changes parameters, and then the signature, in functions and delegates alike. -/
def ofSignatures (mark : Param → PassM σ Param) (finish : Signature → PassM σ Signature) :
    VisitPolicy σ :=
  let p := ofParams fun _ => mark
  { p with
    onFunction := fun rest d => do
      let d ← p.onFunction rest d
      return { d with signature := ← finish d.signature }
    onDelegate := fun rest d => do
      let d ← p.onDelegate rest d
      return { d with signature := ← finish d.signature } }

def outParams (starts : List String) : VisitPolicy σ :=
  ofParams fun owner param => return param.markOut starts owner

def errorMessages (handle : String) : VisitPolicy σ :=
  ofParams fun _ => Param.markErrorMessage handle

def boolMarshal (attr : String) : VisitPolicy σ :=
  ofSignatures (Param.markBool attr) (Signature.markBoolReturn attr)

def textParams (stringType attr : String) : VisitPolicy σ :=
  ofSignatures (Param.markText stringType attr) (Signature.markTextReturn stringType attr)

def structAttribute (start stop attr : String) : VisitPolicy σ :=
  { standard with
    onStruct := fun rest d => do
      let d ← ChildHooks.standard.walkStruct rest d
      return d.markAttribute start stop attr }

def boolFields (typeName : String) : VisitPolicy σ :=
  ofChildren { ChildHooks.standard with
    onStructField := fun rest _ field => (field.inlineArray rest).retypeBool typeName }

/-- The policies one after the other, hook by hook: each finds what the one before has left. -/
def chain (ps : List (VisitPolicy σ)) : VisitPolicy σ where
  onEnumItem rest owner item := ps.foldlM (fun x p => p.onEnumItem rest owner x) item
  onStructField rest owner field := ps.foldlM (fun x p => p.onStructField rest owner x) field
  onFunctionParam rest owner param := ps.foldlM (fun x p => p.onFunctionParam rest owner x) param
  onDelegateParam rest owner param := ps.foldlM (fun x p => p.onDelegateParam rest owner x) param
  onMacro rest d := ps.foldlM (fun x p => p.onMacro rest x) d
  onEnum rest d := ps.foldlM (fun x p => p.onEnum rest x) d
  onStruct rest d := ps.foldlM (fun x p => p.onStruct rest x) d
  onFunction rest d := ps.foldlM (fun x p => p.onFunction rest x) d
  onDelegate rest d := ps.foldlM (fun x p => p.onDelegate rest x) d
  onFixedArray rest d := ps.foldlM (fun x p => p.onFixedArray rest x) d
  onDefinition rest d := ps.foldlM (fun x p => p.onDefinition rest x) d

/-- Adds a line to the trace: the word for a hook, the owner and the child. -/
def note (word owner : String) (child : Option String) : PassM Trace PUnit :=
  PassM.modifyOwn fun trace =>
    trace.push (word ++ " " ++ owner ++ (child.map fun c => "." ++ c).getD "")

/-- The standard policy, which also notes every hook that runs. -/
def recording : VisitPolicy Trace :=
  let h : ChildHooks Trace :=
    { onEnumItem := fun rest owner item => do
        note "item" owner.name (some item.name)
        ChildHooks.standard.onEnumItem rest owner item
      onStructField := fun rest owner field => do
        note "field" owner.name (some field.name)
        ChildHooks.standard.onStructField rest owner field
      onFunctionParam := fun rest owner param => do
        note "function-param" owner.name (some param.name)
        ChildHooks.standard.onFunctionParam rest owner param
      onDelegateParam := fun rest owner param => do
        note "delegate-param" owner.name (some param.name)
        ChildHooks.standard.onDelegateParam rest owner param }
  { toChildHooks := h
    onMacro := fun _ d => do note "macro" d.label.name none; return d
    onEnum := fun rest d => do note "enum" d.label.name none; h.walkEnum rest d
    onStruct := fun rest d => do note "struct" d.label.name none; h.walkStruct rest d
    onFunction := fun rest d => do note "function" d.label.name none; h.walkFunction rest d
    onDelegate := fun rest d => do note "delegate" d.label.name none; h.walkDelegate rest d
    onFixedArray := fun _ d => do note "fixed-array" d.label.name none; return d
    onDefinition := fun _ d => do note "unit" d.name none; return d }

end VisitPolicy

/-- The stock visitor policies as data. -/
inductive Visitor where
  | standard
  | outParams (starts : List String)
  | errorMessages (handle : String)
  | boolMarshal (attr : String)
  | textParams (stringType attr : String)
  | structAttribute (start stop attr : String)
  | boolFields (typeName : String)
  | chain (visitors : List Visitor)
  | recording
deriving Repr

namespace Visitor

instance : Inhabited Visitor := ⟨standard⟩

mutual

/-- The policy that the data describe. -/
def policy : Visitor → VisitPolicy Trace
  | standard => .standard
  | outParams starts => .outParams starts
  | errorMessages handle => .errorMessages handle
  | boolMarshal attr => .boolMarshal attr
  | textParams stringType attr => .textParams stringType attr
  | structAttribute start stop attr => .structAttribute start stop attr
  | boolFields typeName => .boolFields typeName
  | chain visitors => .chain (policies visitors)
  | recording => .recording

/-- The policies of several visitors. -/
def policies : List Visitor → List (VisitPolicy Trace)
  | [] => []
  | v :: vs => policy v :: policies vs

end

end Visitor

end Bindery
