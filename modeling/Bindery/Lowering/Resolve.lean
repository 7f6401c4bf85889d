import Bindery.Identifier.Camel
import Bindery.Lowering.BitField
import Bindery.Lowering.Override

/-!
# Resolution of types

What a C type is on the host side. A nameless type takes the name that its surroundings suggest,
the *hint*, which passes down through typedefs, pointers and arrays. Before any rule, a hint that
names a delegate is that delegate, and then the override is asked.

| C type | reference |
|---|---|
| builtin | the primitive type |
| typedef `size_t` | `size_t` |
| other typedef | its target, with the typedef's name as the hint |
| `T[N]` | a fixed array, shared by element type and length |
| `T[]`, `T[*]` | the element and `array`; for `T *x[]` with no builtin `T`, one more pointer |
| struct, union, enum | the definition of its tag, or of the hint |
| `T*` | the pointee and a pointer; a delegate stays as it is |
| function | the delegate of the hint |

Records are registered when they are first met and filled in by the first complete definition.
-/

namespace Bindery

namespace Registry

/-- The reference to the delegate that is registered under `name`. -/
def delegate? (r : Registry) (name : String) : Option TypeRef :=
  if r.kindOf? name = some .delegateDef then some (.plain name) else none

/-- Whether the reference is to a delegate itself. -/
def isDelegate (r : Registry) (ty : TypeRef) : Bool :=
  ty.isPlain && r.kindOf? ty.base == some .delegateDef

/-- What a type becomes in a signature: a fixed array there is a pointer to its element. -/
def decay (r : Registry) (ty : TypeRef) : TypeRef :=
  if ty.isPlain then
    match (r.find? ty.base).bind Definition.asFixedArray? with
    | some d => d.element.push .pointer
    | none => ty
  else ty

/-- Marks the struct in a slot as complete and gives it what is known before its fields. The answer
is whether it was incomplete; other definitions are left alone. -/
def beginStruct (r : Registry) (id : DefId) (isUnion : Bool) (doc : Doc) : Bool × Registry :=
  match r.get? id with
  | some (.structDef d) =>
    if d.complete then (false, r)
    else
      (true, r.modify id fun _ =>
        .structDef { d with complete := true, isUnion, label := { d.label with doc } })
  | _ => (false, r)

/-- Gives the struct in a slot its fields. -/
def setFields (r : Registry) (id : DefId) (fields : List Field) : Registry :=
  r.modify id fun
    | .structDef d => .structDef { d with fields }
    | d => d

/-- The slot of the definition called `name`, which is a new incomplete struct if there was none.
A suppressed name has no slot. -/
def structSlot (r : Registry) (name : String) : Option DefId × Registry :=
  match r.lookup? name with
  | some id => (some id, r)
  | none => r.insert (.structDef (.placeholder (.ofName name)))

end Registry

/-- The integer type behind the underlying type of an enum. -/
def integerUnderlying? (ty : CType) : Option Primitive :=
  match ty.desugar with
  | .builtin b => if b.primitive.isInteger then some b.primitive else none
  | _ => none

/-- The value that 64 bits have at the width of an integer type. -/
def EnumValue.ofBits (underlying : Primitive) (bits : UInt64) : EnumValue :=
  if underlying.isSigned then .signed (Int.bmod bits.toNat underlying.valueCount)
  else .unsigned (bits.toNat % underlying.valueCount)

/-- The enum of a declaration, under the name it is registered by. -/
def EnumDef.ofDecl (name : String) (underlying : Primitive) (decl : EnumDecl) : EnumDef where
  label := { Label.ofName name with doc := decl.doc }
  underlying
  items := decl.items.map fun item =>
    ⟨item.name, none, .ofBits underlying item.value, item.doc⟩
  isFlags := false

/-- Registers an enum under its tag, or under `fallback` when it has none; a name that is taken or
suppressed is left alone. The answer is the name; a nameless enum has none. -/
def makeEnum (fallback : Option String) (decl : EnumDecl) : LowerM (Option String) :=
  match declaredName? decl.name fallback with
  | none => return none
  | some name => do
    LowerM.mention name
    let r ← get
    if (r.lookup? name).isSome || r.isSuppressed name then return some name
    else
      match integerUnderlying? decl.underlying with
      | none => throw (.nonIntegerEnum name decl.underlying.display)
      | some underlying =>
        let _ ← LowerM.insert (.enumDef (.ofDecl name underlying decl))
        return some name

/-- The name of a fixed array: `int_array4`, `byte_ptrArray4`, `byte_ptrPtrArray4`. -/
def fixedArrayName (element : TypeRef) (length : Nat) : String :=
  element.base ++ "_" ++
    (match element.modifiers with
      | [] => "array"
      | _ :: more => "ptr" ++ String.join (more.map fun _ => "Ptr") ++ "Array") ++
    toString length

/-- The reference to the fixed array of that element type and length. -/
def fixedArrayOf (length : Nat) (element : TypeRef) : LowerM TypeRef := do
  match ((← get).fixedArray? element length).bind (← get).get? with
  | some d => return .plain d.name
  | none =>
    let name := fixedArrayName element length
    LowerM.mention name
    let r ← get
    let elementIsPrimitive := element.isPlain && r.isPrimitive element.base
    set (r.insertFixedArray ⟨.ofName name, element, length, elementIsPrimitive⟩).2
    return .plain name

/-- The reference to an array of unknown length. How many elements there are is not known, so
`T *x[]` is a pointer to a pointer. -/
def openArrayOf (element : CType) (elementConst : Bool) (resolved : TypeRef) : TypeRef :=
  match element with
  | .pointer pointee _ =>
    if pointee.isBuiltinLike then resolved.push (if elementConst then .constArray else .array)
    else resolved.push .pointer
  | _ => resolved.push (if elementConst then .constArray else .array)

/-- The reference to what `resolved` is pointed to by; a delegate is a pointer already. -/
def pointerTo (pointeeConst : Bool) (resolved : TypeRef) : LowerM TypeRef := do
  if (← get).isDelegate resolved then return resolved
  else return resolved.push (if pointeeConst then .constPointer else .pointer)

/-- The name and the hint of a parameter: `p0`, `p1`, … stand for the names that are left out. -/
def paramName (owner : String) (i : Nat) (name : String) : String × String :=
  if name = "" then ("p" ++ toString i, owner ++ "_p" ++ toString i)
  else (name, owner ++ "_" ++ name)

/-- The answer of the hint or of the override, and of `rules` when neither has one. -/
def resolveFirst (o : TypeOverride) (hint : Option String) (ty : CType) (rules : LowerM TypeRef) :
    LowerM TypeRef := do
  match hint.bind (← get).delegate? with
  | some known => return known
  | none =>
    match ← modifyGet (o.resolve? ty) with
    | some ref => return ref
    | none => rules

/-- The type as a signature has it. -/
def decayed (ty : TypeRef) : LowerM TypeRef := do return (← get).decay ty

/-- The name of a nested type, which it has to have. -/
def named (kind : NamelessKind) (name : Option String) : LowerM TypeRef :=
  match name with
  | some name => return .plain name
  | none => throw (.anonymousType kind)

mutual

/-- What the type is on the host side. `inStruct` holds inside a struct, also behind the arrays and
pointers of a field. -/
def resolve (o : TypeOverride) (hint : Option String) (inStruct : Bool) (ty : CType) :
    LowerM TypeRef :=
  resolveFirst o hint ty <|
    match ty with
    | .builtin b => LowerM.primitive b.primitive
    | .typedef name target =>
      if name = "size_t" then LowerM.primitive .sizeT
      else resolve o (some name) inStruct target
    | .array element (.constant length) _ => do
      fixedArrayOf length (← resolve o hint true element)
    | .array element _ elementConst => do
      return openArrayOf element elementConst (← resolve o hint inStruct element)
    | .record decl => do
      named (if decl.isUnion then .unionType else .structType) (← makeStruct o hint decl)
    | .enum decl => do
      named .enumType (← makeEnum hint decl)
    | .pointer pointee pointeeConst => do
      pointerTo pointeeConst (← resolve o hint inStruct pointee)
    | .function ty =>
      match hint with
      | some name => makeDelegate o name inStruct ty
      | none => throw (.anonymousType .functionType)
    | .unsupported spelling => throw (.unsupportedType spelling)

/-- Registers a record under its tag, or under `fallback` when it has none, and fills it in if it
was incomplete. The answer is the name; a nameless record has none. The struct counts as complete
while its fields are resolved, so a field that comes back to the record stops there. -/
def makeStruct (o : TypeOverride) (fallback : Option String) : RecordDecl → LowerM (Option String)
  | ⟨tag, fields, isUnion, doc⟩ =>
    match declaredName? tag fallback with
    | none => return none
    | some name => do
      LowerM.mention name
      match ← modifyGet (·.structSlot name) with
      | none => return some name
      | some id =>
        match fields with
        | none => return some name
        | some decls =>
          if ← modifyGet (·.beginStruct id isUnion doc) then
            let lowered ← lowerFields o name .empty decls
            modify (·.setFields id lowered)
          return some name

/-- The fields of the struct called `record`; `run` holds the bit-fields right before. -/
def lowerFields (o : TypeOverride) (record : String) (run : BitFieldRun) :
    List FieldDecl → LowerM (List Field)
  | [] => run.flush record
  | ⟨name, _, some width, doc, _⟩ :: decls => lowerFields o record (run.push name width doc) decls
  | ⟨name, ty, none, doc, deprecation⟩ :: decls => do
    let packed ← run.flush record
    let ty ← resolve o (some (record ++ "_" ++ Identifier.camel name)) true ty
    let rest ← lowerFields o record .empty decls
    return packed ++ { Field.ofType name ty with doc, deprecation } :: rest

/-- Registers a function type as the delegate called `name`, unless the name is taken. -/
def makeDelegate (o : TypeOverride) (name : String) (embedded : Bool) :
    FunctionType → LowerM TypeRef
  | ⟨returnType, params, callConv⟩ => do
    LowerM.mention name
    if ((← get).lookup? name).isNone then
      let returnType ← decayed (← resolve o none false returnType)
      let params ← lowerParams o name 0 params
      let _ ← LowerM.insert
        (.delegateDef ⟨.ofName name, ⟨returnType, params, callConv.toHost, []⟩, embedded⟩)
    return .plain name

/-- The parameters of the function or callback called `owner`, the first of them being number
`i`. -/
def lowerParams (o : TypeOverride) (owner : String) (i : Nat) : List ParamDecl → LowerM (List Param)
  | [] => return []
  | ⟨name, ty, doc⟩ :: decls => do
    let (name, hint) := paramName owner i name
    let ty ← decayed (← resolve o (some hint) false ty)
    let rest ← lowerParams o owner (i + 1) decls
    return { Param.ofType name ty with doc } :: rest

end

/-- What the type is in a signature. -/
def resolveInSignature (o : TypeOverride) (hint : Option String) (ty : CType) : LowerM TypeRef := do
  decayed (← resolve o hint false ty)

end Bindery
