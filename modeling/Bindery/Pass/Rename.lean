import Bindery.Identifier.Camel
import Bindery.Registry

/-!
# The naming pass

Gives every definition, enum item, field and parameter its host name, and every type reference its
display name. A policy has a hook for each kind of definition and each kind of child; what a hook
leaves without a host name keeps its source name.

The pass follows references: a definition is named, then those that it refers to, and then its own
references get their display names. Each definition is named once, so circles end.
-/

namespace Bindery

/-- A naming policy with a state `σ` of its own. -/
structure RenamePolicy (σ : Type) where
  onMacro : Registry → MacroDef → StateM σ MacroDef
  onEnum : Registry → EnumDef → StateM σ EnumDef
  onEnumItem : Registry → Label → EnumItem → StateM σ EnumItem
  onStruct : Registry → StructDef → StateM σ StructDef
  onStructField : Registry → Label → Field → StateM σ Field
  onFunction : Registry → FunctionDef → StateM σ FunctionDef
  onParam : Registry → Label → Param → StateM σ Param
  onDelegate : Registry → DelegateDef → StateM σ DelegateDef
  onFixedArray : Registry → FixedArray → StateM σ FixedArray

/-- The field under its name in camel form. -/
def Field.camelNamed (field : Field) : Field :=
  { field with hostName := some (Identifier.camel field.name) }

/-! ### Names by default -/

def EnumItem.fillHostName (item : EnumItem) : EnumItem :=
  { item with hostName := some (item.hostName.getD item.name) }

def Field.fillHostName (field : Field) : Field :=
  { field with hostName := some (field.hostName.getD field.name) }

def Param.fillHostName (param : Param) : Param :=
  { param with hostName := some (param.hostName.getD param.name) }

def Label.fillHostName (label : Label) : Label :=
  { label with hostName := some (label.hostName.getD label.name) }

def Signature.fillHostNames (s : Signature) : Signature :=
  { s with params := s.params.map Param.fillHostName }

namespace Definition

/-- The definition in which everything that a policy left without a host name has its source
name. -/
def fillHostNames (d : Definition) : Definition :=
  let d := match d with
    | enumDef d => enumDef { d with items := d.items.map EnumItem.fillHostName }
    | structDef d => structDef { d with fields := d.fields.map Field.fillHostName }
    | functionDef d => functionDef { d with signature := d.signature.fillHostNames }
    | delegateDef d => delegateDef { d with signature := d.signature.fillHostNames }
    | d => d
  d.withLabel d.label.fillHostName

/-- The definition with every type reference changed by `f`. -/
def mapTypeRefs (f : TypeRef → TypeRef) : Definition → Definition
  | structDef d => structDef { d with fields := d.fields.map fun x => { x with ty := f x.ty } }
  | functionDef d => functionDef { d with signature := onSignature d.signature }
  | delegateDef d => delegateDef { d with signature := onSignature d.signature }
  | fixedArray d => fixedArray { d with element := f d.element }
  | d => d
where
  onSignature (s : Signature) : Signature :=
    { s with
      returnType := f s.returnType
      params := s.params.map fun x => { x with ty := f x.ty } }

/-- The host name of the base of a reference that `d` holds, `rest` being the other definitions. -/
def hostOfBase (d : Definition) (rest : Registry) (ty : TypeRef) : Option String :=
  if ty.base = d.name then d.hostName else (rest.find? ty.base).bind hostName

/-- The definition with a display name for every type reference that had none. -/
def fillDisplayNames (d : Definition) (rest : Registry) : Definition :=
  d.mapTypeRefs fun ty =>
    if ty.hostName.isSome then ty
    else { ty with hostName := some (ty.display (d.hostOfBase rest ty)) }

end Definition

namespace RenamePolicy

variable {σ : Type}

/-- What the policy does with a definition; what is left without a host name keeps its own. -/
def name (p : RenamePolicy σ) (rest : Registry) (d : Definition) : StateM σ Definition := do
  let d ← match d with
    | .macroDef d => Definition.macroDef <$> p.onMacro rest d
    | .enumDef d => Definition.enumDef <$> p.onEnum rest d
    | .structDef d => Definition.structDef <$> p.onStruct rest d
    | .functionDef d => Definition.functionDef <$> p.onFunction rest d
    | .delegateDef d => Definition.delegateDef <$> p.onDelegate rest d
    | .fixedArray d => Definition.fixedArray <$> p.onFixedArray rest d
  return d.fillHostNames

/-! ### What hooks do unless a policy says otherwise -/

/-- Enum items lose the words that they share, and then `onItem` has its turn. -/
def walkEnum (onItem : Registry → Label → EnumItem → StateM σ EnumItem) (rest : Registry)
    (d : EnumDef) : StateM σ EnumDef := do
  let names := Identifier.enumItemNames (d.items.map EnumItem.name)
  let items ← (d.items.zip names).mapM fun (item, name) =>
    onItem rest d.label { item with hostName := some name }
  return { d with items }

def walkStruct (onField : Registry → Label → Field → StateM σ Field) (rest : Registry)
    (d : StructDef) : StateM σ StructDef := do
  let fields ← d.fields.mapM (onField rest d.label)
  return { d with fields }

def walkFunction (onParam : Registry → Label → Param → StateM σ Param) (rest : Registry)
    (d : FunctionDef) : StateM σ FunctionDef := do
  let params ← d.signature.params.mapM (onParam rest d.label)
  return { d with signature := { d.signature with params } }

def walkDelegate (onParam : Registry → Label → Param → StateM σ Param) (rest : Registry)
    (d : DelegateDef) : StateM σ DelegateDef := do
  let params ← d.signature.params.mapM (onParam rest d.label)
  return { d with signature := { d.signature with params } }

/-- The policy of the default names alone. -/
def standard : RenamePolicy σ where
  onMacro _ d := return d
  onEnum := walkEnum fun _ _ item => return item
  onEnumItem _ _ item := return item
  onStruct := walkStruct fun _ _ field => return field.camelNamed
  onStructField _ _ field := return field.camelNamed
  onFunction := walkFunction fun _ _ param => return param
  onParam _ _ param := return param
  onDelegate := walkDelegate fun _ _ param => return param
  onFixedArray _ d := return d

end RenamePolicy

/-! ### Following references -/

/-- What is left to do for a definition: to name it, or to fill in its display names. -/
inductive NamingTask where
  | name (id : DefId)
  | fill (id : DefId)
deriving DecidableEq, Repr

namespace Registry

variable {σ : Type}

/-- The slots of the definitions that `d` refers to. -/
def referenced (r : Registry) (d : Definition) : List DefId :=
  d.typeRefs.filterMap fun ty => r.lookup? ty.base

/-- Names the definition in a slot. The answer is the slots it refers to afterwards. -/
def nameAt (p : RenamePolicy σ) (r : Registry) (id : DefId) : StateM σ (List DefId × Registry) :=
  fun own =>
    match r.updateDetached id fun d rest =>
        let (d, own) := p.name rest d own
        ((rest.referenced d, own), d) with
    | none => (([], r), own)
    | some ((refs, own), r) => ((refs, r), own)

/-- Fills in the display names of the definition in a slot. -/
def fillAt (r : Registry) (id : DefId) : Registry :=
  match r.updateDetached id fun d rest => ((), d.fillDisplayNames rest) with
  | none => r
  | some (_, r) => r

/-- Works through the tasks in order; `pending` are the slots that have not been named. -/
def runNaming (p : RenamePolicy σ) :
    (pending : List DefId) → (tasks : List NamingTask) → Registry → StateM σ Registry
  | _, [], r => return r
  | pending, .fill id :: tasks, r => runNaming p pending tasks (r.fillAt id)
  | pending, .name id :: tasks, r =>
    if _h : id ∈ pending then do
      let (refs, r) ← nameAt p r id
      runNaming p (pending.erase id) (refs.reverse.map .name ++ .fill id :: tasks) r
    else runNaming p pending tasks r
termination_by pending tasks => (pending.length, tasks.length)
decreasing_by
  · exact Prod.Lex.right _ (by simp)
  · exact Prod.Lex.left _ _ (by
      have := List.length_pos_of_mem _h
      rw [List.length_erase_of_mem _h]
      omega)
  · exact Prod.Lex.right _ (by simp)

/-- The naming pass: names every definition, starting from each in slot order. -/
def renameAll (r : Registry) (p : RenamePolicy σ) (own : σ) : Registry × σ :=
  (runNaming p r.ids (r.ids.map .name) r).run own

end Registry

end Bindery
