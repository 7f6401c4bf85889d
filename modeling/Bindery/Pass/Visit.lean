import Bindery.Identifier.Words
import Bindery.Registry

/-!
# The visitor pass

One walk over all definitions in slot order. A policy has a hook for each kind of definition and for
each kind of child (enum item, field, parameter); a hook takes what it may change and gives it back,
and sees the rest of the registry as it is. Unless a policy says otherwise, the hook of a kind walks
over the children, an enum whose name reads as flags is marked, and a field that is a fixed array of
a primitive becomes that primitive with a length.
-/

namespace Bindery

/-- What hooks may change besides the definition at hand: the names that are met, and a state of the
policy's own. -/
structure PassState (σ : Type) where
  names : Interner
  own : σ

/-- An action of a hook. -/
abbrev PassM (σ : Type) := StateM (PassState σ)

namespace PassM

variable {σ : Type}

/-- Notes that a name has been met. -/
def mention (name : String) : PassM σ PUnit :=
  modify fun s => { s with names := s.names.add name }

/-- Changes the policy's own state. -/
def modifyOwn (f : σ → σ) : PassM σ PUnit := modify fun s => { s with own := f s.own }

end PassM

/-- The hooks for children. Each sees the rest of the registry and the label of the owner. -/
structure ChildHooks (σ : Type) where
  onEnumItem : Registry → Label → EnumItem → PassM σ EnumItem
  onStructField : Registry → Label → Field → PassM σ Field
  onFunctionParam : Registry → Label → Param → PassM σ Param
  onDelegateParam : Registry → Label → Param → PassM σ Param

/-- A visitor policy. -/
structure VisitPolicy (σ : Type) extends ChildHooks σ where
  onMacro : Registry → MacroDef → PassM σ MacroDef
  onEnum : Registry → EnumDef → PassM σ EnumDef
  onStruct : Registry → StructDef → PassM σ StructDef
  onFunction : Registry → FunctionDef → PassM σ FunctionDef
  onDelegate : Registry → DelegateDef → PassM σ DelegateDef
  onFixedArray : Registry → FixedArray → PassM σ FixedArray
  /-- Comes after the hook of the kind. -/
  onDefinition : Registry → Definition → PassM σ Definition

/-- A field that is a fixed array of a primitive becomes the primitive with an inline length. -/
def Field.inlineArray (rest : Registry) (field : Field) : Field :=
  if field.ty.isPlain then
    match (rest.find? field.ty.base).bind Definition.asFixedArray? with
    | some d =>
      if d.elementIsPrimitive then { field with ty := d.element, fixedLength := some d.length }
      else field
    | none => field
  else field

/-- The enum, marked as flags if its name says so. -/
def EnumDef.markFlags (d : EnumDef) : EnumDef :=
  { d with isFlags := d.isFlags || Identifier.readsAsFlags d.label.name }

namespace ChildHooks

variable {σ : Type}

/-- Changes nothing but fields that are fixed arrays of a primitive. -/
def standard : ChildHooks σ where
  onEnumItem _ _ item := return item
  onStructField rest _ field := return field.inlineArray rest
  onFunctionParam _ _ param := return param
  onDelegateParam _ _ param := return param

def walkEnum (h : ChildHooks σ) (rest : Registry) (d : EnumDef) : PassM σ EnumDef := do
  let items ← d.items.mapM (h.onEnumItem rest d.label)
  return { d.markFlags with items }

def walkStruct (h : ChildHooks σ) (rest : Registry) (d : StructDef) : PassM σ StructDef := do
  let fields ← d.fields.mapM (h.onStructField rest d.label)
  return { d with fields }

def walkFunction (h : ChildHooks σ) (rest : Registry) (d : FunctionDef) : PassM σ FunctionDef := do
  let params ← d.signature.params.mapM (h.onFunctionParam rest d.label)
  return { d with signature := { d.signature with params } }

def walkDelegate (h : ChildHooks σ) (rest : Registry) (d : DelegateDef) : PassM σ DelegateDef := do
  let params ← d.signature.params.mapM (h.onDelegateParam rest d.label)
  return { d with signature := { d.signature with params } }

/-- Walks over the children of a definition, whatever its kind. -/
def walk (h : ChildHooks σ) (rest : Registry) : Definition → PassM σ Definition
  | .macroDef d => return .macroDef d
  | .enumDef d => do return .enumDef { d with items := ← d.items.mapM (h.onEnumItem rest d.label) }
  | .structDef d => .structDef <$> h.walkStruct rest d
  | .functionDef d => .functionDef <$> h.walkFunction rest d
  | .delegateDef d => .delegateDef <$> h.walkDelegate rest d
  | .fixedArray d => return .fixedArray d

end ChildHooks

namespace VisitPolicy

variable {σ : Type}

/-- The policy that only walks over the children. -/
def ofChildren (h : ChildHooks σ) : VisitPolicy σ where
  toChildHooks := h
  onMacro _ d := return d
  onEnum := h.walkEnum
  onStruct := h.walkStruct
  onFunction := h.walkFunction
  onDelegate := h.walkDelegate
  onFixedArray _ d := return d
  onDefinition _ d := return d

/-- The policy that changes only what every policy changes unless it says otherwise. -/
def standard : VisitPolicy σ := ofChildren .standard

/-- Runs the hooks of a policy on a definition. -/
def visit (p : VisitPolicy σ) (rest : Registry) (d : Definition) : PassM σ Definition := do
  let d ← match d with
    | .macroDef d => Definition.macroDef <$> p.onMacro rest d
    | .enumDef d => Definition.enumDef <$> p.onEnum rest d
    | .structDef d => Definition.structDef <$> p.onStruct rest d
    | .functionDef d => Definition.functionDef <$> p.onFunction rest d
    | .delegateDef d => Definition.delegateDef <$> p.onDelegate rest d
    | .fixedArray d => Definition.fixedArray <$> p.onFixedArray rest d
  p.onDefinition rest d

end VisitPolicy

namespace Registry

variable {σ : Type}

/-- Runs an action on the definition in a slot while it is checked out. An empty slot stays. -/
def runDetached (r : Registry) (own : σ) (id : DefId)
    (action : Registry → Definition → PassM σ Definition) : Registry × σ :=
  match r.updateDetached id fun d rest =>
      let (d, s) := (action rest d).run ⟨rest.names, own⟩
      (s, d) with
  | none => (r, own)
  | some (s, r) => ({ r with names := s.names }, s.own)

/-- The visitor pass: runs a policy over every definition in slot order. -/
def visitAll (r : Registry) (p : VisitPolicy σ) (own : σ) : Registry × σ :=
  r.ids.foldl (fun (r, own) id => r.runDetached own id p.visit) (r, own)

/-- Runs the hooks for children alone on the definition in a slot. -/
def visitChildren (r : Registry) (p : VisitPolicy σ) (own : σ) (id : DefId) : Registry × σ :=
  r.runDetached own id p.walk

end Registry

end Bindery
