import Bindery.Pass.Rename
import Bindery.Policy.Visitor

/-!
# Stock naming policies

Stripping the text that all functions of a library begin with, and a recorder of every hook that may
also put a text in front of names.
-/

namespace Bindery

/-- The hooks of a naming policy. -/
inductive RenameHook where
  | macroDef | enumDef | item | structDef | field | functionDef | param | delegateDef | fixedArray
deriving DecidableEq, Repr

namespace RenameHook

def all : List RenameHook :=
  [macroDef, enumDef, item, structDef, field, functionDef, param, delegateDef, fixedArray]

def name : RenameHook → String
  | macroDef => "macro"
  | enumDef => "enum"
  | item => "item"
  | structDef => "struct"
  | field => "field"
  | functionDef => "function"
  | param => "param"
  | delegateDef => "delegate"
  | fixedArray => "fixed-array"

end RenameHook

/-- What a recording policy does besides noting the hooks that run. -/
structure Recorder where
  /-- What stands in front of the names that the policy gives. -/
  start : String
  /-- The hooks that give their definition or child a name. -/
  naming : List RenameHook
  /-- The hooks that do nothing but leave their line. -/
  idle : List RenameHook
deriving DecidableEq, Repr

namespace Recorder

/-- Runs the hook `h` on `x`, called `child` in `owner`: notes it, does what is standard unless the
hook is idle, and then names `x` if the hook is one that names. -/
def run {α : Type} (rec : Recorder) (h : RenameHook) (owner : String) (child : Option String)
    (standard : α → StateM Trace α) (setName : String → α → α) (x : α) : StateM Trace α := do
  modify fun trace =>
    trace.push (h.name ++ " " ++ owner ++ (child.map fun c => "." ++ c).getD "")
  if rec.idle.contains h then return x
  let x ← standard x
  if rec.naming.contains h then return setName (rec.start ++ child.getD owner) x
  return x

end Recorder

/-- The label under the given host name. -/
def Label.named (label : Label) (hostName : String) : Label :=
  { label with hostName := some hostName }

namespace RenamePolicy

variable {σ : Type}

/-- Function names lose the text `start` that they begin with, unless nothing would be left. -/
def stripStart (start : String) : RenamePolicy σ :=
  { standard with
    onFunction := fun rest d => do
      let d ← walkFunction (fun _ _ param => return param) rest d
      let stripped := ((Text.after? d.label.name start).filter (· != "")).getD d.label.name
      return { d with label := d.label.named stripped } }

/-- The policy of a recorder. -/
def recording (rec : Recorder) : RenamePolicy Trace :=
  let onItem (_ : Registry) (owner : Label) (item : EnumItem) : StateM Trace EnumItem :=
    rec.run .item owner.name (some item.name) pure
      (fun n x => { x with hostName := some n }) item
  let onField (_ : Registry) (owner : Label) (field : Field) : StateM Trace Field :=
    rec.run .field owner.name (some field.name) (fun x => return x.camelNamed)
      (fun n x => { x with hostName := some n }) field
  let onParam (_ : Registry) (owner : Label) (param : Param) : StateM Trace Param :=
    rec.run .param owner.name (some param.name) pure
      (fun n x => { x with hostName := some n }) param
  { onMacro := fun _ d =>
      rec.run .macroDef d.label.name none pure (fun n x => { x with label := x.label.named n }) d
    onEnum := fun rest d =>
      rec.run .enumDef d.label.name none (walkEnum onItem rest)
        (fun n x => { x with label := x.label.named n }) d
    onEnumItem := onItem
    onStruct := fun rest d =>
      rec.run .structDef d.label.name none (walkStruct onField rest)
        (fun n x => { x with label := x.label.named n }) d
    onStructField := onField
    onFunction := fun rest d =>
      rec.run .functionDef d.label.name none (walkFunction onParam rest)
        (fun n x => { x with label := x.label.named n }) d
    onParam
    onDelegate := fun rest d =>
      rec.run .delegateDef d.label.name none (walkDelegate onParam rest)
        (fun n x => { x with label := x.label.named n }) d
    onFixedArray := fun _ d =>
      rec.run .fixedArray d.label.name none pure
        (fun n x => { x with label := x.label.named n }) d }

end RenamePolicy

/-- The stock naming policies as data. -/
inductive Renamer where
  | standard
  | stripStart (start : String)
  | recording (recorder : Recorder)
deriving Repr

namespace Renamer

instance : Inhabited Renamer := ⟨standard⟩

/-- The policy that the data describe. -/
def policy : Renamer → RenamePolicy Trace
  | standard => .standard
  | stripStart start => .stripStart start
  | recording recorder => .recording recorder

end Renamer

end Bindery
