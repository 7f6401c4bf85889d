import Bindery.Lowering.Basic
import Bindery.Text.Search

/-!
# Type overrides

An override is asked before the rules of resolution and may answer for a type in their place. It may
register definitions of its own.
-/

namespace Bindery

/-- How a target changes the resolution of types. -/
inductive TypeOverride where
  /-- Leaves every type to the rules. -/
  | none
  /-- A typedef called `start…stop` of a pointer to a record becomes a struct of its own that holds
  one untyped pointer, so that handles of different types stay apart. -/
  | opaqueHandles (start stop : String)
  /-- The typedef of this name is `bool`. -/
  | boolTypedef (name : String)
  /-- The first of several overrides that answers. -/
  | chain (overrides : List TypeOverride)
deriving Repr

namespace TypeOverride

instance : Inhabited TypeOverride := ⟨none⟩

/-- Whether `name` has something between `start` and `stop`. -/
def isHandleName (start stop name : String) : Bool :=
  start.length + stop.length < name.length && Text.beginsWith name start && Text.endsWith name stop

/-- A handle struct: complete, with one member, the untyped pointer. -/
def handleStruct (name : String) (void : TypeRef) : StructDef :=
  { StructDef.placeholder (.ofName name) with
    complete := true
    fields := [Field.ofType "Pointer" (void.push .pointer)] }

/-- The answer for a typedef that is an opaque handle. -/
def resolveHandle (name : String) : StateM Registry TypeRef := do
  modify (·.mention name)
  if ((← get).lookup? name).isNone then
    let void ← modifyGet (·.primitive .void)
    modify fun r => (r.insert (.structDef (handleStruct name void))).2
  return .plain name

mutual

/-- The answer of the override, if it has one. -/
def resolve? (ty : CType) : TypeOverride → StateM Registry (Option TypeRef)
  | .none => return Option.none
  | opaqueHandles start stop =>
    match ty with
    | .typedef name (.pointer pointee _) =>
      if isHandleName start stop name && pointee.asRecord?.isSome then some <$> resolveHandle name
      else return Option.none
    | _ => return Option.none
  | boolTypedef name =>
    match ty with
    | .typedef other _ =>
      if other = name then some <$> modifyGet (·.primitive .bool) else return Option.none
    | _ => return Option.none
  | chain overrides => resolveFirst? ty overrides

/-- The first answer of several overrides. -/
def resolveFirst? (ty : CType) : List TypeOverride → StateM Registry (Option TypeRef)
  | [] => return Option.none
  | o :: os => do
    match ← resolve? ty o with
    | some ref => return some ref
    | Option.none => resolveFirst? ty os

end

end TypeOverride

end Bindery
