import Bindery.Definition
import Bindery.Expr.Env
import Bindery.Interner

/-!
# The registry of definitions

Definitions by source name. Each sits in a slot whose number never changes, so a struct that is
first met as a forward declaration is filled in where it stands. Fixed arrays are also found by
element type and length, and a suppressed name is removed and never comes back.
-/

namespace Bindery

/-- The slot of a registered definition. -/
structure DefId where
  index : Nat
deriving DecidableEq, Repr

/-- The definitions of one generator run. -/
structure Registry where
  /-- Every name met so far. -/
  names : Interner
  /-- The definitions; a slot is empty when its definition has been suppressed or is checked out. -/
  slots : Array (Option Definition)
  /-- The slot of each registered name. -/
  index : List (String × DefId)
  /-- The names that are refused. -/
  suppressed : List String
  /-- The slot of each fixed array by the structure of its element and its length. -/
  arrays : List ((TypeKey × Nat) × DefId)
deriving Repr

namespace Registry

def empty : Registry := ⟨.new, #[], [], [], []⟩

instance : Inhabited Registry := ⟨empty⟩

/-- The registry after `name` has been met. -/
def mention (r : Registry) (name : String) : Registry := { r with names := r.names.add name }

/-- The reference to a primitive type, and the registry after its name has been met. -/
def primitive (r : Registry) (p : Primitive) : TypeRef × Registry :=
  (.plain p.name, r.mention p.name)

/-- The slot registered under `name`. -/
def lookup? (r : Registry) (name : String) : Option DefId := r.index.lookup name

/-- The definition in a slot. -/
def get? (r : Registry) (id : DefId) : Option Definition := (r.slots[id.index]?).bind fun d => d

/-- The definition registered under `name`. -/
def find? (r : Registry) (name : String) : Option Definition := (r.lookup? name).bind r.get?

def kindOf? (r : Registry) (name : String) : Option Kind := (r.find? name).map Definition.kind

def isSuppressed (r : Registry) (name : String) : Bool := r.suppressed.contains name

/-- Whether `name` is a primitive type and no definition hides it. -/
def isPrimitive (r : Registry) (name : String) : Bool :=
  (r.lookup? name).isNone && (Primitive.ofName? name).isSome

/-- How many names are registered. -/
def size (r : Registry) : Nat := r.index.length

/-- Registers a definition under its source name. If the name is taken the definition is dropped and
the slot of the one before is the answer; a suppressed name has none. -/
def insert (r : Registry) (d : Definition) : Option DefId × Registry :=
  if r.isSuppressed d.name then (none, r)
  else match r.lookup? d.name with
    | some id => (some id, r)
    | none =>
      let id : DefId := ⟨r.slots.size⟩
      (some id, { r with slots := r.slots.push (some d), index := (d.name, id) :: r.index })

/-- Changes the definition in a slot, if there is one. -/
def modify (r : Registry) (id : DefId) (f : Definition → Definition) : Registry :=
  { r with slots := r.slots.modify id.index (·.map f) }

/-- Removes the definition of that name, if there is one, and refuses the name from now on. -/
def suppress (r : Registry) (name : String) : Registry :=
  let r := { r.mention name with suppressed := name :: r.suppressed }
  match r.lookup? name with
  | none => r
  | some id =>
    { r with
      slots := r.slots.modify id.index fun _ => none
      index := r.index.filter (·.1 != name)
      arrays := r.arrays.filter (·.2 != id) }

/-- The fixed array of that element type and length. -/
def fixedArray? (r : Registry) (element : TypeRef) (length : Nat) : Option DefId :=
  r.arrays.lookup (element.key, length)

/-- Registers a fixed array, unless there is one of that element type and length. -/
def insertFixedArray (r : Registry) (d : FixedArray) : Option DefId × Registry :=
  match r.fixedArray? d.element d.length with
  | some id => (some id, r)
  | none =>
    match r.insert (.fixedArray d) with
    | (none, r) => (none, r)
    | (some id, r) => (some id, { r with arrays := ((d.element.key, d.length), id) :: r.arrays })

/-- The registered definitions with their slots, in slot order. -/
def entries (r : Registry) : List (DefId × Definition) :=
  (r.slots.toList.zipIdx).filterMap fun (slot, i) => slot.map fun d => (⟨i⟩, d)

/-- The occupied slots in order. -/
def ids (r : Registry) : List DefId := r.entries.map Prod.fst

/-- The registered definitions in slot order. -/
def definitions (r : Registry) : List Definition := r.entries.map Prod.snd

/-- Checks a definition out while `f` looks at the rest of the registry, and puts back what `f`
makes of it. `f` cannot change the rest; `none` when the slot is empty. -/
def updateDetached {α : Type} (r : Registry) (id : DefId)
    (f : Definition → Registry → α × Definition) : Option (α × Registry) :=
  (r.get? id).map fun d =>
    let rest := { r with slots := r.slots.modify id.index fun _ => none }
    let (a, d) := f d rest
    (a, { r with slots := r.slots.modify id.index fun _ => some d })

/-- What is known of the macros, for the expressions that refer to them. A macro without host text
has not been classified. -/
def macroEnv (r : Registry) : MacroEnv :=
  r.index.filterMap fun (name, id) =>
    ((r.get? id).bind Definition.asMacro?).map fun d =>
      (name, ⟨d.ty, d.expr, if d.hostText.isSome then some d.constant else none⟩)

end Registry

end Bindery
