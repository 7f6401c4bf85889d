import Bindery.Decl.Filter
import Bindery.ExportMap
import Bindery.Lowering.Macros
import Bindery.Lowering.Resolve
import Bindery.Text.Quoted

/-!
# Lowering headers

A lowerer takes the declarations of whole headers: macros first, then enums, records, typedefs of
records and functions. Functions that no library exports are noted and left out.
-/

namespace Bindery

/-- What lowering works with. -/
structure Lowerer where
  registry : Registry
  exports : ExportMap
  filters : DeclFilters
  override : TypeOverride
  /-- The functions that were left out for lack of an export, in the order in which they came. -/
  unresolved : List String

namespace Lowerer

def new : Lowerer := ⟨.empty, .empty, .none, .none, []⟩

instance : Inhabited Lowerer := ⟨new⟩

/-- A step of a lowerer: an answer or an error, and the lowerer it leaves. -/
abbrev Step := EStateM LowerError Lowerer

/-- A step that works on the registry alone. -/
def onRegistry {α : Type} (step : LowerM α) : Step α := fun l =>
  match step l.registry with
  | .ok a registry => .ok a { l with registry }
  | .error e registry => .error e { l with registry }

/-- Lowers an enum that stands by itself. One without a name, or over a type that is no integer, is
passed over. -/
def lowerEnum (decl : EnumDecl) : Step PUnit := do
  if (declaredName? decl.name none).isSome && (integerUnderlying? decl.underlying).isSome
      && !(← get).filters.skipsEnum decl then
    let _ ← onRegistry (makeEnum none decl)

/-- Lowers a record under its tag, or under `fallback` when it has none. -/
def lowerRecord (fallback : Option String) (decl : RecordDecl) : Step PUnit := do
  let l ← get
  if !l.filters.skipsRecord decl then
    let _ ← onRegistry (makeStruct l.override fallback decl)

/-- Lowers a record that stands by itself; one without a tag is passed over. -/
def lowerTagged (decl : RecordDecl) : Step PUnit :=
  if decl.name.isSome then lowerRecord none decl else return

/-- Lowers the record behind a typedef, which may take the typedef's name. -/
def lowerTypedef (decl : TypedefDecl) : Step PUnit :=
  match decl.target.asRecord? with
  | some record => lowerRecord (some decl.name) record
  | none => return

/-- Registers a function of the library that exports it. -/
def exportFunction (o : TypeOverride) (e : Export) (decl : FunctionDecl) : LowerM PUnit := do
  let returnType ← resolveInSignature o none decl.returnType
  let params ← lowerParams o decl.name 0 decl.params
  LowerM.mention decl.name
  let _ ← LowerM.insert (.functionDef
    { label := { Label.ofName decl.name with doc := decl.doc }
      signature := ⟨returnType, params, decl.callConv.toHost, []⟩
      library := e.library
      libraryIsConst := e.libraryIsConst
      deprecation := decl.deprecation })

/-- Lowers a function. An inline function is passed over, and one without an export is noted. -/
def lowerFunction (decl : FunctionDecl) : Step PUnit := do
  let l ← get
  if !decl.isInline && !l.filters.skipsFunction decl then
    match l.exports.get? decl.name with
    | none => set { l with unresolved := l.unresolved ++ [decl.name] }
    | some e => onRegistry (exportFunction l.override e decl)

/-- Lowers the declarations of a header, be it a system header or not. -/
def lowerHeader (header : Header) : Step PUnit := do
  modify fun l =>
    { l with registry := l.registry.lowerMacros l.filters.skipsMacro header.macros }
  header.enums.forM lowerEnum
  header.records.forM lowerTagged
  header.typedefs.forM lowerTypedef
  header.functions.forM lowerFunction

/-- Lowers headers in order, system headers left out. -/
def process (headers : List Header) : Step PUnit :=
  headers.forM fun header => if header.isSystem then return else lowerHeader header

/-- The lowerer after a name has been suppressed. -/
def suppress (l : Lowerer) (name : String) : Lowerer :=
  { l with registry := l.registry.suppress name }

/-- The lowerer that knows the exports of one more library. -/
def addExports (l : Lowerer) (names : List String) (library : String) (libraryIsConst : Bool) :
    Lowerer :=
  { l with exports := l.exports.add names library libraryIsConst }

def describe (l : Lowerer) : String :=
  "Lowerer \x7b units: " ++ toString l.registry.size ++
    ", exports: " ++ toString l.exports.size ++
    ", filters: " ++ l.filters.describe ++
    ", unresolved_exports: [" ++ ", ".intercalate (l.unresolved.map Text.quoted) ++ "], .. \x7d"

end Lowerer

end Bindery
