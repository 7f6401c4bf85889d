import Bindery.Registry

/-!
# What emitters get

Finished definitions, split into groups, with the imports that each group needs. Writing host source
is up to the emitters.
-/

namespace Bindery

/-- How definitions are split over output files. -/
inductive Grouping where
  /-- One group for each kind. -/
  | byKind
  /-- Everything in one group. -/
  | single
deriving DecidableEq, Repr

/-- What the output for each kind imports. -/
structure KindImports where
  macros : List String
  enums : List String
  structs : List String
  functions : List String
  delegates : List String
  fixedArrays : List String
deriving DecidableEq, Repr

namespace KindImports

def forKind (imports : KindImports) : Kind → List String
  | .macroDef => imports.macros
  | .enumDef => imports.enums
  | .structDef => imports.structs
  | .functionDef => imports.functions
  | .delegateDef => imports.delegates
  | .fixedArray => imports.fixedArrays

/-- Every import once, in the order of the kinds. -/
def all (imports : KindImports) : List String := (Kind.all.flatMap imports.forKind).eraseDups

end KindImports

/-- How an emitter is to lay out its output. -/
structure EmitConfig where
  grouping : Grouping
  /-- The namespace or module that the output goes to. -/
  moduleName : String
  imports : KindImports
deriving DecidableEq, Repr

/-- Definitions that are emitted together; a single group for everything has no kind. -/
structure Group where
  kind : Option Kind
  definitions : List Definition

/-- The imports that a group needs. -/
def Group.imports (g : Group) (config : EmitConfig) : List String :=
  match g.kind with
  | some kind => config.imports.forKind kind
  | none => config.imports.all

/-- The finished definitions of a generator run. -/
structure Bindings where
  registry : Registry
  /-- The functions that were left out for lack of an export, in order. -/
  unresolved : List String

namespace Bindings

/-- The definitions in the order in which they were registered. -/
def definitions (b : Bindings) : List Definition := b.registry.definitions

/-- The definition of that source name. -/
def find? (b : Bindings) (name : String) : Option Definition := b.registry.find? name

def ofKind (b : Bindings) (kind : Kind) : List Definition := b.definitions.filter (·.kind == kind)

/-- The definitions in groups. A kind without definitions has no group. -/
def group (b : Bindings) : Grouping → List Group
  | .single => [⟨none, b.definitions⟩]
  | .byKind =>
    (Kind.all.map fun kind => ⟨some kind, b.ofKind kind⟩).filter (!·.definitions.isEmpty)

/-- A listing of what is emitted: for each group its module, kind and imports, and then the source
name and the host name of each definition. -/
def outline (b : Bindings) (config : EmitConfig) : List String :=
  (b.group config.grouping).flatMap fun g =>
    ("[" ++ config.moduleName ++ "::" ++ (g.kind.map Kind.name).getD "all" ++ "] " ++
      ",".intercalate (g.imports config)) ::
      g.definitions.map fun d => d.name ++ " = " ++ d.hostName.getD ""

end Bindings

end Bindery
