/-!
# Exported functions

Which native library exports a function. The first library that claims a name keeps it.
-/

namespace Bindery

/-- The library of an exported function. -/
structure Export where
  library : String
  /-- Whether `library` is a literal name and not an expression of the host language. -/
  libraryIsConst : Bool
deriving DecidableEq, Repr

/-- Exports by function name, each name once. -/
structure ExportMap where
  entries : List (String × Export)
deriving Repr

namespace ExportMap

def empty : ExportMap := ⟨[]⟩

instance : Inhabited ExportMap := ⟨empty⟩

def get? (m : ExportMap) (name : String) : Option Export := m.entries.lookup name

def contains (m : ExportMap) (name : String) : Bool := (m.get? name).isSome

def size (m : ExportMap) : Nat := m.entries.length

/-- Gives `name` to the export unless another one has it. -/
def claim (m : ExportMap) (e : Export) (name : String) : ExportMap :=
  if m.contains name then m else ⟨(name, e) :: m.entries⟩

/-- Gives every name to the library that is still free. -/
def add (m : ExportMap) (names : List String) (library : String) (libraryIsConst : Bool) :
    ExportMap :=
  names.foldl (fun m name => m.claim ⟨library, libraryIsConst⟩ name) m

end ExportMap

end Bindery
