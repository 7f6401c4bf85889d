import Bindery.Decl.Basic
import Bindery.Text.Search

/-!
# Declaration filters

Predicates that choose declarations to leave out. A declaration is left out when any filter for its
kind holds of it.
-/

namespace Bindery

/-- The filters of a generator run. -/
structure DeclFilters where
  macros : List (MacroDecl → Bool)
  enums : List (EnumDecl → Bool)
  records : List (RecordDecl → Bool)
  functions : List (FunctionDecl → Bool)

namespace DeclFilters

def none : DeclFilters := ⟨[], [], [], []⟩

instance : Inhabited DeclFilters := ⟨none⟩

def skipMacros (fs : DeclFilters) (f : MacroDecl → Bool) : DeclFilters :=
  { fs with macros := fs.macros ++ [f] }

def skipEnums (fs : DeclFilters) (f : EnumDecl → Bool) : DeclFilters :=
  { fs with enums := fs.enums ++ [f] }

/-- Applies to records by themselves and to typedefs of records. -/
def skipRecords (fs : DeclFilters) (f : RecordDecl → Bool) : DeclFilters :=
  { fs with records := fs.records ++ [f] }

def skipFunctions (fs : DeclFilters) (f : FunctionDecl → Bool) : DeclFilters :=
  { fs with functions := fs.functions ++ [f] }

def skipsMacro (fs : DeclFilters) (decl : MacroDecl) : Bool := fs.macros.any (· decl)

def skipsEnum (fs : DeclFilters) (decl : EnumDecl) : Bool := fs.enums.any (· decl)

def skipsRecord (fs : DeclFilters) (decl : RecordDecl) : Bool := fs.records.any (· decl)

def skipsFunction (fs : DeclFilters) (decl : FunctionDecl) : Bool := fs.functions.any (· decl)

def describe (fs : DeclFilters) : String :=
  "DeclFilters \x7b macros: " ++ toString fs.macros.length ++
    ", enums: " ++ toString fs.enums.length ++
    ", records: " ++ toString fs.records.length ++
    ", functions: " ++ toString fs.functions.length ++ " \x7d"

end DeclFilters

/-- Tests on the name of a declaration. -/
inductive NameTest where
  | startsWith (text : String)
  | contains (text : String)
  | equals (text : String)
  /-- The declaration has no name. -/
  | anonymous
deriving DecidableEq, Repr

namespace NameTest

def holds (test : NameTest) (name : Option String) : Bool :=
  match test, name with
  | anonymous, name => name.isNone
  | startsWith text, some name => Text.beginsWith name text
  | contains text, some name => Text.contains name text
  | equals text, some name => name == text
  | _, none => false

end NameTest

end Bindery
