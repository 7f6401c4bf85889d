import Bindery.Decl.Basic

/-!
# Where declarations come from

A header parser gives the declarations of the files it is asked for, or fails with its messages.
-/

namespace Bindery

inductive Severity where
  | note | warning | error | fatal
deriving DecidableEq, Repr

namespace Severity

def name : Severity → String
  | note => "note"
  | warning => "warning"
  | error => "error"
  | fatal => "fatal"

def isError : Severity → Bool
  | error | fatal => true
  | note | warning => false

end Severity

/-- A message of the header parser. -/
structure Diagnostic where
  file : String
  line : Nat
  column : Nat
  severity : Severity
  message : String
deriving DecidableEq, Repr

def Diagnostic.render (d : Diagnostic) : String :=
  d.file ++ "(" ++ toString d.line ++ "," ++ toString d.column ++ "): " ++ d.severity.name ++
    ": " ++ d.message

/-- Why there are no declarations. -/
inductive DeclarationError where
  | parse (files : List String) (diagnostics : List Diagnostic)
  | fileNotFound (path : String)
deriving DecidableEq, Repr

namespace DeclarationError

def diagnostics : DeclarationError → List Diagnostic
  | parse _ diagnostics => diagnostics
  | fileNotFound _ => []

def message : DeclarationError → String
  | parse files diagnostics =>
    "failed to parse " ++ toString files.length ++ " header(s): " ++
      toString (diagnostics.countP (·.severity.isError)) ++ " error(s)"
  | fileNotFound path => "header not found: " ++ path

end DeclarationError

/-- A header parser: the headers of some files, or the reason why there are none. -/
abbrev DeclarationSource := List String → Except DeclarationError (List Header)

end Bindery
