import Bindery.Decl.Basic
import Bindery.Registry

/-!
# Lowering steps

Lowering turns declarations into registered definitions. A step works on the registry and answers or
fails; a step that fails leaves what it has registered so far.
-/

namespace Bindery

/-- Nameless types, by what they are. -/
inductive NamelessKind where
  | structType | unionType | enumType | functionType
deriving DecidableEq, Repr

def NamelessKind.text : NamelessKind → String
  | structType => "struct"
  | unionType => "union"
  | enumType => "enum"
  | functionType => "function type"

/-- Declarations that have no counterpart on the host side. -/
inductive LowerError where
  | unsupportedType (spelling : String)
  /-- A nameless type where there is no name to derive one from. -/
  | anonymousType (kind : NamelessKind)
  | bitFieldOverflow (record fields : String) (bits : Nat)
  | nonIntegerEnum (name underlying : String)
deriving DecidableEq, Repr

def LowerError.message : LowerError → String
  | unsupportedType spelling => "unsupported type `" ++ spelling ++ "`"
  | anonymousType kind =>
    "anonymous " ++ kind.text ++ " has no enclosing name to derive one from"
  | bitFieldOverflow record fields bits =>
    "bit-fields `" ++ fields ++ "` in `" ++ record ++ "` need " ++ toString bits ++
      " bits; storage holds at most 64"
  | nonIntegerEnum name underlying =>
    "enum `" ++ name ++ "` has a non-integer underlying type `" ++ underlying ++ "`"

/-- A lowering step: an answer or an error, and the registry it leaves. -/
abbrev LowerM := EStateM LowerError Registry

namespace LowerM

/-- Notes that a name has been met. -/
def mention (name : String) : LowerM PUnit := modify (·.mention name)

/-- The reference to a primitive type. -/
def primitive (p : Primitive) : LowerM TypeRef := modifyGet (·.primitive p)

/-- Registers a definition; the answer is its slot, or that of the one that has its name already. -/
def insert (d : Definition) : LowerM (Option DefId) := modifyGet (·.insert d)

end LowerM

/-- The name under which a tagged or nameless type is registered: its tag, or else the name it would
take from its surroundings. An empty name is none. -/
def declaredName? (tag fallback : Option String) : Option String :=
  (tag <|> fallback).filter (· != "")

end Bindery
