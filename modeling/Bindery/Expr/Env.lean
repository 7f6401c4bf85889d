import Bindery.Expr.Basic

/-!
# What is known about other macros

An environment lists the macros that an expression may refer to. The first entry of a name counts.
-/

namespace Bindery

/-- What is known about a macro. -/
structure MacroInfo where
  ty : Option Ty
  expr : Option Expr
  /-- Whether the macro is a constant; nothing when that has not been decided. -/
  constant : Option Bool
deriving Repr, Inhabited

/-- Macros by name. -/
abbrev MacroEnv := List (String × MacroInfo)

namespace MacroEnv

def find? (env : MacroEnv) (name : String) : Option MacroInfo := env.lookup name

/-- The environment without the macros called `name`. -/
def without (env : MacroEnv) (name : String) : MacroEnv := env.filter (·.1 != name)

/-- The environment in which `name` is known by `info`, whatever it was before. -/
def define (env : MacroEnv) (name : String) (info : MacroInfo) : MacroEnv := (name, info) :: env

end MacroEnv

end Bindery
