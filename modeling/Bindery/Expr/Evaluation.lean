import Bindery.Expr.Constant
import Bindery.Expr.Parser
import Bindery.Expr.Printer
import Bindery.Expr.Typing

/-!
# Everything about a macro body

A body is parsed, typed, classified and written in host syntax in one go.
-/

namespace Bindery

/-- What a macro body amounts to. -/
structure Evaluation where
  expr : Expr
  ty : Option Ty
  constant : Bool
  hostText : String

namespace Evaluation

def ofText (env : MacroEnv) (text : String) : Except ParseError Evaluation :=
  (Expr.parse text).map fun e => ⟨e, e.type? env, e.isConstant env, e.render⟩

end Evaluation

namespace MacroEnv

/-- The environment with a macro of the given body, where there is one that parses. A type that is
not given is inferred from the macros before. -/
def declare (env : MacroEnv) (name : String) (body : Option String) (ty : Option Ty)
    (constant : Option Bool) : MacroEnv :=
  let e := body.bind fun text => (Expr.parse text).toOption
  env.define name ⟨ty <|> e.bind (·.type? env), e, constant⟩

end MacroEnv

end Bindery
