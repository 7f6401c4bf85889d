import Bindery.Expr.Env

/-!
# Constant expressions

Whether an expression is a compile-time constant. A reference is as constant as its macro; a macro
that has not been classified is classified on the spot, in the environment without it, so that one
that needs itself is no constant.
-/

namespace Bindery

namespace Expr

/-- Whether the expression is a constant, `refs` telling which names are. -/
def isConstantWith (refs : String → Bool) : Expr → Bool
  | literal _ => true
  | ident name => refs name
  | call .. | sizeofTag _ => false
  | unary _ operand | cast _ operand => operand.isConstantWith refs
  | sizeofType _ => true
  | sizeofExpr (literal _) => true
  | sizeofExpr _ => false
  | binary _ left right => left.isConstantWith refs && right.isConstantWith refs
  | ternary cond thenExpr elseExpr =>
    cond.isConstantWith refs && thenExpr.isConstantWith refs && elseExpr.isConstantWith refs

end Expr

namespace MacroEnv

/-- Whether `name` is a constant, following at most `depth` references one inside the other. -/
def isConstantName : (depth : Nat) → (env : MacroEnv) → (name : String) → Bool
  | 0, _, _ => false
  | depth + 1, env, name =>
    match env.find? name with
    | none => false
    | some info =>
      info.ty.isSome &&
        match info.constant, info.expr with
        | some constant, _ => constant
        | none, none => false
        | none, some e => e.isConstantWith (isConstantName depth (env.without name))

end MacroEnv

/-- Whether the expression is a compile-time constant. As many references as there are macros reach
every macro. -/
def Expr.isConstant (env : MacroEnv) (e : Expr) : Bool :=
  e.isConstantWith (MacroEnv.isConstantName env.length env)

end Bindery
