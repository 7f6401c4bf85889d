import Bindery.Expr.Env

/-!
# The type of an expression

Types are found from the leaves up. Calls and unknown names have none, and neither has arithmetic on
a type that only its name is known of.
-/

namespace Bindery.Expr

/-- The type of the expression, where it can be known. A conditional has the type of its last
branch. -/
def type? (env : MacroEnv) : Expr → Option Ty
  | literal l => some l.ty
  | ident name => (env.find? name).bind MacroInfo.ty
  | call .. => none
  | unary .not operand => (operand.type? env).map fun _ => .bool
  | unary _ operand => operand.type? env
  | cast target _ => some (Ty.ofName target)
  | sizeofType _ | sizeofTag _ | sizeofExpr _ => some .i32
  | binary op left right =>
    match left.type? env, right.type? env with
    | some l, some r => if op.isComparison then some .bool else Ty.arithmetic? l r
    | _, _ => none
  | ternary _ _ elseExpr => elseExpr.type? env

end Bindery.Expr
