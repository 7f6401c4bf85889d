import Bindery.Expr.Ty

/-!
# Constant expressions

The expressions that the bodies of object-like macros stand for: literals with their spelling,
references to other macros, calls, operators, casts and `sizeof`.
-/

namespace Bindery

/-- Binary operators. -/
inductive BinaryOp where
  | mul | div | mod
  | add | sub
  | shl | shr
  | lt | le | gt | ge
  | eq | ne
  | bitAnd | bitXor | bitOr
  | and | or
deriving DecidableEq, Repr

namespace BinaryOp

/-- Binding strength, from 1 to 10; higher binds tighter. Every level is left-associative. -/
def precedence : BinaryOp → Nat
  | or => 1
  | and => 2
  | bitOr => 3
  | bitXor => 4
  | bitAnd => 5
  | eq | ne => 6
  | lt | le | gt | ge => 7
  | shl | shr => 8
  | add | sub => 9
  | mul | div | mod => 10

def spelling : BinaryOp → String
  | mul => "*"
  | div => "/"
  | mod => "%"
  | add => "+"
  | sub => "-"
  | shl => "<<"
  | shr => ">>"
  | lt => "<"
  | le => "<="
  | gt => ">"
  | ge => ">="
  | eq => "=="
  | ne => "!="
  | bitAnd => "&"
  | bitXor => "^"
  | bitOr => "|"
  | and => "&&"
  | or => "||"

/-- Relational and equality operators, whose value is a `bool`. -/
def isComparison : BinaryOp → Bool
  | lt | le | gt | ge | eq | ne => true
  | _ => false

end BinaryOp

/-- Operators in front of an operand. -/
inductive UnaryOp where
  | plus | neg | not | bitNot
deriving DecidableEq, Repr

def UnaryOp.spelling : UnaryOp → String
  | plus => "+"
  | neg => "-"
  | not => "!"
  | bitNot => "~"

/-- The base an integer literal is written in. -/
inductive Radix where
  | decimal | octal | binary | hex
deriving DecidableEq, Repr

def Radix.base : Radix → Nat
  | decimal => 10
  | octal => 8
  | binary => 2
  | hex => 16

/-- An integer literal. -/
structure IntLiteral where
  value : Nat
  radix : Radix
  /-- The digits as written, without the mark of the radix and without the suffix. -/
  digits : String
  ty : Ty
deriving DecidableEq, Repr

/-- Literals. -/
inductive Literal where
  | int (literal : IntLiteral)
  /-- A floating literal; `text` leaves out the suffix. -/
  | float (text : String) (single : Bool)
  /-- A character literal, its escape resolved. -/
  | char (byte : UInt8)
  /-- A string literal with its quotes and escapes as written. -/
  | str (raw : String)
deriving DecidableEq, Repr

def Literal.ty : Literal → Ty
  | int literal => literal.ty
  | float _ true => .f32
  | float _ false => .f64
  | char _ => .char
  | str _ => .str

/-- A constant expression. -/
inductive Expr where
  | literal (literal : Literal)
  /-- A reference to another macro, or to any other name. -/
  | ident (name : String)
  | call (callee : String) (args : List Expr)
  | unary (op : UnaryOp) (operand : Expr)
  /-- A cast; `target` is the type name as written. -/
  | cast (target : String) (operand : Expr)
  /-- `sizeof` of a base type such as `unsigned int`. -/
  | sizeofType (ty : Ty)
  /-- `sizeof` of a `struct`, `union` or `enum` tag. -/
  | sizeofTag (tag : String)
  | sizeofExpr (operand : Expr)
  | binary (op : BinaryOp) (left right : Expr)
  | ternary (cond thenExpr elseExpr : Expr)
deriving Repr, Inhabited

namespace Expr

/-- Binding strength of the conditional, the loosest form. -/
def ternaryPrecedence : Nat := 0

/-- Binding strength of prefix operators, casts and `sizeof`. -/
def unaryPrecedence : Nat := 11

/-- Binding strength of literals, names and calls. -/
def atomPrecedence : Nat := 12

/-- Binding strength of the outermost form. -/
def precedence : Expr → Nat
  | literal _ | ident _ | call .. => atomPrecedence
  | unary .. | cast .. | sizeofType _ | sizeofTag _ | sizeofExpr _ => unaryPrecedence
  | binary op .. => op.precedence
  | ternary .. => ternaryPrecedence

end Expr

end Bindery
