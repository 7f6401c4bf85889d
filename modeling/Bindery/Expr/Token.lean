import Bindery.Expr.Basic

/-!
# Tokens

The words of a macro body: names, literals and punctuation, each with the bytes it covers.
-/

namespace Bindery

/-- Operators and brackets. -/
inductive Punct where
  | plus | minus | star | slash | percent
  | shl | shr
  | lt | ltEq | gt | gtEq | eqEq | notEq
  | amp | ampAmp | pipe | pipePipe | caret
  | tilde | bang
  | question | colon
  | lParen | rParen | comma
deriving DecidableEq, Repr

namespace Punct

/-- The longest operator or bracket at the head of the text, and what follows it. -/
def scan? : List Char → Option (Punct × List Char)
  | '<' :: '<' :: cs => some (shl, cs)
  | '>' :: '>' :: cs => some (shr, cs)
  | '<' :: '=' :: cs => some (ltEq, cs)
  | '>' :: '=' :: cs => some (gtEq, cs)
  | '=' :: '=' :: cs => some (eqEq, cs)
  | '!' :: '=' :: cs => some (notEq, cs)
  | '&' :: '&' :: cs => some (ampAmp, cs)
  | '|' :: '|' :: cs => some (pipePipe, cs)
  | '+' :: cs => some (plus, cs)
  | '-' :: cs => some (minus, cs)
  | '*' :: cs => some (star, cs)
  | '/' :: cs => some (slash, cs)
  | '%' :: cs => some (percent, cs)
  | '<' :: cs => some (lt, cs)
  | '>' :: cs => some (gt, cs)
  | '&' :: cs => some (amp, cs)
  | '|' :: cs => some (pipe, cs)
  | '^' :: cs => some (caret, cs)
  | '~' :: cs => some (tilde, cs)
  | '!' :: cs => some (bang, cs)
  | '?' :: cs => some (question, cs)
  | ':' :: cs => some (colon, cs)
  | '(' :: cs => some (lParen, cs)
  | ')' :: cs => some (rParen, cs)
  | ',' :: cs => some (comma, cs)
  | _ => none

def spelling : Punct → List Char
  | plus => ['+']
  | minus => ['-']
  | star => ['*']
  | slash => ['/']
  | percent => ['%']
  | shl => ['<', '<']
  | shr => ['>', '>']
  | lt => ['<']
  | ltEq => ['<', '=']
  | gt => ['>']
  | gtEq => ['>', '=']
  | eqEq => ['=', '=']
  | notEq => ['!', '=']
  | amp => ['&']
  | ampAmp => ['&', '&']
  | pipe => ['|']
  | pipePipe => ['|', '|']
  | caret => ['^']
  | tilde => ['~']
  | bang => ['!']
  | question => ['?']
  | colon => [':']
  | lParen => ['(']
  | rParen => [')']
  | comma => [',']

theorem spelling_ne_nil (p : Punct) : p.spelling ≠ [] := by cases p <;> simp [spelling]

/-- The operator is the head of the text. -/
theorem spelling_append_of_scan? {cs rest : List Char} {p : Punct} (h : scan? cs = some (p, rest)) :
    p.spelling ++ rest = cs := by
  unfold scan? at h
  split at h <;> simp at h <;> obtain ⟨rfl, rfl⟩ := h <;> rfl

/-- The operator that a token is between two operands. -/
def binaryOp? : Punct → Option BinaryOp
  | star => some .mul
  | slash => some .div
  | percent => some .mod
  | plus => some .add
  | minus => some .sub
  | shl => some .shl
  | shr => some .shr
  | lt => some .lt
  | ltEq => some .le
  | gt => some .gt
  | gtEq => some .ge
  | eqEq => some .eq
  | notEq => some .ne
  | amp => some .bitAnd
  | caret => some .bitXor
  | pipe => some .bitOr
  | ampAmp => some .and
  | pipePipe => some .or
  | _ => none

/-- The operator that a token is in front of an operand. -/
def unaryOp? : Punct → Option UnaryOp
  | plus => some .plus
  | minus => some .neg
  | bang => some .not
  | tilde => some .bitNot
  | _ => none

end Punct

/-- What a token is, apart from where it stands. -/
inductive TokenKind where
  | ident (name : String)
  | literal (literal : Literal)
  | punct (punct : Punct)
deriving DecidableEq, Repr

namespace TokenKind

/-- The operator that a token is between two operands. -/
def binaryOp? : TokenKind → Option BinaryOp
  | punct p => p.binaryOp?
  | _ => none

/-- The operator that a token is in front of an operand. -/
def unaryOp? : TokenKind → Option UnaryOp
  | punct p => p.unaryOp?
  | _ => none

end TokenKind

/-- A token and the byte offsets where it starts and stops. -/
structure Token where
  kind : TokenKind
  start : Nat
  stop : Nat
deriving DecidableEq, Repr

end Bindery
