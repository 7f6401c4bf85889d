import Bindery.Expr.Basic

/-!
# Writing expressions in host syntax

Parentheses stand only where the tree needs them: around a child that binds looser than its parent,
or as tightly on the right of a left-associative operator. Type names take their host spelling, and
an octal literal, for which the host has no form, is written in decimal.
-/

namespace Bindery

/-- A hexadecimal digit in lower case. -/
def hexDigit (n : Nat) : Char := if n < 10 then Char.ofNat (48 + n) else Char.ofNat (87 + n)

namespace IntLiteral

/-- The suffix that the type of a literal asks for. -/
def suffix : Ty → List Char
  | .u32 => ['U']
  | .i64 => ['L']
  | .u64 => ['U', 'L']
  | _ => []

def chars (l : IntLiteral) : List Char :=
  (match l.radix with
    | .decimal => l.digits.toList
    | .octal => Nat.toDigits 10 l.value
    | .hex => '0' :: 'x' :: l.digits.toList
    | .binary => '0' :: 'b' :: l.digits.toList) ++ suffix l.ty

end IntLiteral

/-- A byte as it stands between the quotes of a character literal. -/
def charEscape (byte : UInt8) : List Char :=
  match byte.toNat with
  | 0x5c => ['\\', '\\']
  | 0x27 => ['\\', '\'']
  | 0x0a => ['\\', 'n']
  | 0x0d => ['\\', 'r']
  | 0x09 => ['\\', 't']
  | 0x07 => ['\\', 'a']
  | 0x08 => ['\\', 'b']
  | 0x0b => ['\\', 'v']
  | 0x0c => ['\\', 'f']
  | n =>
    if 0x20 ≤ n ∧ n ≤ 0x7e then [Char.ofNat n]
    else ['\\', 'x', hexDigit (n / 16), hexDigit (n % 16)]

def Literal.chars : Literal → List Char
  | int l => l.chars
  | float text single => text.toList ++ (if single then ['f'] else [])
  | char byte => '\'' :: charEscape byte ++ ['\'']
  | str raw => raw.toList

/-- How `sizeof` of a literal of this type is spelled: as the type, a character being a byte. -/
def Ty.sizeofSpelling : Ty → String
  | .char => Ty.u8.spelling
  | ty => ty.spelling

namespace Expr

/-- The type of a literal. -/
def literalTy? : Expr → Option Ty
  | literal l => some l.ty
  | _ => none

/-- Whether `op` in front of `operand` would read as `--` or `++`. -/
def sameSign (op : UnaryOp) (operand : Expr) : Bool :=
  match op, operand with
  | .neg, .unary .neg _ => true
  | .plus, .unary .plus _ => true
  | _, _ => false

/-- `cs`, in parentheses when `wrap` says so. -/
def wrapped (wrap : Bool) (cs : List Char) : List Char := if wrap then '(' :: cs ++ [')'] else cs

/-- `sizeof` of what `cs` spells. -/
def sizeofChars (cs : List Char) : List Char :=
  's' :: 'i' :: 'z' :: 'e' :: 'o' :: 'f' :: '(' :: cs ++ [')']

mutual

/-- The expression in host syntax. The operand of `sizeof` gives way to its type where it is a
literal. -/
def chars : Expr → List Char
  | literal l => l.chars
  | ident name => name.toList
  | call callee args => callee.toList ++ '(' :: argsChars args ++ [')']
  | unary op operand =>
    op.spelling.toList ++
      wrapped (operand.precedence < unaryPrecedence || sameSign op operand) operand.chars
  | cast target operand =>
    '(' :: (Ty.ofName target).spelling.toList ++ ')' ::
      wrapped (operand.precedence < unaryPrecedence) operand.chars
  | sizeofType ty => sizeofChars ty.spelling.toList
  | sizeofTag tag => sizeofChars tag.toList
  | sizeofExpr operand =>
    sizeofChars <| match operand.literalTy? with
      | some ty => ty.sizeofSpelling.toList
      | none => operand.chars
  | binary op left right =>
    wrapped (left.precedence < op.precedence) left.chars ++ ' ' :: op.spelling.toList ++
      ' ' :: wrapped (right.precedence ≤ op.precedence) right.chars
  | ternary cond thenExpr elseExpr =>
    wrapped (cond.precedence ≤ ternaryPrecedence) cond.chars ++
      ' ' :: '?' :: ' ' :: thenExpr.chars ++ ' ' :: ':' :: ' ' :: elseExpr.chars

/-- The arguments of a call, separated by commas. -/
def argsChars : List Expr → List Char
  | [] => []
  | [e] => e.chars
  | e :: es => e.chars ++ ',' :: ' ' :: argsChars es

end

/-- What `put` puts before `rest`, in parentheses when `wrap` says so. -/
def wrappedOnto (wrap : Bool) (put : List Char → List Char) (rest : List Char) : List Char :=
  if wrap then '(' :: put (')' :: rest) else put rest

/-- `sizeof` of what `put` puts between the parentheses, before `rest`. -/
def sizeofOnto (put : List Char → List Char) (rest : List Char) : List Char :=
  's' :: 'i' :: 'z' :: 'e' :: 'o' :: 'f' :: '(' :: put (')' :: rest)

mutual

/-- The characters of the expression before `rest`. Each is put down once, where `chars` copies the
left operand again at every level. -/
def charsOnto : Expr → (rest : List Char) → List Char
  | literal l, rest => l.chars ++ rest
  | ident name, rest => name.toList ++ rest
  | call callee args, rest => callee.toList ++ '(' :: argsCharsOnto args (')' :: rest)
  | unary op operand, rest =>
    op.spelling.toList ++
      wrappedOnto (operand.precedence < unaryPrecedence || sameSign op operand)
        (fun rest => operand.charsOnto rest) rest
  | cast target operand, rest =>
    '(' :: (Ty.ofName target).spelling.toList ++ ')' ::
      wrappedOnto (operand.precedence < unaryPrecedence) (fun rest => operand.charsOnto rest) rest
  | sizeofType ty, rest => sizeofOnto (ty.spelling.toList ++ ·) rest
  | sizeofTag tag, rest => sizeofOnto (tag.toList ++ ·) rest
  | sizeofExpr operand, rest =>
    match operand.literalTy? with
    | some ty => sizeofOnto (ty.sizeofSpelling.toList ++ ·) rest
    | none => sizeofOnto (fun rest => operand.charsOnto rest) rest
  | binary op left right, rest =>
    wrappedOnto (left.precedence < op.precedence) (fun rest => left.charsOnto rest)
      (' ' :: op.spelling.toList ++ ' ' ::
        wrappedOnto (right.precedence ≤ op.precedence) (fun rest => right.charsOnto rest) rest)
  | ternary cond thenExpr elseExpr, rest =>
    wrappedOnto (cond.precedence ≤ ternaryPrecedence) (fun rest => cond.charsOnto rest)
      (' ' :: '?' :: ' ' :: thenExpr.charsOnto (' ' :: ':' :: ' ' :: elseExpr.charsOnto rest))

/-- The characters of the arguments of a call before `rest`. -/
def argsCharsOnto : List Expr → (rest : List Char) → List Char
  | [], rest => rest
  | [e], rest => e.charsOnto rest
  | e :: es, rest => e.charsOnto (',' :: ' ' :: argsCharsOnto es rest)

end

theorem wrappedOnto_eq {put : List Char → List Char} {cs : List Char}
    (h : ∀ rest, put rest = cs ++ rest) (wrap : Bool) (rest : List Char) :
    wrappedOnto wrap put rest = wrapped wrap cs ++ rest := by
  cases wrap <;> simp [wrappedOnto, wrapped, h]

theorem sizeofOnto_eq {put : List Char → List Char} {cs : List Char}
    (h : ∀ rest, put rest = cs ++ rest) (rest : List Char) :
    sizeofOnto put rest = sizeofChars cs ++ rest := by
  simp [sizeofOnto, sizeofChars, h]

mutual

theorem charsOnto_eq : ∀ (e : Expr) (rest : List Char), e.charsOnto rest = e.chars ++ rest
  | literal l, rest => by simp only [charsOnto, chars]
  | ident name, rest => by simp only [charsOnto, chars]
  | call callee args, rest => by simp [charsOnto, chars, argsCharsOnto_eq args]
  | unary op operand, rest => by
    simp only [charsOnto, chars, wrappedOnto_eq (charsOnto_eq operand), List.append_assoc]
  | cast target operand, rest => by
    simp only [charsOnto, chars, wrappedOnto_eq (charsOnto_eq operand), List.append_assoc,
      List.cons_append]
  | sizeofType ty, rest => by
    simp only [charsOnto, chars, sizeofOnto_eq fun _ => rfl]
  | sizeofTag tag, rest => by
    simp only [charsOnto, chars, sizeofOnto_eq fun _ => rfl]
  | sizeofExpr operand, rest => by
    simp only [charsOnto, chars]
    split
    · exact sizeofOnto_eq (fun _ => rfl) rest
    · exact sizeofOnto_eq (charsOnto_eq operand) rest
  | binary op left right, rest => by
    simp only [charsOnto, chars, wrappedOnto_eq (charsOnto_eq left),
      wrappedOnto_eq (charsOnto_eq right), List.append_assoc, List.cons_append]
  | ternary cond thenExpr elseExpr, rest => by
    simp only [charsOnto, chars, wrappedOnto_eq (charsOnto_eq cond), charsOnto_eq thenExpr,
      charsOnto_eq elseExpr, List.append_assoc, List.cons_append]

theorem argsCharsOnto_eq : ∀ (es : List Expr) (rest : List Char),
    argsCharsOnto es rest = argsChars es ++ rest
  | [], rest => by simp only [argsCharsOnto, argsChars, List.nil_append]
  | [e], rest => by simp only [argsCharsOnto, argsChars, charsOnto_eq e]
  | e :: e' :: es, rest => by
    simp only [argsCharsOnto, argsChars, charsOnto_eq e, argsCharsOnto_eq (e' :: es),
      List.append_assoc, List.cons_append]

end

/-- The expression as host text. -/
def render (e : Expr) : String := String.ofList (e.charsOnto [])

theorem render_eq_ofList_chars (e : Expr) : e.render = String.ofList e.chars := by
  simp [render, charsOnto_eq]

end Expr

end Bindery
