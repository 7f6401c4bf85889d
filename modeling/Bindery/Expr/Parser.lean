import Bindery.Expr.Lexer

/-!
# From tokens to expressions

Recursive descent with precedence climbing. A name in parentheses is a cast when an operand follows
it and a reference otherwise, so `(FOO) * 2` multiplies while `(uint32_t)1` casts.

Every reader returns the tokens it left together with a proof that it took at least one, and the
recursion ends because each call has fewer tokens, or as many and a tighter level of the grammar.
-/

namespace Bindery

/-- A value read from the head of `ts`, and the tokens after it. -/
structure Parsed (α : Type) (ts : List Token) where
  value : α
  rest : List Token
  rest_lt : rest.length < ts.length

/-- A value read on from a point before `ts`, and the tokens after it. -/
structure ParsedMore (α : Type) (ts : List Token) where
  value : α
  rest : List Token
  rest_le : rest.length ≤ ts.length

/-- The offset that an error at the head of `ts` reports; `stop` is the end of the text. -/
def offsetOf (stop : Nat) (ts : List Token) : Nat := (ts.head?.map Token.start).getD stop

/-- The tokens after `p` when `p` is the first one. -/
def eat? (p : Punct) (ts : List Token) : Option { rest : List Token // rest.length < ts.length } :=
  match ts with
  | [] => none
  | t :: rest => if t.kind = .punct p then some ⟨rest, by simp⟩ else none

/-- The tokens after `p`, which has to be the first one. -/
def expect (stop : Nat) (p : Punct) (what : Expectation) (ts : List Token) :
    Except ParseError { rest : List Token // rest.length < ts.length } :=
  match eat? p ts with
  | some rest => .ok rest
  | none => .error (.expected what (offsetOf stop ts))

/-- A name in parentheses at the head of the tokens. `sizeof` is no name. -/
def castPrefix? (ts : List Token) : Option (Parsed String ts) :=
  match ts with
  | ⟨.punct .lParen, _, _⟩ :: ⟨.ident name, _, _⟩ :: ⟨.punct .rParen, _, _⟩ :: rest =>
    if name = "sizeof" then none else some ⟨name, rest, by simp only [List.length_cons]; omega⟩
  | _ => none

/-- The type that the words of a base type name after their signedness, if that is written. -/
def typeOfWords? (signed? : Option Bool) : List String → Option Ty
  | [] => signed?.map fun _ => .i32
  | ["char"] => some (if signed? = some true then .i8 else .u8)
  | ["short"] | ["short", "int"] => some .i16
  | ["int"] => some .i32
  | ["long"] | ["long", "int"] | ["long", "long"] | ["long", "long", "int"] => some .i64
  | [name] => if signed?.isNone then Ty.ofName? name else none
  | _ => none

/-- The operand of `sizeof` that the words between its parentheses name: a tag, or a base type such
as `unsigned long long`. -/
def baseType? (words : List String) : Option Expr :=
  match words with
  | ["struct", tag] | ["union", tag] | ["enum", tag] => some (.sizeofTag tag)
  | "unsigned" :: rest => (typeOfWords? (some false) rest).map fun ty => .sizeofType ty.toUnsigned
  | "signed" :: rest => (typeOfWords? (some true) rest).map .sizeofType
  | words => (typeOfWords? none words).map .sizeofType

/-- The names at the head of the tokens, and the tokens after them. -/
def spanIdents : List Token → List String × List Token
  | ⟨.ident name, _, _⟩ :: ts => (name :: (spanIdents ts).1, (spanIdents ts).2)
  | ts => ([], ts)

theorem length_spanIdents_le (ts : List Token) : (spanIdents ts).2.length ≤ ts.length := by
  fun_induction spanIdents ts with
  | case1 _ _ _ ts ih => exact Nat.le_succ_of_le ih
  | case2 => exact Nat.le_refl _

/-- A base type in parentheses at the head of the tokens, as the operand of `sizeof`. -/
def sizeofOperand? (ts : List Token) : Option (Parsed Expr ts) :=
  match eat? .lParen ts with
  | none => none
  | some ⟨inner, h₁⟩ =>
    match eat? .rParen (spanIdents inner).2 with
    | none => none
    | some ⟨rest, h₂⟩ =>
      (baseType? (spanIdents inner).1).map fun operand =>
        ⟨operand, rest, by have := length_spanIdents_le inner; omega⟩

mutual

/-- An expression: a chain of binary operators, or a conditional over one. -/
def parseExpr (stop : Nat) (ts : List Token) : Except ParseError (Parsed Expr ts) := do
  let ⟨cond, r₁, _⟩ ← parseBinary stop 1 ts
  match eat? .question r₁ with
  | none => return ⟨cond, r₁, by omega⟩
  | some ⟨r₂, _⟩ =>
    let ⟨thenExpr, r₃, _⟩ ← parseExpr stop r₂
    let ⟨r₄, _⟩ ← expect stop .colon .colon r₃
    let ⟨elseExpr, r₅, _⟩ ← parseExpr stop r₄
    return ⟨.ternary cond thenExpr elseExpr, r₅, by omega⟩
termination_by (ts.length, 5)

/-- Operands joined by binary operators that bind at least as tightly as `level`. -/
def parseBinary (stop level : Nat) (ts : List Token) : Except ParseError (Parsed Expr ts) := do
  let ⟨left, r₁, _⟩ ← parseCast stop ts
  let ⟨e, r₂, _⟩ ← parseOperators stop level left r₁
  return ⟨e, r₂, by omega⟩
termination_by (ts.length, 4)

/-- The binary operators after the operand `left`, as long as they bind at least as tightly as
`level`. -/
def parseOperators (stop level : Nat) (left : Expr) :
    (ts : List Token) → Except ParseError (ParsedMore Expr ts)
  | [] => .ok ⟨left, [], by simp⟩
  | t :: r₁ =>
    match t.kind.binaryOp? with
    | none => .ok ⟨left, t :: r₁, by simp⟩
    | some op =>
      if op.precedence < level then .ok ⟨left, t :: r₁, by simp⟩
      else do
        let ⟨right, r₂, _⟩ ← parseBinary stop (op.precedence + 1) r₁
        let ⟨e, r₃, _⟩ ← parseOperators stop level (.binary op left right) r₂
        return ⟨e, r₃, by simp only [List.length_cons]; omega⟩
termination_by ts => (ts.length, 0)

/-- An operand with the casts in front of it. Where nothing that reads as an operand follows a name
in parentheses, the name is a reference. -/
def parseCast (stop : Nat) (ts : List Token) : Except ParseError (Parsed Expr ts) :=
  match castPrefix? ts with
  | none => parseUnary stop ts
  | some ⟨name, r₁, _⟩ =>
    match parseCast stop r₁ with
    | .ok ⟨operand, r₂, _⟩ => .ok ⟨.cast name operand, r₂, by omega⟩
    | .error _ => .ok ⟨.ident name, r₁, by omega⟩
termination_by (ts.length, 3)

/-- An operand with the prefix operators and `sizeof`s in front of it. -/
def parseUnary (stop : Nat) : (ts : List Token) → Except ParseError (Parsed Expr ts)
  | [] => parseAtom stop []
  | t :: r₁ =>
    if t.kind = .ident "sizeof" then
      match sizeofOperand? r₁ with
      | some ⟨operand, r₂, _⟩ => .ok ⟨operand, r₂, by simp only [List.length_cons]; omega⟩
      | none => do
        let ⟨operand, r₂, _⟩ ← parseUnary stop r₁
        return ⟨.sizeofExpr operand, r₂, by simp only [List.length_cons]; omega⟩
    else
      match t.kind.unaryOp? with
      | some op => do
        let ⟨operand, r₂, _⟩ ← parseCast stop r₁
        return ⟨.unary op operand, r₂, by simp only [List.length_cons]; omega⟩
      | none => parseAtom stop (t :: r₁)
termination_by ts => (ts.length, 2)

/-- A literal, a name, a call, or an expression in parentheses. -/
def parseAtom (stop : Nat) : (ts : List Token) → Except ParseError (Parsed Expr ts)
  | [] => .error (.expected .operand stop)
  | t :: r₁ =>
    match t.kind with
    | .literal l => .ok ⟨.literal l, r₁, by simp⟩
    | .ident name =>
      match eat? .lParen r₁ with
      | none => .ok ⟨.ident name, r₁, by simp⟩
      | some ⟨r₂, _⟩ =>
        match eat? .rParen r₂ with
        | some ⟨r₃, _⟩ => .ok ⟨.call name [], r₃, by simp only [List.length_cons]; omega⟩
        | none => do
          let ⟨args, r₃, _⟩ ← parseArgs stop r₂
          return ⟨.call name args, r₃, by simp only [List.length_cons]; omega⟩
    | .punct p =>
      if p = .lParen then do
        let ⟨inner, r₂, _⟩ ← parseExpr stop r₁
        let ⟨r₃, _⟩ ← expect stop .rParen .closeParen r₂
        return ⟨inner, r₃, by simp only [List.length_cons]; omega⟩
      else .error (.expected .operand t.start)
termination_by ts => (ts.length, 1)

/-- The arguments of a call, of which there is at least one, and the closing parenthesis. -/
def parseArgs (stop : Nat) (ts : List Token) : Except ParseError (Parsed (List Expr) ts) := do
  let ⟨arg, r₁, _⟩ ← parseExpr stop ts
  match eat? .comma r₁ with
  | some ⟨r₂, _⟩ =>
    let ⟨args, r₃, _⟩ ← parseArgs stop r₂
    return ⟨arg :: args, r₃, by omega⟩
  | none =>
    let ⟨r₂, _⟩ ← expect stop .rParen .closeParenOrComma r₁
    return ⟨[arg], r₂, by omega⟩
termination_by (ts.length, 6)

end

/-- The expression that all the tokens make up; `stop` is the end of the text. -/
def parseTokens (stop : Nat) (ts : List Token) : Except ParseError Expr := do
  if ts.isEmpty then throw .empty
  let ⟨e, rest, _⟩ ← parseExpr stop ts
  match rest with
  | [] => return e
  | t :: _ => throw (.trailingInput t.start)

/-- The expression that a macro body is. -/
def Expr.parse (text : String) : Except ParseError Expr := do
  parseTokens text.utf8ByteSize (← tokenize text.toList)

end Bindery
