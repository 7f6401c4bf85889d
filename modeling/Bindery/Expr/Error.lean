/-!
# Why a macro body is not an expression

Offsets are byte offsets into the text that was parsed.
-/

namespace Bindery

/-- What the parser was looking for. -/
inductive Expectation where
  | colon | openParen | closeParen | baseType | operand | closeParenOrComma
deriving DecidableEq, Repr

def Expectation.text : Expectation → String
  | colon => "`:`"
  | openParen => "`(`"
  | closeParen => "`)`"
  | baseType => "a base type name"
  | operand => "an operand"
  | closeParenOrComma => "`)` or `,`"

/-- Why a text could not be read as an expression. -/
inductive ParseError where
  /-- There is no token at all. -/
  | empty
  | unexpectedChar (c : Char) (pos : Nat)
  | unterminated (pos : Nat)
  | invalidLiteral (text : String) (pos : Nat)
  /-- An integer literal that no supported type holds. -/
  | overflow (text : String) (pos : Nat)
  | expected (what : Expectation) (pos : Nat)
  /-- Tokens are left after a complete expression. -/
  | trailingInput (pos : Nat)
deriving DecidableEq, Repr

namespace ParseError

def message : ParseError → String
  | empty => "empty macro body"
  | unexpectedChar c pos => "unexpected character `" ++ c.toString ++ "` at offset " ++ toString pos
  | unterminated pos => "unterminated literal starting at offset " ++ toString pos
  | invalidLiteral text pos => "malformed literal `" ++ text ++ "` at offset " ++ toString pos
  | overflow text pos =>
    "integer literal `" ++ text ++ "` at offset " ++ toString pos ++
      " does not fit any supported type"
  | expected what pos => "expected " ++ what.text ++ " at offset " ++ toString pos
  | trailingInput pos => "unparsed input remains at offset " ++ toString pos

/-- The offset an error reports; an empty text has none. -/
def pos? : ParseError → Option Nat
  | empty => none
  | unexpectedChar _ pos | unterminated pos | invalidLiteral _ pos | overflow _ pos
  | expected _ pos | trailingInput pos => some pos

end ParseError

end Bindery
