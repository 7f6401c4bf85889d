import Bindery.Expr.Lexer
import Bindery.Text.Slice

/-!
# Reading tokens by offset

The lexer as it walks over the bytes of a text. It looks at one byte at a time, moves its cursor by
bytes and cuts literals and names out of the text between two offsets. Not every move ends where a
character does: the byte after a backslash is passed over whatever it begins. Each cut is checked
here, and one that is no slice of the text halts the lexer (`Halt.badSlice`).
-/

namespace Bindery

/-- Why the lexer stops before the end of the text. -/
inductive Halt where
  | error (e : ParseError)
  /-- What was to be cut out does not lie in the text, or cuts a character. -/
  | badSlice (start stop : Nat)
deriving DecidableEq, Repr

/-- A step of the lexer; its state is the cursor, a byte offset. -/
abbrev Scanner := StateT Nat (Except Halt)

namespace Scanner

variable (text : List Char)

/-! ### Loops over bytes -/

/-- Whether the text has a byte at the offset, and `p` holds of it. -/
def holds (p : Char → Bool) (pos : Nat) : Bool := (Text.byte? text pos).any p

theorem exists_byte_of_holds {text : List Char} {p : Char → Bool} {pos : Nat}
    (h : holds text p pos = true) : ∃ b, Text.byte? text pos = some b ∧ p b = true := by
  unfold holds at h
  cases hb : Text.byte? text pos with
  | none => rw [hb] at h; cases h
  | some b => exact ⟨b, rfl, by rwa [hb] at h⟩

theorem lt_length_of_holds {text : List Char} {p : Char → Bool} {pos : Nat}
    (h : holds text p pos = true) : pos < (Text.bytes text).length := by
  obtain ⟨b, hb, -⟩ := exists_byte_of_holds h
  exact Text.lt_length_of_byte? hb

/-- The first offset from `pos` on whose byte is not as `p` says. -/
def skipWhile (p : Char → Bool) (pos : Nat) : Nat :=
  if holds text p pos then skipWhile p (pos + 1) else pos
termination_by (Text.bytes text).length - pos
decreasing_by
  have := lt_length_of_holds ‹_›
  omega

/-- The same, but at most `limit` bytes on. -/
def skipUpTo (p : Char → Bool) : (limit pos : Nat) → Nat
  | 0, pos => pos
  | limit + 1, pos => if holds text p pos then skipUpTo p limit (pos + 1) else pos

/-- How many bytes the line continuation at the offset takes, none if there is no such. -/
def continuationLength (pos : Nat) : Nat :=
  if holds text (· == '\\') pos then
    if holds text (· == '\n') (pos + 1) then 2
    else if holds text (· == '\r') (pos + 1) && holds text (· == '\n') (pos + 2) then 3
    else 0
  else 0

theorem lt_length_of_continuation {text : List Char} {pos : Nat}
    (h : continuationLength text pos ≠ 0) : pos < (Text.bytes text).length :=
  lt_length_of_holds (Decidable.of_not_not fun hn => h (if_neg hn))

/-- The offset of the next token. -/
def skipTrivia (pos : Nat) : Nat :=
  if holds text isSpace pos then skipTrivia (pos + 1)
  else if continuationLength text pos = 0 then pos
  else skipTrivia (pos + continuationLength text pos)
termination_by (Text.bytes text).length - pos
decreasing_by
  · have := lt_length_of_holds ‹_›
    omega
  · have := lt_length_of_continuation ‹_›
    omega

/-- The offset after the closing quote of a string, if the string ends. -/
def stringEnd? (pos : Nat) : Option Nat :=
  match h : Text.byte? text pos with
  | none => none
  | some b =>
    if b = '\n' then none
    else if b = '\\' then stringEnd? (pos + 2)
    else if b = '"' then some (pos + 1)
    else stringEnd? (pos + 1)
termination_by (Text.bytes text).length - pos
decreasing_by
  · have := Text.lt_length_of_byte? h
    omega
  · have := Text.lt_length_of_byte? h
    omega

/-! ### Steps -/

/-- Whether the byte at the distance from the cursor is as `p` says. -/
def ahead (distance : Nat) (p : Char → Bool) : Scanner Bool := do
  return holds text p ((← get) + distance)

def advance (count : Nat) : Scanner PUnit := modify (· + count)

def fail {α : Type} (e : ParseError) : Scanner α := throw (.error e)

/-- The part of the text between two offsets. -/
def slice (start stop : Nat) : Scanner (List Char) :=
  match Text.slice? text start stop with
  | some cs => return cs
  | none => throw (.badSlice start stop)

def sliceFrom (start : Nat) : Scanner (List Char) := do slice text start (← get)

/-- Passes over the bytes that are as `p` says, and returns them. -/
def takeWhile (p : Char → Bool) : Scanner (List Char) := do
  let start ← get
  modify (skipWhile text p)
  sliceFrom text start

/-- The token at `start` is malformed. What is shown of it ends at the cursor, or at the end of the
text when the cursor stands inside a character. -/
def invalid {α : Type} (start : Nat) : Scanner α := do
  let shown ← match Text.slice? text start (← get) with
    | some cs => pure cs
    | none => slice text start (Text.bytes text).length
  fail (.invalidLiteral (String.ofList shown) start)

/-- No name may follow the literal at `start`. -/
def rejectIdentTail (start : Nat) : Scanner PUnit := do
  if ← ahead text 0 isIdentContinue then
    let _ ← takeWhile text isIdentContinue
    invalid text start

/-! ### Numbers

What reads a token gets the offset `start` where the token begins.
-/

def overflow {α : Type} (start : Nat) : Scanner α := do
  fail (.overflow (String.ofList (← sliceFrom text start)) start)

/-- The integer literal at `start`, whose digits have been passed over. -/
def integer (start : Nat) (digits : List Char) (radix : Radix) : Scanner TokenKind := do
  let suffix := Suffix.ofChars? (← takeWhile text isSuffixLetter)
  rejectIdentTail text start
  match suffix, digits with
  | none, _ | _, [] => invalid text start
  | some suffix, digits =>
    match radix.readFrom 0 digits with
    | .error .tooLarge => overflow text start
    | .error .notADigit => invalid text start
    | .ok value =>
      match suffix.type? value radix with
      | none => overflow text start
      | some ty => return .literal (.int ⟨value, radix, String.ofList digits, ty⟩)

def fraction : Scanner PUnit := do
  if ← ahead text 0 (· == '.') then
    advance 1
    let _ ← takeWhile text Char.isDigit

def sign : Scanner PUnit := do
  if ← ahead text 0 (fun b => b == '+' || b == '-') then
    advance 1

def exponent (start : Nat) : Scanner PUnit := do
  if ← ahead text 0 (fun b => b == 'e' || b == 'E') then
    advance 1
    sign text
    -- an exponent has digits
    if (← takeWhile text Char.isDigit).isEmpty then
      invalid text start

/-- Passes over the suffix of a floating literal. Whether it asks for single precision. -/
def floatSuffix : Scanner Bool := do
  let single ← ahead text 0 (fun b => b == 'f' || b == 'F')
  let double ← ahead text 0 (fun b => b == 'l' || b == 'L')
  if single || double then
    advance 1
  return single

/-- The floating literal at `start`, whose leading digits have been passed over. -/
def float (start : Nat) : Scanner TokenKind := do
  fraction text
  exponent text start
  let shown ← sliceFrom text start
  let single ← floatSuffix text
  rejectIdentTail text start
  return .literal (.float (String.ofList shown) single)

/-- Whether a number goes on at the offset as a floating one. -/
def startsFloatTail (pos : Nat) : Bool :=
  holds text (· == '.') pos ||
    holds text (fun b => b == 'e' || b == 'E') pos &&
      (if holds text (fun b => b == '+' || b == '-') (pos + 1) then
        holds text Char.isDigit (pos + 2) else holds text Char.isDigit (pos + 1))

/-- The radix that the two bytes at the offset announce. -/
def radixMark? (pos : Nat) : Option Radix :=
  if holds text (· == '0') pos then
    if holds text (fun b => b == 'x' || b == 'X') (pos + 1) then some .hex
    else if holds text (fun b => b == 'b' || b == 'B') (pos + 1) &&
      holds text Radix.binary.isDigit (pos + 2) then some .binary
    else none
  else none

/-- The integer literal at `start` without a radix mark of two characters, whose digits have been
passed over. -/
def plainInteger (start : Nat) (digits : List Char) : Scanner TokenKind := do
  if 1 < (Text.bytes digits).length && digits.head? == some '0' then
    -- the digits after the leading zero
    integer text start (← slice digits 1 (Text.bytes digits).length) .octal
  else integer text start digits .decimal

/-- The number at `start`, where the cursor is. -/
def number (start : Nat) : Scanner TokenKind := do
  match radixMark? text (← get) with
  | some radix =>
    advance 2
    integer text start (← takeWhile text radix.isDigit) radix
  | none =>
    let digits ← takeWhile text Char.isDigit
    if startsFloatTail text (← get) then float text start
    else plainInteger text start digits

/-! ### Characters and strings -/

/-- The byte that the digits from an offset to the cursor write. -/
def escapedByte (start digitsStart : Nat) (radix : Radix) : Scanner UInt8 := do
  let digits ← sliceFrom text digitsStart
  match digits, radix.readFrom 0 digits with
  | _ :: _, .ok value => if value < 256 then return UInt8.ofNat value else invalid text start
  | _, _ => invalid text start

/-- The byte that an escape stands for; the cursor is just past the backslash. -/
def escape (start : Nat) : Scanner UInt8 := do
  match Text.byte? text (← get) with
  | none => fail (.unterminated start)
  | some b =>
    advance 1
    match letterEscape? b with
    | some byte => return byte
    | none =>
      let pos ← get
      if Radix.octal.isDigit b then
        modify (skipUpTo text Radix.octal.isDigit 2)
        escapedByte text start (pos - 1) .octal
      else if b = 'x' then
        modify (skipUpTo text Radix.hex.isDigit 2)
        escapedByte text start pos .hex
      else invalid text start

/-- The byte of the character literal at `start`, whose opening quote has been passed over. -/
def charByte (start : Nat) : Scanner UInt8 := do
  match Text.byte? text (← get) with
  | none => fail (.unterminated start)
  | some b =>
    if b = '\n' then fail (.unterminated start)
    else if b = '\\' then
      advance 1
      escape text start
    else if b = '\'' then
      advance 1
      invalid text start
    else if b.toNat < 0x80 then
      advance 1
      return UInt8.ofNat b.toNat
    else
      let shown ← slice text start (Text.bytes text).length
      fail (.invalidLiteral (String.ofList (shown.take 3)) start)

def charLiteral (start : Nat) : Scanner TokenKind := do
  advance 1
  let byte ← charByte text start
  if ← ahead text 0 (· == '\'') then
    advance 1
    return .literal (.char byte)
  else fail (.unterminated start)

def stringLiteral (start : Nat) : Scanner TokenKind := do
  advance 1
  match stringEnd? text (← get) with
  | none => fail (.unterminated start)
  | some stop =>
    set stop
    return .literal (.str (String.ofList (← sliceFrom text start)))

/-! ### Tokens -/

def punct (start : Nat) : Scanner TokenKind := do
  let rest ← slice text start (Text.bytes text).length
  match Punct.scan? rest with
  | some (p, _) =>
    advance (Text.bytes p.spelling).length
    return .punct p
  | none => fail (.unexpectedChar (rest.headD '\x00') start)

/-- What begins with the byte `b` at `start`, where the cursor is. -/
def kind (start : Nat) (b : Char) : Scanner TokenKind := do
  if b.isDigit then number text start
  else if b == '.' && (← ahead text 1 Char.isDigit) then number text start
  else if b = '\'' then charLiteral text start
  else if b = '"' then stringLiteral text start
  else if isIdentStart b then return .ident (String.ofList (← takeWhile text isIdentContinue))
  else punct text start

/-- The next token, unless the text ends. -/
def nextToken : Scanner (Option Token) := do
  modify (skipTrivia text)
  let start ← get
  match Text.byte? text start with
  | none => return none
  | some b =>
    let kind ← kind text start b
    return some ⟨kind, start, ← get⟩

/-- The tokens from the cursor on, or what halts the lexer. -/
inductive Runs : Nat → Except Halt (List Token) → Prop where
  | done {pos stop : Nat} (h : nextToken text pos = .ok (none, stop)) : Runs pos (.ok [])
  | halt {pos : Nat} {e : Halt} (h : nextToken text pos = .error e) : Runs pos (.error e)
  | token {pos stop : Nat} {t : Token} {result : Except Halt (List Token)}
    (h : nextToken text pos = .ok (some t, stop)) (hs : Runs stop result) :
    Runs pos (result.map (t :: ·))

end Scanner

end Bindery
