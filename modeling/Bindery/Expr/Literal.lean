import Bindery.Expr.Error
import Bindery.Expr.Token

/-!
# Reading literals

The literals at the head of a text: integers in four radices with their suffixes, floating numbers,
characters with their escapes, and strings. A successful reading is a `Lexeme`: it splits the text
into the literal's spelling and the rest.
-/

namespace Bindery

/-- A token at the head of a text: what it is, its spelling and the text after it. -/
structure Lexeme where
  kind : TokenKind
  spelling : List Char
  rest : List Char
deriving DecidableEq, Repr

/-- Why no token could be read at the head of a text. -/
inductive LexFault where
  | unexpected (c : Char)
  | unterminated
  | malformed (text : List Char)
  | overflow (text : List Char)
deriving DecidableEq, Repr

/-- The fault as an error about the token that starts at byte `pos`. -/
def LexFault.toError (pos : Nat) : LexFault → ParseError
  | unexpected c => .unexpectedChar c pos
  | unterminated => .unterminated pos
  | malformed text => .invalidLiteral (String.ofList text) pos
  | overflow text => .overflow (String.ofList text) pos

/-- The characters that begin a name: ASCII letters and the underscore. -/
def isIdentStart (c : Char) : Bool := c == '_' || c.isAlpha

/-- The characters that continue a name. -/
def isIdentContinue (c : Char) : Bool := c == '_' || c.isAlphanum

/-- The digits of each radix. -/
def Radix.isDigit : Radix → Char → Bool
  | decimal, c => c.isDigit
  | octal, c => '0' ≤ c && c ≤ '7'
  | binary, c => c == '0' || c == '1'
  | hex, c => c.isDigit || ('a' ≤ c && c ≤ 'f') || ('A' ≤ c && c ≤ 'F')

/-- The value of a digit of any radix. -/
def digitValue (c : Char) : Nat :=
  if c.isDigit then c.toNat - 48
  else if 'a' ≤ c then c.toNat - 87
  else c.toNat - 55

/-- The greatest value of a signed integer of 32 bits. -/
def maxI32 : Nat := 0x7fffffff

/-- The greatest value of an unsigned integer of 32 bits. -/
def maxU32 : Nat := 0xffffffff

/-- The greatest value of a signed integer of 64 bits. -/
def maxI64 : Nat := 0x7fffffffffffffff

/-- The greatest value of an unsigned integer of 64 bits. -/
def maxU64 : Nat := 0xffffffffffffffff

/-- What keeps a digit string from being a number of 64 bits. -/
inductive DigitFault where
  | notADigit | tooLarge
deriving DecidableEq, Repr

/-- The number of at most 64 bits that `digits` write in `radix`, after digits worth `acc`. The
first fault from the left is the one reported. -/
def Radix.readFrom (radix : Radix) (acc : Nat) : List Char → Except DigitFault Nat
  | [] => .ok acc
  | c :: cs =>
    if radix.isDigit c then
      let next := acc * radix.base + digitValue c
      if next ≤ maxU64 then radix.readFrom next cs else .error .tooLarge
    else .error .notADigit

/-! ### Integers -/

/-- Integer suffixes, case and order of the letters aside; `ll` counts as `l`. -/
inductive Suffix where
  | plain | u | l | ul
deriving DecidableEq, Repr

def isSuffixLetter (c : Char) : Bool := c == 'u' || c == 'U' || c == 'l' || c == 'L'

namespace Suffix

def ofChars? (cs : List Char) : Option Suffix :=
  match cs.map Char.toLower with
  | [] => some plain
  | ['u'] => some u
  | ['l'] | ['l', 'l'] => some l
  | ['u', 'l'] | ['l', 'u'] | ['u', 'l', 'l'] | ['l', 'l', 'u'] => some ul
  | _ => none

/-- The type of a literal of the given value: the first type from the suffix on that holds it. Only
a literal that is not decimal may become unsigned without saying so. -/
def type? (suffix : Suffix) (value : Nat) (radix : Radix) : Option Ty :=
  match suffix with
  | plain | l =>
    if suffix = plain ∧ value ≤ maxI32 then some .i32
    else if value ≤ maxI64 then some .i64
    else if radix ≠ .decimal then some .u64
    else none
  | u => if value ≤ maxU32 then some .u32 else some .u64
  | ul => some .u64

end Suffix

/-- The integer literal of the digits `digits`, which follow the radix mark `mark`; `cs` is the text
after the digits, where the suffix stands. -/
def scanInteger (radix : Radix) (mark digits cs : List Char) : Except LexFault Lexeme :=
  let spelling := mark ++ digits ++ cs.takeWhile isSuffixLetter
  let rest := cs.dropWhile isSuffixLetter
  let glued := rest.takeWhile isIdentContinue
  if glued ≠ [] then .error (.malformed (spelling ++ glued))
  else match Suffix.ofChars? (cs.takeWhile isSuffixLetter) with
    | none => .error (.malformed spelling)
    | some suffix =>
      if digits = [] then .error (.malformed spelling)
      else match radix.readFrom 0 digits with
        | .error .notADigit => .error (.malformed spelling)
        | .error .tooLarge => .error (.overflow spelling)
        | .ok value => match suffix.type? value radix with
          | none => .error (.overflow spelling)
          | some ty =>
            .ok ⟨.literal (.int ⟨value, radix, String.ofList digits, ty⟩), spelling, rest⟩

/-! ### Floating numbers -/

/-- Whether the text goes on a number as a floating one: with a point, or with an exponent that has
a digit. -/
def startsFloatTail : List Char → Bool
  | '.' :: _ => true
  | e :: s :: cs =>
    (e == 'e' || e == 'E') &&
      (s.isDigit || ((s == '+' || s == '-') && (cs.head?.any Char.isDigit)))
  | _ => false

/-- The point and the digits after it, and the text after them. -/
def spanFraction : List Char → List Char × List Char
  | '.' :: cs => ('.' :: cs.takeWhile Char.isDigit, cs.dropWhile Char.isDigit)
  | cs => ([], cs)

/-- The sign at the head of the text, and the text after it. -/
def spanSign : List Char → List Char × List Char
  | '+' :: cs => (['+'], cs)
  | '-' :: cs => (['-'], cs)
  | cs => ([], cs)

/-- The exponent at the head of the text, whether it has digits, and the text after it. -/
def spanExponent : List Char → List Char × Bool × List Char
  | [] => ([], true, [])
  | e :: cs =>
    if e = 'e' ∨ e = 'E' then
      let (sign, rest) := spanSign cs
      let digits := rest.takeWhile Char.isDigit
      (e :: sign ++ digits, digits != [], rest.dropWhile Char.isDigit)
    else ([], true, e :: cs)

/-- The suffix of a floating literal, whether it asks for single precision, and the text after. -/
def spanFloatSuffix : List Char → List Char × Bool × List Char
  | 'f' :: cs => (['f'], true, cs)
  | 'F' :: cs => (['F'], true, cs)
  | 'l' :: cs => (['l'], false, cs)
  | 'L' :: cs => (['L'], false, cs)
  | cs => ([], false, cs)

/-- The floating literal that begins with `digits` and goes on in `cs`. -/
def scanFloat (digits cs : List Char) : Except LexFault Lexeme :=
  let (fraction, cs₁) := spanFraction cs
  let (exponent, valid, cs₂) := spanExponent cs₁
  let text := digits ++ fraction ++ exponent
  if !valid then .error (.malformed text)
  else
    let (suffix, single, rest) := spanFloatSuffix cs₂
    let glued := rest.takeWhile isIdentContinue
    if glued ≠ [] then .error (.malformed (text ++ suffix ++ glued))
    else .ok ⟨.literal (.float (String.ofList text) single), text ++ suffix, rest⟩

/-- The number at the head of a text that begins with a digit, or with a point and a digit. -/
def scanDecimal (cs : List Char) : Except LexFault Lexeme :=
  let digits := cs.takeWhile Char.isDigit
  let rest := cs.dropWhile Char.isDigit
  if startsFloatTail rest then scanFloat digits rest
  else match digits with
    | '0' :: d :: ds => scanInteger .octal ['0'] (d :: ds) rest
    | _ => scanInteger .decimal [] digits rest

/-- The number at the head of the text, in the radix that its first characters announce. A `0b`
without a binary digit after it announces nothing. -/
def scanNumber (cs : List Char) : Except LexFault Lexeme :=
  match cs with
  | '0' :: x :: rest =>
    if x = 'x' ∨ x = 'X' then
      scanInteger .hex ['0', x] (rest.takeWhile Radix.hex.isDigit)
        (rest.dropWhile Radix.hex.isDigit)
    else if (x = 'b' ∨ x = 'B') ∧ rest.head?.any Radix.binary.isDigit then
      scanInteger .binary ['0', x] (rest.takeWhile Radix.binary.isDigit)
        (rest.dropWhile Radix.binary.isDigit)
    else scanDecimal cs
  | _ => scanDecimal cs

/-! ### Characters and strings -/

/-- The byte that a one-letter escape stands for. -/
def letterEscape? : Char → Option UInt8
  | '\\' => some 0x5c
  | '\'' => some 0x27
  | '"' => some 0x22
  | '?' => some 0x3f
  | 'a' => some 0x07
  | 'b' => some 0x08
  | 'f' => some 0x0c
  | 'n' => some 0x0a
  | 'r' => some 0x0d
  | 't' => some 0x09
  | 'v' => some 0x0b
  | _ => none

/-- The escape after a quote and a backslash: its byte, its characters and the text after it. A
character outside ASCII takes the whole text into the fault. -/
def scanEscape : List Char → Except LexFault (UInt8 × List Char × List Char)
  | [] => .error .unterminated
  | c :: cs =>
    match letterEscape? c with
    | some byte => .ok (byte, [c], cs)
    | none =>
      if Radix.octal.isDigit c then
        let digits := c :: (cs.take 2).takeWhile Radix.octal.isDigit
        match Radix.octal.readFrom 0 digits with
        | .ok value =>
          if value < 256 then .ok (UInt8.ofNat value, digits, (c :: cs).drop digits.length)
          else .error (.malformed ('\'' :: '\\' :: digits))
        | .error _ => .error (.malformed ('\'' :: '\\' :: digits))
      else if c = 'x' then
        let digits := (cs.take 2).takeWhile Radix.hex.isDigit
        match digits, Radix.hex.readFrom 0 digits with
        | _ :: _, .ok value => .ok (UInt8.ofNat value, 'x' :: digits, cs.drop digits.length)
        | _, _ => .error (.malformed ['\'', '\\', 'x'])
      else if c.toNat < 0x80 then .error (.malformed ['\'', '\\', c])
      else .error (.malformed ('\'' :: '\\' :: c :: cs))

/-- What the closing quote of a character literal has to follow: the byte, its spelling and the text
where the quote should be. -/
def scanCharBody : List Char → Except LexFault (UInt8 × List Char × List Char)
  | [] => .error .unterminated
  | '\n' :: _ => .error .unterminated
  | '\\' :: cs => (scanEscape cs).map fun (byte, spelling, rest) => (byte, '\\' :: spelling, rest)
  | '\'' :: _ => .error (.malformed ['\'', '\''])
  | c :: cs =>
    if c.toNat < 0x80 then .ok (UInt8.ofNat c.toNat, [c], cs)
    else .error (.malformed ('\'' :: (c :: cs).take 2))

/-- The character literal whose opening quote has just been read. -/
def scanChar (cs : List Char) : Except LexFault Lexeme :=
  match scanCharBody cs with
  | .error fault => .error fault
  | .ok (byte, spelling, '\'' :: rest) =>
    .ok ⟨.literal (.char byte), '\'' :: spelling ++ ['\''], rest⟩
  | .ok _ => .error .unterminated

/-- The characters of a string up to its closing quote, the quote included, and the text after it. A
backslash takes the next character with it, whatever it is. -/
def spanString? : List Char → Option (List Char × List Char)
  | [] => none
  | '\n' :: _ => none
  | '"' :: cs => some (['"'], cs)
  | ['\\'] => none
  | '\\' :: c :: cs => (spanString? cs).map fun (body, rest) => ('\\' :: c :: body, rest)
  | c :: cs => (spanString? cs).map fun (body, rest) => (c :: body, rest)

/-- The string literal whose opening quote has just been read. -/
def scanString (cs : List Char) : Except LexFault Lexeme :=
  match spanString? cs with
  | none => .error .unterminated
  | some (body, rest) =>
    .ok ⟨.literal (.str (String.ofList ('"' :: body))), '"' :: body, rest⟩

/-! ### A literal is the head of its text -/

theorem length_pos_of_kind {lx : Lexeme} {cs : List Char} (h : lx.spelling ++ lx.rest = cs)
    (hne : lx.spelling ≠ []) : lx.rest.length < cs.length := by
  have : 0 < lx.spelling.length := List.length_pos_iff.mpr hne
  rw [← h, List.length_append]
  omega

theorem scanInteger_split {radix : Radix} {mark digits cs : List Char} {lx : Lexeme}
    (h : scanInteger radix mark digits cs = .ok lx) :
    lx.spelling ++ lx.rest = mark ++ digits ++ cs ∧ digits ≠ [] ∧
      lx.spelling = mark ++ digits ++ cs.takeWhile isSuffixLetter := by
  simp only [scanInteger] at h
  split at h
  · cases h
  · split at h
    · cases h
    · split at h
      · cases h
      · split at h
        · cases h
        · cases h
        · split at h
          · cases h
          · next hd _ _ _ _ _ _ =>
            cases h
            refine ⟨?_, hd, rfl⟩
            simp [List.append_assoc, List.takeWhile_append_dropWhile]

theorem spanFraction_append (cs : List Char) : (spanFraction cs).1 ++ (spanFraction cs).2 = cs := by
  unfold spanFraction
  split <;> simp [List.takeWhile_append_dropWhile]

theorem spanSign_append (cs : List Char) : (spanSign cs).1 ++ (spanSign cs).2 = cs := by
  unfold spanSign
  split <;> simp

theorem spanExponent_append (cs : List Char) :
    (spanExponent cs).1 ++ (spanExponent cs).2.2 = cs := by
  unfold spanExponent
  split
  · rfl
  · next e cs =>
    split
    · simp only [List.cons_append, List.append_assoc, List.takeWhile_append_dropWhile]
      rw [spanSign_append]
    · rfl

theorem spanFloatSuffix_append (cs : List Char) :
    (spanFloatSuffix cs).1 ++ (spanFloatSuffix cs).2.2 = cs := by
  unfold spanFloatSuffix
  split <;> simp

theorem scanFloat_split {digits cs : List Char} {lx : Lexeme} (h : scanFloat digits cs = .ok lx) :
    lx.spelling ++ lx.rest = digits ++ cs := by
  simp only [scanFloat] at h
  split at h
  · cases h
  · split at h
    · cases h
    · cases h
      simp only [List.append_assoc]
      rw [spanFloatSuffix_append, spanExponent_append, spanFraction_append]

theorem scanFloat_spelling {digits cs : List Char} {lx : Lexeme}
    (h : scanFloat digits cs = .ok lx) :
    ∃ tail, lx.spelling = digits ++ (spanFraction cs).1 ++ tail := by
  simp only [scanFloat] at h
  split at h
  · cases h
  · split at h
    · cases h
    · cases h
      exact ⟨_, by simp only [List.append_assoc]; rfl⟩

end Bindery
