import Bindery.Text.Blank

/-!
# Slices

A text as bytes, and parts of it between byte offsets. A part begins and ends where a character does
or where the text ends; between other offsets there is none.
-/

namespace Bindery.Text

/-- The bytes of a text in UTF-8. -/
def bytes (cs : List Char) : List UInt8 := cs.flatMap String.utf8EncodeChar

/-- The byte at an offset, as the character of the same number. Of the characters outside ASCII no
byte is in ASCII. -/
def byte? (cs : List Char) (pos : Nat) : Option Char := ((bytes cs)[pos]?).map Char.ofUInt8

/-- The text before the byte offset and the text after it, if no character lies across it. -/
def splitAt? : List Char → Nat → Option (List Char × List Char)
  | cs, 0 => some ([], cs)
  | [], _ + 1 => none
  | c :: cs, n + 1 =>
    if c.utf8Size ≤ n + 1 then
      (splitAt? cs (n + 1 - c.utf8Size)).map fun (front, rest) => (c :: front, rest)
    else none

/-- The part of the text between two byte offsets, if there is one. -/
def slice? (cs : List Char) (start stop : Nat) : Option (List Char) :=
  if start ≤ stop then
    (splitAt? cs start).bind fun (_, rest) => (splitAt? rest (stop - start)).map Prod.fst
  else none

theorem lt_length_of_byte? {cs : List Char} {pos : Nat} {b : Char} (h : byte? cs pos = some b) :
    pos < (bytes cs).length := by
  obtain ⟨_, hb, -⟩ := Option.map_eq_some_iff.mp h
  exact (List.getElem?_eq_some_iff.mp hb).1

end Bindery.Text
