import Bindery.Image.Bytes
import Bindery.Text.Utf8

/-!
# A cursor over an image

A position that moves over the bytes of a file. Words are read at the position, which then stands
behind them; a word that is not wholly inside the file is an error at the position. A string is read
at an offset of its own, and the position stays where it is.
-/

namespace Bindery

/-- The number that the bytes are, the low byte first. -/
def ofLittleEndian : List UInt8 → Nat
  | [] => 0
  | b :: bytes => b.toNat + 0x100 * ofLittleEndian bytes

/-- A step of a reading; its state is the position in the file. -/
abbrev CursorM := StateT Nat (Except ImageError)

namespace CursorM

/-- The last position that there is. -/
def maxPos : Nat := 0xffffffffffffffff

def seek (pos : Nat) : CursorM Unit := set pos

/-- Moves on by `n` bytes, but not beyond the last position. -/
def skip (n : Nat) : CursorM Unit := modify fun pos => min (pos + n) maxPos

variable (d : Bytes)

/-- The `n` bytes at the position, which moves behind them. -/
def take (n : Nat) : CursorM (List UInt8) := do
  let pos ← get
  if pos + n ≤ maxPos ∧ pos + n ≤ d.size then
    set (pos + n)
    return (d.extract pos (pos + n)).toList
  else throw (.truncated pos)

def word16 : CursorM Nat := ofLittleEndian <$> take d 2

def word32 : CursorM Nat := ofLittleEndian <$> take d 4

/-- The string at the offset. The position does not move. -/
def cStringAt (offset : Nat) : CursorM String := do
  let bytes ← d.cString offset
  return String.ofList (Text.decodeUtf8 bytes)

end CursorM

end Bindery
