/-!
# Reading UTF-8

Bytes as text. Where the bytes are no UTF-8, every longest prefix of a character that cannot go on,
and every byte that can begin no character, becomes one replacement character.
-/

namespace Bindery.Text

/-- What a lead byte announces: how many bytes follow it, the range of the first of those, and the
bits that it contributes itself. -/
def leadByte? (b : Nat) : Option (Nat × Nat × Nat × Nat) :=
  if b < 0x80 then some (0, 0x80, 0xbf, b)
  else if b < 0xc2 then none
  else if b < 0xe0 then some (1, 0x80, 0xbf, b - 0xc0)
  else if b = 0xe0 then some (2, 0xa0, 0xbf, b - 0xe0)
  else if b = 0xed then some (2, 0x80, 0x9f, b - 0xe0)
  else if b < 0xf0 then some (2, 0x80, 0xbf, b - 0xe0)
  else if b = 0xf0 then some (3, 0x90, 0xbf, b - 0xf0)
  else if b < 0xf4 then some (3, 0x80, 0xbf, b - 0xf0)
  else if b = 0xf4 then some (3, 0x80, 0x8f, b - 0xf0)
  else none

/-- The code point whose first bits are `bits` and whose last `n` bytes head the list, of which the
first lies between `low` and `high`; and the bytes after what was read of it. -/
def readTail (low high bits : Nat) : (n : Nat) → List UInt8 → Option Nat × List UInt8
  | 0, bytes => (some bits, bytes)
  | _ + 1, [] => (none, [])
  | n + 1, b :: bytes =>
    if low ≤ b.toNat ∧ b.toNat ≤ high then
      readTail 0x80 0xbf (bits * 64 + (b.toNat - 0x80)) n bytes
    else (none, b :: bytes)

theorem length_readTail_le (low high bits n : Nat) (bytes : List UInt8) :
    (readTail low high bits n bytes).2.length ≤ bytes.length := by
  fun_induction readTail low high bits n bytes with
  | case1 => exact Nat.le_refl _
  | case2 => exact Nat.le_refl _
  | case3 _ _ _ _ _ _ _ ih => exact Nat.le_succ_of_le ih
  | case4 => exact Nat.le_refl _

/-- Stands for what could not be read. -/
def replacementChar : Char := Char.ofNat 0xfffd

/-- The characters that the bytes write. -/
def decodeUtf8 : List UInt8 → List Char
  | [] => []
  | b :: bytes =>
    match leadByte? b.toNat with
    | none => replacementChar :: decodeUtf8 bytes
    | some (n, low, high, bits) =>
      let code := (readTail low high bits n bytes).1
      (code.map Char.ofNat).getD replacementChar ::
        decodeUtf8 (readTail low high bits n bytes).2
termination_by bytes => bytes.length
decreasing_by
  · simp
  · have := length_readTail_le low high bits n bytes
    simp only [List.length_cons]
    omega

end Bindery.Text
