/-!
# The bytes of an image

The contents of a file, what can be wrong with an image, and the strings in it.
-/

namespace Bindery

/-- The contents of a file. -/
abbrev Bytes := Array UInt8

/-- Why the exports of an image could not be listed. -/
inductive ImageError where
  /-- The file could not be read. -/
  | io (path reason : String)
  | badDosMagic
  | badPeSignature (offset : Nat)
  | truncated (offset : Nat)
  | unmappedAddress (address : Nat)
deriving DecidableEq, Repr

namespace ImageError

/-- A number in hexadecimal, as errors show it. -/
def hex (n : Nat) : String := "0x" ++ String.ofList (Nat.toDigits 16 n)

def message : ImageError → String
  | io path reason => "failed to read `" ++ path ++ "`: " ++ reason
  | badDosMagic => "not a PE image: missing MZ signature"
  | badPeSignature offset => "not a PE image: missing PE signature at offset " ++ hex offset
  | truncated offset => "image truncated: read past end of file at offset " ++ hex offset
  | unmappedAddress address => "address " ++ hex address ++ " is not inside any section"

end ImageError

namespace Bytes

/-- The bytes from an offset up to the first zero; nothing when there is no zero. -/
def zeroTerminated? (d : Bytes) (offset : Nat) : Option (List UInt8) :=
  if h : offset < d.size then
    if d[offset] = 0 then some [] else (zeroTerminated? d (offset + 1)).map (d[offset] :: ·)
  else none
termination_by d.size - offset

/-- The bytes from an offset up to the first zero. Without a zero the file ends too early. -/
def cString (d : Bytes) (offset : Nat) : Except ImageError (List UInt8) :=
  if d.size < offset then .error (.truncated offset)
  else match zeroTerminated? d offset with
    | some bytes => .ok bytes
    | none => .error (.truncated d.size)

end Bytes

end Bindery
