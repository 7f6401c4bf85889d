import Bindery.Image.Cursor

/-!
# The exports of a PE image

The names in the export table of a Windows image, read with a cursor that goes along the headers.
The DOS header points to the PE header, whose data directory holds the address of the export
directory; addresses become file offsets through the section table, and the export directory points
to the table of names.
-/

namespace Bindery

/-- The part of a section header that maps addresses to file offsets. -/
structure Section where
  virtualSize : Nat
  virtualAddress : Nat
  rawSize : Nat
  rawOffset : Nat
deriving DecidableEq, Repr

namespace Section

/-- The section header at the cursor. Its name, which is 8 bytes long, and its last 16 bytes do not
matter. -/
def read (d : Bytes) : CursorM Section := do
  CursorM.skip 8
  let virtualSize ← CursorM.word32 d
  let virtualAddress ← CursorM.word32 d
  let rawSize ← CursorM.word32 d
  let rawOffset ← CursorM.word32 d
  CursorM.skip 16
  return ⟨virtualSize, virtualAddress, rawSize, rawOffset⟩

/-- The section headers at the cursor. -/
def readAll (d : Bytes) : (count : Nat) → CursorM (List Section)
  | 0 => return []
  | count + 1 => do
    let s ← read d
    let more ← readAll d count
    return s :: more

/-- The file offset of an address that the section holds. -/
def fileOffset? (s : Section) (address : Nat) : Option Nat :=
  if s.virtualAddress ≤ address ∧ address < s.virtualAddress + max s.virtualSize s.rawSize then
    some (address - s.virtualAddress + s.rawOffset)
  else none

end Section

namespace Image

/-- The file offset of an address, by the first section that holds it. -/
def fileOffset (sections : List Section) (address : Nat) : Except ImageError Nat :=
  match sections.findSome? (·.fileOffset? address) with
  | some offset => .ok offset
  | none => .error (.unmappedAddress address)

/-- The names that the `count` addresses at the cursor point to. -/
def readNames (d : Bytes) (sections : List Section) : (count : Nat) → CursorM (List String)
  | 0 => return []
  | count + 1 => do
    let address ← CursorM.word32 d
    let name ← CursorM.cStringAt d (← fileOffset sections address)
    let more ← readNames d sections count
    return name :: more

/-- The distance from the section count to the export directory entry, which the machine of the
image decides. -/
def exportEntryDistance (machine : Nat) : Nat := if machine = 0x8664 then 128 else 112

/-- The exported names of an image in table order. An image without export directory has none. -/
def readExports (d : Bytes) : CursorM (List String) := do
  if (← CursorM.word16 d) ≠ 0x5a4d then throw .badDosMagic
  CursorM.seek 0x3c
  let header ← CursorM.word32 d
  CursorM.seek header
  if (← CursorM.word32 d) ≠ 0x4550 then throw (.badPeSignature header)
  let machine ← CursorM.word16 d
  let sectionCount ← CursorM.word16 d
  CursorM.skip (exportEntryDistance machine)
  let exportAddress ← CursorM.word32 d
  let _ ← CursorM.word32 d
  if exportAddress = 0 then return []
  -- the other data directories, fifteen of them
  CursorM.skip (15 * 8)
  let sections ← Section.readAll d sectionCount
  let directory ← fileOffset sections exportAddress
  CursorM.seek (directory + 24)
  let count ← CursorM.word32 d
  CursorM.seek (directory + 32)
  let table ← CursorM.word32 d
  if count = 0 then return []
  CursorM.seek (← fileOffset sections table)
  readNames d sections count

/-- What is read with the cursor at the start of the file. -/
def exports (d : Bytes) : Except ImageError (List String) := (readExports d).run' 0

/-- Files by path. -/
abbrev FileStore := String → Option Bytes

/-- The exported names of the image in a file. -/
def exportsOfFile (files : FileStore) (path : String) : Except ImageError (List String) :=
  match files path with
  | none => .error (.io path "No such file or directory (os error 2)")
  | some d => exports d

end Image

end Bindery
