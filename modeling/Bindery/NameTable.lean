import Bindery.Interner

/-!
# Interned names by an index

The interner once more, as a table that is looked up from both sides: an index finds the name of a
string, and the number of a name finds its string. Numbers have 32 bits, so a table can be full.
-/

namespace Bindery

/-- The strings met so far, each at its number, and the name of each. -/
structure NameTable where
  index : List (String × Name)
  strings : Array String
deriving Repr

namespace NameTable

/-- How many strings have a number. -/
def capacity : Nat := 0x100000000

/-- The table that knows the empty string. -/
def new : NameTable := ⟨[("", .empty)], #[""]⟩

instance : Inhabited NameTable := ⟨new⟩

/-- The name of `s`, if it has been interned. -/
def get? (t : NameTable) (s : String) : Option Name := t.index.lookup s

/-- The name of `s`, which is a new one if `s` has not been interned before. A full table has no new
names. -/
def intern? (t : NameTable) (s : String) : Option (Name × NameTable) :=
  match t.get? s with
  | some name => some (name, t)
  | none =>
    if t.strings.size < capacity then
      let name : Name := ⟨t.strings.size⟩
      some (name, ⟨(s, name) :: t.index, t.strings.push s⟩)
    else none

/-- The string of a name; a name that the table did not give out stands for the empty string. -/
def lookup (t : NameTable) (name : Name) : String := t.strings[name.raw]?.getD ""

end NameTable

end Bindery
