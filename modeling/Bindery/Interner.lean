/-!
# Interned names

Strings numbered in the order in which they are first met. Number 0 is the empty string.
-/

namespace Bindery

/-- The number of an interned string. -/
structure Name where
  raw : Nat
deriving DecidableEq, Repr

namespace Name

/-- The name of the empty string. -/
def empty : Name := ⟨0⟩

instance : Inhabited Name := ⟨empty⟩

def describe (name : Name) : String := "Name(" ++ toString name.raw ++ ")"

end Name

/-- The strings met so far, each at its number. -/
structure Interner where
  strings : Array String
deriving Repr

namespace Interner

/-- The interner that knows the empty string. -/
def new : Interner := ⟨#[""]⟩

instance : Inhabited Interner := ⟨new⟩

/-- The name of `s`, if it has been interned. -/
def get? (t : Interner) (s : String) : Option Name := (t.strings.idxOf? s).map Name.mk

/-- The name of `s`, which is a new one if `s` has not been interned before. -/
def intern (t : Interner) (s : String) : Name × Interner :=
  match t.get? s with
  | some name => (name, t)
  | none => (⟨t.strings.size⟩, ⟨t.strings.push s⟩)

/-- The interner after `s` has been met. -/
def add (t : Interner) (s : String) : Interner := (t.intern s).2

/-- The string of a name; a name that the interner did not give out stands for the empty string. -/
def lookup (t : Interner) (name : Name) : String := t.strings[name.raw]?.getD ""

def size (t : Interner) : Nat := t.strings.size

def describe (t : Interner) : String := "StringInterner \x7b len: " ++ toString t.size ++ " \x7d"

end Interner

end Bindery
