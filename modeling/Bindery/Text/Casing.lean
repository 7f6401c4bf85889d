import Bindery.Text.CaseTable

/-!
# Upper and lower case of one character

Full Unicode case mapping without context: the uppercase form of a character may have several
characters (`ß` gives `SS`), and ASCII letters never look at the tables.
-/

namespace Bindery.Text

/-- The lowercase form of `c`. Only `İ` has a form of two characters. -/
def lowercase (c : Char) : List Char :=
  if c.toNat < 0x80 then [c.toLower]
  else if c.toNat = 0x130 then ['i', Char.ofNat 0x307]
  else match lowerRanges.findSome? (·.map? c.toNat) with
    | some code => [Char.ofNat code]
    | none => [c]

/-- The uppercase form of `c`. -/
def uppercase (c : Char) : List Char :=
  if c.toNat < 0x80 then [c.toUpper]
  else match upperExpansions.lookup c.toNat with
    | some codes => codes.map Char.ofNat
    | none => match upperRanges.findSome? (·.map? c.toNat) with
      | some code => [Char.ofNat code]
      | none => [c]

theorem lowercase_of_ascii {c : Char} (h : c.toNat < 0x80) : lowercase c = [c.toLower] := by
  simp [lowercase, h]

theorem uppercase_of_ascii {c : Char} (h : c.toNat < 0x80) : uppercase c = [c.toUpper] := by
  simp [uppercase, h]

end Bindery.Text
