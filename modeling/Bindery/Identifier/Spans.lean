import Bindery.Expr.Cursor
import Bindery.Identifier.Words

/-!
# Words by offset

The words of a name as they are found among its bytes. A word begins at an offset with an uppercase
letter, a lowercase letter or a digit; each run that may follow is taken as long as it goes and then
cut back, byte by byte, to where a word may end. Where no word begins the next byte is looked at,
whether a character begins there or not. That the spans found are slices of the name is not looked
at here.
-/

namespace Bindery.Identifier

open Scanner

/-- What lies between two byte offsets. -/
structure Span where
  start : Nat
  stop : Nat
deriving DecidableEq, Repr

variable (text : List Char)

/-- Whether a word may end at the offset. -/
def mayEnd (pos : Nat) : Bool :=
  match Text.byte? text pos with
  | none => true
  | some b => b.isUpper || b == '_'

/-- The last of the offsets `first`, …, `first + n` where a word may end. -/
def lastEnd? (first : Nat) : (n : Nat) → Option Nat
  | 0 => if mayEnd text first then some first else none
  | n + 1 => if mayEnd text (first + (n + 1)) then some (first + (n + 1)) else lastEnd? first n

/-- Where a word may end last whose bytes from `pos` on are as `p` says. -/
def runEnd? (p : Char → Bool) (pos : Nat) : Option Nat :=
  lastEnd? text pos (skipWhile text p pos - pos)

/-- The end of the word that begins at the offset, if one does. -/
def wordEnd? (start : Nat) : Option Nat :=
  (if holds text isUpperOrDigit start then runEnd? text isUpperOrDigit (start + 1) else none) <|>
  (if holds text Char.isUpper start then runEnd? text isLowerOrDigit (start + 1) else none) <|>
  (if holds text isLowerOrDigit start then runEnd? text isLowerOrDigit (start + 1) else none)

variable {text} in
theorem le_of_lastEnd? {first n stop : Nat} (h : lastEnd? text first n = some stop) :
    first ≤ stop := by
  induction n with
  | zero =>
    rw [lastEnd?] at h
    split at h
    · cases h; exact Nat.le_refl _
    · cases h
  | succ n ih =>
    rw [lastEnd?] at h
    split at h
    · cases h; exact Nat.le_add_right ..
    · exact ih h

variable {text} in
/-- A word is not empty. -/
theorem lt_of_wordEnd? {start stop : Nat} (h : wordEnd? text start = some stop) : start < stop := by
  have hrun : ∀ {b : Bool} {p : Char → Bool},
      (if b then runEnd? text p (start + 1) else none) = some stop → start < stop := by
    intro b p h
    split at h
    · exact le_of_lastEnd? h
    · cases h
  simp only [wordEnd?, Option.orElse_eq_orElse, Option.orElse_eq_or, Option.or_eq_some_iff] at h
  rcases h with h | ⟨-, h | ⟨-, h⟩⟩
  · exact hrun h
  · exact hrun h
  · exact hrun h

/-- Where the words are from the offset on. -/
def spans (pos : Nat) : List Span :=
  if pos < (Text.bytes text).length then
    match h : wordEnd? text pos with
    | some stop => ⟨pos, stop⟩ :: spans stop
    | none => spans (pos + 1)
  else []
termination_by (Text.bytes text).length - pos
decreasing_by
  · have := lt_of_wordEnd? h
    omega
  · omega

end Bindery.Identifier
