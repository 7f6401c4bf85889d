/-!
# The words of an identifier

A word is a run of uppercase letters and digits, a capitalized run, or a run of lowercase letters
and digits. It ends right before an uppercase letter, an underscore or the end of the name;
underscores separate words and belong to none. Letters and digits are those of ASCII, and any other
character is passed over.
-/

namespace Bindery.Identifier

/-- Whether a word may end where `cs` begins. -/
def atBoundary : List Char → Bool
  | [] => true
  | c :: _ => c.isUpper || c == '_'

def isUpperOrDigit (c : Char) : Bool := c.isUpper || c.isDigit

def isLowerOrDigit (c : Char) : Bool := c.isLower || c.isDigit

/-- The length of the longest run of characters satisfying `p` that `cs` begins with and after which
a word may end, if there is one. -/
def runCut? (p : Char → Bool) : (cs : List Char) → Option Nat
  | [] => some 0
  | c :: cs =>
    (if p c then (runCut? p cs).map (· + 1) else none) <|>
      if atBoundary (c :: cs) then some 0 else none

/-- How many characters of `cs` belong to the word that begins with `c`, if one does. The uppercase
run is tried first, then the capitalized and the lowercase run. -/
def wordCut? (c : Char) (cs : List Char) : Option Nat :=
  (if isUpperOrDigit c then runCut? isUpperOrDigit cs else none) <|>
  (if c.isUpper then runCut? isLowerOrDigit cs else none) <|>
  (if isLowerOrDigit c then runCut? isLowerOrDigit cs else none)

/-- The words of a name, in order. Where a letter or digit begins no word, neither does any of the
lowercase letters and digits right after it, since all of them lead to the same place, where no word
may end; they are passed over at once. -/
def wordsOf : List Char → List (List Char)
  | [] => []
  | c :: cs =>
    match wordCut? c cs with
    | some n => (c :: cs.take n) :: wordsOf (cs.drop n)
    | none => wordsOf (if c.isUpper || isLowerOrDigit c then cs.dropWhile isLowerOrDigit else cs)
termination_by cs => cs.length
decreasing_by
  · simp only [List.length_drop, List.length_cons]; omega
  · split
    · exact Nat.lt_succ_of_le (List.dropWhile_suffix _).length_le
    · simp

/-- Where no run of lowercase letters and digits may end, no run of uppercase letters and digits may
end either. -/
theorem runCut?_upper_eq_none : ∀ {cs : List Char},
    runCut? isLowerOrDigit cs = none → runCut? isUpperOrDigit cs = none
  | [], h => by simp [runCut?] at h
  | c :: cs, h => by
    by_cases hc : isLowerOrDigit c = true
    · simp [runCut?, hc] at h
      simp [runCut?, runCut?_upper_eq_none h.1, h.2]
    · have hb : atBoundary (c :: cs) = false := by simpa [runCut?, hc] using h
      have hu : isUpperOrDigit c = false := by
        simp [atBoundary] at hb
        simp [isLowerOrDigit] at hc
        simp [isUpperOrDigit, hb.1, hc.2]
      simp [runCut?, hu, hb]

/-- Where a letter or digit begins no word, no run of lowercase letters and digits may end after
it. -/
theorem runCut?_lower_eq_none {c : Char} {cs : List Char}
    (hc : (c.isUpper || isLowerOrDigit c) = true) (h : wordCut? c cs = none) :
    runCut? isLowerOrDigit cs = none := by
  rcases Bool.or_eq_true_iff.mp hc with hu | hl
  · simp [wordCut?, hu] at h
    exact h.2.1
  · simp [wordCut?, hl] at h
    exact h.2.2

theorem wordCut?_eq_none {c : Char} {cs : List Char} (h : runCut? isLowerOrDigit cs = none) :
    wordCut? c cs = none := by
  simp [wordCut?, h, runCut?_upper_eq_none h]

/-- The characters passed over begin no word. -/
theorem wordsOf_dropWhile : ∀ {cs : List Char}, runCut? isLowerOrDigit cs = none →
    wordsOf (cs.dropWhile isLowerOrDigit) = wordsOf cs
  | [], _ => rfl
  | c :: cs, h => by
    by_cases hc : isLowerOrDigit c = true
    · have ht : runCut? isLowerOrDigit cs = none := by
        simp [runCut?, hc] at h
        exact h.1
      rw [List.dropWhile_cons_of_pos hc, wordsOf, wordCut?_eq_none ht]
      simp [hc]
    · rw [List.dropWhile_cons_of_neg hc]

/-- The words of a name, one character at a time. -/
theorem wordsOf_cons (c : Char) (cs : List Char) :
    wordsOf (c :: cs) =
      match wordCut? c cs with
      | some n => (c :: cs.take n) :: wordsOf (cs.drop n)
      | none => wordsOf cs := by
  rw [wordsOf]
  split
  · rfl
  · next h =>
    split
    · next hc => exact wordsOf_dropWhile (runCut?_lower_eq_none hc h)
    · rfl

/-- The words of a name, in order. -/
def words (name : String) : List String := (wordsOf name.toList).map String.ofList

/-- Whether the characters before a suffix end in one that satisfies `p`; `rev` is the name and
`suffix` the suffix, both reversed. -/
def endsAfter (p : Char → Bool) (suffix rev : List Char) : Bool :=
  suffix.isPrefixOf rev && (rev.drop suffix.length).head?.any p

/-- Whether an enum of this name reads as a set of bit flags: its name, trailing digits aside, ends
in `flag` or `flags` in one case after an underscore, or in `Flag` or `Flags` after an underscore, a
lowercase letter or a digit. -/
def readsAsFlags (name : String) : Bool :=
  let rev := name.toList.reverse.dropWhile Char.isDigit
  let ends (p : Char → Bool) (suffix : String) : Bool := endsAfter p suffix.toList.reverse rev
  ["flags", "flag", "FLAGS", "FLAG"].any (ends (· == '_')) ||
    ["Flags", "Flag"].any (ends fun c => c == '_' || c.isLower || c.isDigit)

end Bindery.Identifier
