import Bindery.Text.Blank

/-!
# Line continuations

A backslash right before a line end joins two lines. `foldContinuations` puts one space in place of
each continuation and of the blanks around it.
-/

namespace Bindery.Text

/-- What follows a line end (LF or CRLF) at the head of the text. -/
def afterLineEnd? : List Char → Option (List Char)
  | '\n' :: cs => some cs
  | '\r' :: '\n' :: cs => some cs
  | _ => none

theorem length_afterLineEnd? {cs rest : List Char} (h : afterLineEnd? cs = some rest) :
    rest.length < cs.length := by
  unfold afterLineEnd? at h
  split at h
  · cases h
    exact Nat.lt_succ_self _
  · cases h
    exact Nat.lt_succ_of_lt (Nat.lt_succ_self _)
  · cases h

/-- The lines of `cs` joined: a continuation and the blanks around it become one space, and a
backslash elsewhere stays. Blanks are looked for up to the backslash before, no further. -/
def joinLines (cs : List Char) : List Char :=
  match _h : cs.dropWhile (· != '\\') with
  | [] => cs
  | _ :: after =>
    match _hnext : afterLineEnd? after with
    | some next => trimEnd (cs.takeWhile (· != '\\')) ++ ' ' :: joinLines (trimStart next)
    | none => cs.takeWhile (· != '\\') ++ '\\' :: joinLines after
termination_by cs.length
decreasing_by
  · have h1 := (List.dropWhile_sublist (l := cs) (· != '\\')).length_le
    have h2 := length_afterLineEnd? _hnext
    have h3 := length_trimStart_le next
    simp only [_h, List.length_cons] at h1
    omega
  · have h1 := (List.dropWhile_sublist (l := cs) (· != '\\')).length_le
    simp only [_h, List.length_cons] at h1
    omega

/-- `cs` with every continuation folded into a space, and trimmed. -/
def foldContinuations (cs : List Char) : List Char := trim (joinLines cs)

end Bindery.Text
