import Bindery.Expr.Literal
import Bindery.Text.Blank

/-!
# From text to tokens

Tokens are read from left to right, each as long as it can be; between them stand ASCII blanks and
line continuations. `Lexeme.scan_split` says that a token is the head of its text, so every token
covers at least one character.
-/

namespace Bindery

/-- The blanks between tokens. -/
def isSpace (c : Char) : Bool := c == ' ' || c == '\t' || c == '\n' || c == '\x0c' || c == '\r'

/-- The text from its first token on, with the byte offset of that place; `pos` is the offset of the
text. -/
def skipSpace (pos : Nat) : List Char → Nat × List Char
  | [] => (pos, [])
  | '\\' :: '\n' :: cs => skipSpace (pos + 2) cs
  | '\\' :: '\r' :: '\n' :: cs => skipSpace (pos + 3) cs
  | c :: cs => if isSpace c then skipSpace (pos + 1) cs else (pos, c :: cs)

theorem length_skipSpace_le (pos : Nat) (cs : List Char) :
    (skipSpace pos cs).2.length ≤ cs.length := by
  fun_induction skipSpace pos cs with
  | case1 => exact Nat.le_refl _
  | case2 _ cs ih => exact Nat.le_succ_of_le (Nat.le_succ_of_le ih)
  | case3 _ cs ih => exact Nat.le_succ_of_le (Nat.le_succ_of_le (Nat.le_succ_of_le ih))
  | case4 _ _ _ _ _ _ ih => exact Nat.le_succ_of_le ih
  | case5 => exact Nat.le_refl _

namespace Lexeme

/-- The name at the head of a text. -/
def name (cs : List Char) : Lexeme :=
  let word := cs.takeWhile isIdentContinue
  ⟨.ident (String.ofList word), word, cs.dropWhile isIdentContinue⟩

/-- The token at the head of the text `c :: cs`. -/
def scan (c : Char) (cs : List Char) : Except LexFault Lexeme :=
  if c.isDigit || (c == '.' && cs.head?.any Char.isDigit) then scanNumber (c :: cs)
  else if c = '\'' then scanChar cs
  else if c = '"' then scanString cs
  else if isIdentStart c then .ok (name (c :: cs))
  else match Punct.scan? (c :: cs) with
    | some (p, rest) => .ok ⟨.punct p, p.spelling, rest⟩
    | none => .error (.unexpected c)

end Lexeme

/-! ### A token is the head of its text -/

theorem scanEscape_split {cs spelling rest : List Char} {byte : UInt8}
    (h : scanEscape cs = .ok (byte, spelling, rest)) : spelling ++ rest = cs := by
  unfold scanEscape at h
  split at h
  · cases h
  · next c cs =>
    split at h
    · cases h; rfl
    · split at h
      · dsimp only at h
        split at h
        · split at h
          · cases h
            have hp : (c :: (cs.take 2).takeWhile Radix.octal.isDigit) <+: c :: cs :=
              List.cons_prefix_cons.mpr
                ⟨rfl, (List.takeWhile_prefix _).trans (List.take_prefix 2 cs)⟩
            exact List.prefix_iff_eq_append.mp hp
          · cases h
        · cases h
      · split at h
        · next hx =>
          subst hx
          dsimp only at h
          split at h
          · next hds _ =>
            cases h
            have hp : (cs.take 2).takeWhile Radix.hex.isDigit <+: cs :=
              (List.takeWhile_prefix _).trans (List.take_prefix 2 cs)
            simpa using congrArg (List.cons 'x') (List.prefix_iff_eq_append.mp hp)
          · cases h
        · split at h <;> cases h

theorem scanCharBody_split {cs spelling rest : List Char} {byte : UInt8}
    (h : scanCharBody cs = .ok (byte, spelling, rest)) : spelling ++ rest = cs := by
  unfold scanCharBody at h
  split at h
  · cases h
  · cases h
  · next cs =>
    cases he : scanEscape cs with
    | error fault => simp [he, Except.map] at h
    | ok r =>
      obtain ⟨b, s, t⟩ := r
      simp only [he, Except.map, Except.ok.injEq, Prod.mk.injEq] at h
      obtain ⟨rfl, rfl, rfl⟩ := h
      simp [scanEscape_split he]
  · cases h
  · split at h
    · cases h; rfl
    · cases h

theorem scanChar_split {cs : List Char} {lx : Lexeme} (h : scanChar cs = .ok lx) :
    lx.spelling ++ lx.rest = '\'' :: cs ∧ lx.spelling ≠ [] := by
  unfold scanChar at h
  split at h
  · cases h
  · next hb =>
    cases h
    exact ⟨by simp [← scanCharBody_split hb], by simp⟩
  · cases h

theorem spanString?_append {cs body rest : List Char} (h : spanString? cs = some (body, rest)) :
    body ++ rest = cs := by
  fun_induction spanString? cs generalizing body with
  | case1 => cases h
  | case2 => cases h
  | case3 cs => cases h; rfl
  | case4 => cases h
  | case5 c cs ih =>
    obtain ⟨⟨b, r⟩, hb, he⟩ := Option.map_eq_some_iff.mp h
    cases he
    simp [ih hb]
  | case6 c cs _ _ _ _ ih =>
    obtain ⟨⟨b, r⟩, hb, he⟩ := Option.map_eq_some_iff.mp h
    cases he
    simp [ih hb]

theorem scanString_split {cs : List Char} {lx : Lexeme} (h : scanString cs = .ok lx) :
    lx.spelling ++ lx.rest = '"' :: cs ∧ lx.spelling ≠ [] := by
  unfold scanString at h
  split at h
  · cases h
  · next hs =>
    cases h
    exact ⟨by simp [spanString?_append hs], by simp⟩

theorem scanDecimal_split {cs : List Char} {lx : Lexeme} (h : scanDecimal cs = .ok lx) :
    lx.spelling ++ lx.rest = cs := by
  simp only [scanDecimal] at h
  split at h
  · rw [scanFloat_split h, List.takeWhile_append_dropWhile]
  · split at h
    · next hd =>
      rw [(scanInteger_split h).1, List.singleton_append, ← hd, List.takeWhile_append_dropWhile]
    · rw [(scanInteger_split h).1, List.nil_append, List.takeWhile_append_dropWhile]

theorem scanNumber_split {cs : List Char} {lx : Lexeme} (h : scanNumber cs = .ok lx) :
    lx.spelling ++ lx.rest = cs := by
  unfold scanNumber at h
  split at h
  · split at h
    · rw [(scanInteger_split h).1, List.append_assoc, List.takeWhile_append_dropWhile]; rfl
    · split at h
      · rw [(scanInteger_split h).1, List.append_assoc, List.takeWhile_append_dropWhile]; rfl
      · exact scanDecimal_split h
  · exact scanDecimal_split h

theorem scanDecimal_ne_nil {c : Char} {cs : List Char} {lx : Lexeme}
    (hc : c.isDigit || (c == '.' && cs.head?.any Char.isDigit))
    (h : scanDecimal (c :: cs) = .ok lx) : lx.spelling ≠ [] := by
  simp only [scanDecimal] at h
  split at h
  · obtain ⟨tail, ht⟩ := scanFloat_spelling h
    rw [ht]
    by_cases hd : c.isDigit
    · simp [hd]
    · obtain rfl : c = '.' := by simpa [hd] using (show c = '.' ∧ _ by simpa [hd] using hc).1
      simp [spanFraction, hd]
  · split at h
    · rw [(scanInteger_split h).2.2]; simp
    · rw [(scanInteger_split h).2.2]
      have := (scanInteger_split h).2.1
      simp [this]

theorem scanNumber_ne_nil {c : Char} {cs : List Char} {lx : Lexeme}
    (hc : c.isDigit || (c == '.' && cs.head?.any Char.isDigit))
    (h : scanNumber (c :: cs) = .ok lx) : lx.spelling ≠ [] := by
  unfold scanNumber at h
  split at h
  · split at h
    · rw [(scanInteger_split h).2.2]; simp
    · split at h
      · rw [(scanInteger_split h).2.2]; simp
      · next heq _ _ => cases heq; exact scanDecimal_ne_nil hc h
  · exact scanDecimal_ne_nil hc h

namespace Lexeme

theorem name_split {c : Char} (cs : List Char) (hc : isIdentContinue c) :
    (name (c :: cs)).spelling ++ (name (c :: cs)).rest = c :: cs ∧
      (name (c :: cs)).spelling ≠ [] := by
  simp [name, hc]

/-- A token and the text after it make up the text, and a token is not empty. -/
theorem scan_split {c : Char} {cs : List Char} {lx : Lexeme} (h : scan c cs = .ok lx) :
    lx.spelling ++ lx.rest = c :: cs ∧ lx.spelling ≠ [] := by
  unfold scan at h
  split at h
  · next hc => exact ⟨scanNumber_split h, scanNumber_ne_nil hc h⟩
  · split at h
    · next hq => subst hq; exact scanChar_split h
    · split at h
      · next hq => subst hq; exact scanString_split h
      · split at h
        · next hi =>
          cases h
          refine name_split cs ?_
          simp only [isIdentStart, isIdentContinue, Char.isAlphanum, Bool.or_eq_true] at hi ⊢
          rcases hi with hi | hi <;> simp [hi]
        · split at h
          · next hp =>
            cases h
            exact ⟨Punct.spelling_append_of_scan? hp, Punct.spelling_ne_nil _⟩
          · cases h

theorem length_rest_lt {c : Char} {cs : List Char} {lx : Lexeme} (h : scan c cs = .ok lx) :
    lx.rest.length < (c :: cs).length :=
  length_pos_of_kind (scan_split h).1 (scan_split h).2

end Lexeme

/-- The tokens of a text; `pos` is the byte offset of its first character. -/
def tokensFrom (pos : Nat) (cs : List Char) : Except ParseError (List Token) :=
  match _hs : skipSpace pos cs with
  | (_, []) => .ok []
  | (start, c :: rest) =>
    match _hl : Lexeme.scan c rest with
    | .error fault => .error (fault.toError start)
    | .ok lx =>
      let stop := start + Text.byteLength lx.spelling
      match tokensFrom stop lx.rest with
      | .error e => .error e
      | .ok tokens => .ok (⟨lx.kind, start, stop⟩ :: tokens)
termination_by cs.length
decreasing_by
  have h1 := length_skipSpace_le pos cs
  have h2 := Lexeme.length_rest_lt _hl
  simp only [_hs] at h1
  omega

/-- The tokens of a text, or the first place where there is none. -/
def tokenize (cs : List Char) : Except ParseError (List Token) := tokensFrom 0 cs

end Bindery
