import Bindery.Proofs.Text.Continuation

/-!
# Folded texts

Folding leaves no continuation and no blank at either end. The other characters stay as they are and
in their order, the backslashes of the continuations excepted (`visible`). So a folded text is folded
for good: `foldContinuations_complete`.

Trimming brings characters together that were apart. A backslash that stays does not get a line end
behind it all the same: what comes right after it is what came there before, or a space
(`afterLineEnd?_joinLines`).
-/

namespace Bindery.Text

variable {c : Char} {as cs next : List Char}

/-! ### Trimmed texts -/

theorem trimEnd_isPrefix (cs : List Char) : trimEnd cs <+: cs := by
  induction cs with
  | nil => exact List.prefix_refl _
  | cons c cs ih =>
    rw [trimEnd_cons]
    split
    · exact List.nil_prefix
    · exact (List.prefix_cons_inj c).mpr ih

theorem trim_isInfix (cs : List Char) : trim cs <:+: cs :=
  (trimEnd_isPrefix _).isInfix.trans (List.dropWhile_suffix _).isInfix

theorem head?_trimStart (cs : List Char) : (trimStart cs).head?.any isBlank = false := by
  have h := List.head?_dropWhile_not isBlank cs
  rw [trimStart]
  cases hd : (cs.dropWhile isBlank).head? with
  | none => rfl
  | some c =>
    rw [hd] at h
    exact h

theorem head?_trim (cs : List Char) : (trim cs).head?.any isBlank = false := by
  cases hd : (trim cs).head? with
  | none => rfl
  | some c =>
    have h := head?_trimStart cs
    rwa [head?_trimEnd _ c hd] at h

theorem getLast?_trimEnd (cs : List Char) : (trimEnd cs).getLast?.any isBlank = false := by
  induction cs with
  | nil => rfl
  | cons c cs ih =>
    rw [trimEnd_cons]
    split
    · rfl
    · next h =>
      rw [List.getLast?_cons]
      cases hl : (trimEnd cs).getLast? with
      | none => simpa [List.getLast?_eq_none_iff.mp hl] using h
      | some d =>
        rw [hl] at ih
        exact ih

theorem trimEnd_trimEnd (cs : List Char) : trimEnd (trimEnd cs) = trimEnd cs := by
  induction cs with
  | nil => rfl
  | cons c cs ih =>
    rw [trimEnd_cons]
    split
    · rfl
    · next h => rw [trimEnd_cons, ih, if_neg h]

theorem trimStart_trimStart (cs : List Char) : trimStart (trimStart cs) = trimStart cs := by
  induction cs with
  | nil => rfl
  | cons c cs ih =>
    by_cases hc : isBlank c
    · rw [trimStart_cons_of_blank hc, ih]
    · rw [trimStart_cons_of_not_blank (by simpa using hc),
        trimStart_cons_of_not_blank (by simpa using hc)]

theorem trim_trim (cs : List Char) : trim (trim cs) = trim cs := by
  rw [trim, trim, trimStart_trimEnd, trimStart_trimStart, trimEnd_trimEnd]

theorem filter_trimStart (cs : List Char) :
    (trimStart cs).filter (!isBlank ·) = cs.filter (!isBlank ·) := by
  induction cs with
  | nil => rfl
  | cons c cs ih =>
    by_cases hc : isBlank c
    · rw [trimStart_cons_of_blank hc, ih, List.filter_cons_of_neg (by simp [hc])]
    · rw [trimStart_cons_of_not_blank (by simpa using hc)]

theorem filter_trimEnd (cs : List Char) :
    (trimEnd cs).filter (!isBlank ·) = cs.filter (!isBlank ·) := by
  induction cs with
  | nil => rfl
  | cons c cs ih =>
    rw [trimEnd_cons]
    split
    · next h => rw [List.filter_cons_of_neg (by simp [h.2]), ← ih, h.1]
    · rw [List.filter_cons, List.filter_cons, ih]

theorem filter_trim (cs : List Char) : (trim cs).filter (!isBlank ·) = cs.filter (!isBlank ·) := by
  rw [trim, filter_trimEnd, filter_trimStart]

/-! ### Texts without continuations -/

/-- No backslash stands right before a line end. -/
structure Joined (cs : List Char) : Prop where
  lf : ¬ ['\\', '\n'] <:+: cs
  crlf : ¬ ['\\', '\r', '\n'] <:+: cs

theorem afterLineEnd?_eq_some_iff :
    afterLineEnd? cs = some next ↔ cs = '\n' :: next ∨ cs = '\r' :: '\n' :: next := by
  constructor
  · intro h
    unfold afterLineEnd? at h
    split at h
    · cases h
      exact .inl rfl
    · cases h
      exact .inr rfl
    · cases h
  · rintro (rfl | rfl) <;> rfl

theorem afterLineEnd?_eq_none_iff :
    afterLineEnd? cs = none ↔ ¬ ['\n'] <+: cs ∧ ¬ ['\r', '\n'] <+: cs := by
  rw [Option.eq_none_iff_forall_ne_some, ← not_or]
  constructor
  · rintro h (⟨next, rfl⟩ | ⟨next, rfl⟩)
    · exact h next rfl
    · exact h next rfl
  · intro h next hn
    rcases afterLineEnd?_eq_some_iff.mp hn with rfl | rfl
    · exact h (.inl (List.prefix_append ['\n'] next))
    · exact h (.inr (List.prefix_append ['\r', '\n'] next))

namespace Joined

theorem nil : Joined [] := ⟨by simp, by simp⟩

theorem of_isInfix (h : Joined cs) (hi : as <:+: cs) : Joined as :=
  ⟨fun hl => h.lf (hl.trans hi), fun hl => h.crlf (hl.trans hi)⟩

theorem cons_iff : Joined (c :: cs) ↔ (c = '\\' → afterLineEnd? cs = none) ∧ Joined cs := by
  constructor
  · intro h
    refine ⟨?_, h.of_isInfix (List.suffix_cons c cs).isInfix⟩
    rintro rfl
    exact afterLineEnd?_eq_none_iff.mpr
      ⟨fun hp => h.lf ((List.prefix_cons_inj _).mpr hp).isInfix,
        fun hp => h.crlf ((List.prefix_cons_inj _).mpr hp).isInfix⟩
  · rintro ⟨hc, h⟩
    simp only [afterLineEnd?_eq_none_iff] at hc
    refine ⟨fun hi => ?_, fun hi => ?_⟩ <;> rcases List.infix_cons_iff.mp hi with hp | hi
    · obtain ⟨he, hp⟩ := List.cons_prefix_cons.mp hp
      exact (hc he.symm).1 hp
    · exact h.lf hi
    · obtain ⟨he, hp⟩ := List.cons_prefix_cons.mp hp
      exact (hc he.symm).2 hp
    · exact h.crlf hi

theorem not_continues (h : Joined cs) : ¬ Continues cs := by
  intro hc
  induction hc with
  | here hn =>
    rw [(cons_iff.mp h).1 rfl] at hn
    cases hn
  | blank _ _ ih => exact ih (cons_iff.mp h).2

end Joined

/-! ### Joining lines -/

/-- The cases that `joinLines` comes through, from the end of the text. -/
theorem joinLines_induction {motive : List Char → Prop} (nil : motive [])
    (fold : ∀ as next, afterLineEnd? as = some next → motive (trimStart next) → motive ('\\' :: as))
    (backslash : ∀ as, afterLineEnd? as = none → motive as → motive ('\\' :: as))
    (drop : ∀ c as, isBlank c → Continues as → motive as → motive (c :: as))
    (keep : ∀ c as, c ≠ '\\' → (isBlank c → ¬ Continues as) → motive as → motive (c :: as))
    (cs : List Char) : motive cs := by
  match cs with
  | [] => exact nil
  | c :: cs =>
    have ih : motive cs := joinLines_induction nil fold backslash drop keep cs
    by_cases hc : c = '\\'
    · subst hc
      cases hn : afterLineEnd? cs with
      | none => exact backslash cs hn ih
      | some next =>
        have := Nat.lt_of_le_of_lt (length_trimStart_le next) (length_afterLineEnd? hn)
        exact fold cs next hn (joinLines_induction nil fold backslash drop keep (trimStart next))
    · by_cases h : isBlank c ∧ Continues cs
      · exact drop c cs h.1 h.2 ih
      · exact keep c cs hc (not_and.mp h) ih
termination_by cs.length

/-- Joining lines does not put a line end where there is none. -/
theorem afterLineEnd?_joinLines (h : afterLineEnd? cs = none) :
    afterLineEnd? (joinLines cs) = none := by
  have newline : ∀ {as next}, joinLines as = '\n' :: next → ∃ rest, as = '\n' :: rest := by
    intro as next hj
    rcases head?_joinLines as '\n' (by rw [hj]; rfl) with hm | hm
    · exact List.head?_eq_some_iff.mp hm
    · cases hm
  rw [Option.eq_none_iff_forall_ne_some]
  intro next hn
  rcases afterLineEnd?_eq_some_iff.mp hn with hj | hj
  · obtain ⟨rest, rfl⟩ := newline hj
    cases h
  rcases head?_joinLines cs '\r' (by rw [hj]; rfl) with hm | hm
  · obtain ⟨rest, rfl⟩ := List.head?_eq_some_iff.mp hm
    by_cases hc : Continues rest
    · -- the blanks before a continuation are dropped, a carriage return among them
      obtain ⟨rest', hr⟩ := exists_joinLines_of_continues hc
      rw [joinLines_cons_of_continues rfl hc, hr] at hj
      cases hj
    · rw [joinLines_cons (by decide) fun _ => hc] at hj
      obtain ⟨rest', rfl⟩ := newline (List.cons.inj hj).2
      cases h
  · cases hm

theorem joined_joinLines (cs : List Char) : Joined (joinLines cs) := by
  induction cs using joinLines_induction with
  | nil =>
    rw [joinLines_nil]
    exact .nil
  | fold as next hn ih =>
    rw [joinLines_continuation hn]
    exact Joined.cons_iff.mpr ⟨nofun, ih⟩
  | backslash as hn ih =>
    rw [joinLines_backslash hn]
    exact Joined.cons_iff.mpr ⟨fun _ => afterLineEnd?_joinLines hn, ih⟩
  | drop c as hc hn ih => rwa [joinLines_cons_of_continues hc hn]
  | keep c as hc hn ih =>
    rw [joinLines_cons hc hn]
    exact Joined.cons_iff.mpr ⟨fun h => absurd h hc, ih⟩

/-- Without continuations there is nothing to join. -/
theorem Joined.joinLines_eq (h : Joined cs) : joinLines cs = cs := by
  induction cs using joinLines_induction with
  | nil => exact joinLines_nil
  | fold as next hn _ =>
    rw [(cons_iff.mp h).1 rfl] at hn
    cases hn
  | backslash as hn ih => rw [joinLines_backslash hn, ih (cons_iff.mp h).2]
  | drop c as _ hn _ => exact absurd hn (cons_iff.mp h).2.not_continues
  | keep c as hc hn ih => rw [joinLines_cons hc hn, ih (cons_iff.mp h).2]

/-! ### What is seen of a text -/

/-- The characters that are no blanks, without the backslashes right before a line end. -/
def visible : List Char → List Char
  | [] => []
  | c :: cs =>
    if isBlank c ∨ c = '\\' ∧ (afterLineEnd? cs).isSome then visible cs else c :: visible cs

theorem visible_cons_of_blank (hc : isBlank c) (cs : List Char) :
    visible (c :: cs) = visible cs := by
  rw [visible, if_pos (.inl hc)]

theorem visible_cons_of_not_blank (hc : isBlank c = false)
    (hn : c = '\\' → afterLineEnd? cs = none) : visible (c :: cs) = c :: visible cs := by
  rw [visible, if_neg]
  rintro (hb | ⟨hb, hs⟩)
  · rw [hc] at hb
    cases hb
  · rw [hn hb] at hs
    cases hs

theorem visible_continuation (hn : afterLineEnd? cs = some next) :
    visible ('\\' :: cs) = visible next := by
  rw [visible, if_pos (.inr ⟨rfl, by rw [hn]; rfl⟩)]
  rcases afterLineEnd?_eq_some_iff.mp hn with rfl | rfl
  · exact visible_cons_of_blank rfl next
  · rw [visible_cons_of_blank rfl, visible_cons_of_blank rfl]

theorem visible_trimStart (cs : List Char) : visible (trimStart cs) = visible cs := by
  induction cs with
  | nil => rfl
  | cons c cs ih =>
    by_cases hc : isBlank c
    · rw [trimStart_cons_of_blank hc, ih, visible_cons_of_blank hc]
    · rw [trimStart_cons_of_not_blank (by simpa using hc)]

theorem filter_joinLines (cs : List Char) : (joinLines cs).filter (!isBlank ·) = visible cs := by
  induction cs using joinLines_induction with
  | nil => rw [joinLines_nil, List.filter_nil, visible]
  | fold as next hn ih =>
    rw [joinLines_continuation hn, List.filter_cons_of_neg (by decide), ih, visible_trimStart,
      visible_continuation hn]
  | backslash as hn ih =>
    rw [joinLines_backslash hn, List.filter_cons_of_pos (by decide), ih,
      visible_cons_of_not_blank rfl fun _ => hn]
  | drop c as hc hn ih => rw [joinLines_cons_of_continues hc hn, ih, visible_cons_of_blank hc]
  | keep c as hc hn ih =>
    rw [joinLines_cons hc hn, List.filter_cons, ih]
    cases hb : isBlank c with
    | true => exact (visible_cons_of_blank hb as).symm
    | false => exact (visible_cons_of_not_blank hb fun h => absurd h hc).symm

/-! ### Folding -/

theorem joined_foldContinuations (cs : List Char) : Joined (foldContinuations cs) :=
  (joined_joinLines cs).of_isInfix (trim_isInfix _)

/-- A text without continuations is trimmed and no more. -/
theorem Joined.foldContinuations_eq (h : Joined cs) : foldContinuations cs = trim cs := by
  rw [foldContinuations, h.joinLines_eq]

/-- **Folding is complete.** In a folded text no backslash stands before a line end and no blank
stands at either end. Its other characters are those of the text, in order, without the backslashes
of continuations. Folding it again changes nothing. -/
theorem foldContinuations_complete (cs : List Char) :
    (¬ ['\\', '\n'] <:+: foldContinuations cs ∧ ¬ ['\\', '\r', '\n'] <:+: foldContinuations cs) ∧
    ((foldContinuations cs).head?.any isBlank = false ∧
      (foldContinuations cs).getLast?.any isBlank = false) ∧
    (foldContinuations cs).filter (!isBlank ·) = visible cs ∧
    foldContinuations (foldContinuations cs) = foldContinuations cs := by
  have h := joined_foldContinuations cs
  refine ⟨⟨h.lf, h.crlf⟩, ⟨head?_trim _, getLast?_trimEnd _⟩, ?_, ?_⟩
  · rw [foldContinuations, filter_trim, filter_joinLines]
  · rw [h.foldContinuations_eq, foldContinuations, trim_trim]

/-- The first backslash stands before a carriage return that is trimmed, not before a line end. -/
example : foldContinuations "\\\r\\\n\n\\\\\r\n x \\".toList = "\\ \\ x \\".toList := by cbv

end Bindery.Text
