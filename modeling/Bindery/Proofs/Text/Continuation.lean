import Bindery.Text.Continuation

/-!
# Joining lines

`joinLines` goes through a text character by character: a continuation becomes a space, and a blank
is kept unless only blanks stand between it and a continuation. A word without line ends that ends
in neither a blank nor a backslash is left as it is (`Solid.joinLines_append`).
-/

namespace Bindery.Text

variable {c : Char} {w cs next : List Char}

/-! ### Trimming -/

theorem trimEnd_cons (c : Char) (cs : List Char) :
    trimEnd (c :: cs) = if trimEnd cs = [] ∧ isBlank c then [] else c :: trimEnd cs := by
  rw [trimEnd]
  rcases trimEnd cs with _ | ⟨d, ds⟩ <;> simp

theorem trimEnd_cons_of_not_blank (hc : isBlank c = false) (cs : List Char) :
    trimEnd (c :: cs) = c :: trimEnd cs := by
  rw [trimEnd_cons, if_neg (by simp [hc])]

theorem trimStart_cons_of_blank (hc : isBlank c) (cs : List Char) :
    trimStart (c :: cs) = trimStart cs := List.dropWhile_cons_of_pos hc

theorem trimStart_cons_of_not_blank (hc : isBlank c = false) (cs : List Char) :
    trimStart (c :: cs) = c :: cs := List.dropWhile_cons_of_neg (by simp [hc])

theorem trimStart_trimEnd (cs : List Char) : trimStart (trimEnd cs) = trimEnd (trimStart cs) := by
  induction cs with
  | nil => rfl
  | cons c cs ih =>
    by_cases hc : isBlank c
    · rw [trimStart_cons_of_blank hc, ← ih, trimEnd_cons]
      split
      · next h => rw [h.1]
      · exact trimStart_cons_of_blank hc _
    · have hc : isBlank c = false := by simpa using hc
      rw [trimEnd_cons_of_not_blank hc, trimStart_cons_of_not_blank hc,
        trimStart_cons_of_not_blank hc, trimEnd_cons_of_not_blank hc]

theorem head?_trimEnd (cs : List Char) : ∀ c ∈ (trimEnd cs).head?, c ∈ cs.head? := by
  rcases cs with _ | ⟨d, cs⟩
  · exact fun _ h => h
  · intro c hc
    rw [trimEnd_cons] at hc
    split at hc
    · cases hc
    · exact hc

/-! ### Continuations -/

theorem joinLines_nil : joinLines [] = [] := by
  rw [joinLines]
  rfl

/-- The recursion of `joinLines`, without the proof that it ends. -/
theorem joinLines_eq (cs : List Char) : joinLines cs =
    match cs.dropWhile (· != '\\') with
    | [] => cs
    | _ :: after => match afterLineEnd? after with
      | some next => trimEnd (cs.takeWhile (· != '\\')) ++ ' ' :: joinLines (trimStart next)
      | none => cs.takeWhile (· != '\\') ++ '\\' :: joinLines after := by
  rw [joinLines]
  split
  · next h => rw [h]
  · next h =>
    rw [h]
    dsimp only
    split <;> next hn => rw [hn]

/-- The text goes on in the next line, after blanks at most. -/
inductive Continues : List Char → Prop where
  | here {as bs} (h : afterLineEnd? as = some bs) : Continues ('\\' :: as)
  | blank {b bs} (hb : isBlank b) (h : Continues bs) : Continues (b :: bs)

theorem joinLines_continuation (h : afterLineEnd? cs = some next) :
    joinLines ('\\' :: cs) = ' ' :: joinLines (trimStart next) := by
  rw [joinLines_eq, List.dropWhile_cons_of_neg (by simp)]
  simp only [h]
  rfl

theorem joinLines_backslash (h : afterLineEnd? cs = none) :
    joinLines ('\\' :: cs) = '\\' :: joinLines cs := by
  rw [joinLines_eq, List.dropWhile_cons_of_neg (by simp)]
  simp only [h]
  rfl

theorem ne_backslash_of_isBlank (h : isBlank c) : c ≠ '\\' := by
  rintro rfl
  cases h

theorem continues_iff : Continues cs ↔ ∃ after next,
    cs.dropWhile (· != '\\') = '\\' :: after ∧ trimEnd (cs.takeWhile (· != '\\')) = [] ∧
      afterLineEnd? after = some next := by
  constructor
  · intro h
    induction h with
    | here h => exact ⟨_, _, List.dropWhile_cons_of_neg (by simp), rfl, h⟩
    | blank hb _ ih =>
      obtain ⟨after, next, hd, ht, hn⟩ := ih
      have hne := ne_backslash_of_isBlank hb
      refine ⟨after, next, ?_, ?_, hn⟩
      · rw [List.dropWhile_cons_of_pos (by simpa using hne), hd]
      · rw [List.takeWhile_cons_of_pos (by simpa using hne), trimEnd_cons, if_pos ⟨ht, hb⟩]
  · rintro ⟨after, next, hd, ht, hn⟩
    induction cs with
    | nil => cases hd
    | cons c cs ih =>
      by_cases hc : c = '\\'
      · subst hc
        rw [List.dropWhile_cons_of_neg (by simp)] at hd
        cases hd
        exact .here hn
      · rw [List.dropWhile_cons_of_pos (by simpa using hc)] at hd
        rw [List.takeWhile_cons_of_pos (by simpa using hc), trimEnd_cons] at ht
        split at ht
        · next hb => exact .blank hb.2 (ih hd hb.1)
        · cases ht

theorem joinLines_cons_of_continues (hc : isBlank c) (h : Continues cs) :
    joinLines (c :: cs) = joinLines cs := by
  have hne := ne_backslash_of_isBlank hc
  obtain ⟨after, next, hd, ht, hn⟩ := continues_iff.mp h
  rw [joinLines_eq (c :: cs), joinLines_eq cs, List.dropWhile_cons_of_pos (by simpa using hne),
    List.takeWhile_cons_of_pos (by simpa using hne), hd]
  simp only [hn]
  rw [trimEnd_cons, if_pos ⟨ht, hc⟩, ht]

/-- A character is kept, unless it is one of the blanks before a continuation. -/
theorem joinLines_cons (hc : c ≠ '\\') (h : isBlank c → ¬ Continues cs) :
    joinLines (c :: cs) = c :: joinLines cs := by
  rw [joinLines_eq (c :: cs), joinLines_eq cs, List.dropWhile_cons_of_pos (by simpa using hc),
    List.takeWhile_cons_of_pos (by simpa using hc)]
  rcases hd : cs.dropWhile (· != '\\') with _ | ⟨b, after⟩
  · rfl
  · obtain rfl : b = '\\' := by
      have := List.head?_dropWhile_not (· != '\\') cs
      rw [hd] at this
      simpa using this
    rcases hn : afterLineEnd? after with _ | next
    · simp only [hn]
      rfl
    · simp only [hn]
      rw [trimEnd_cons, if_neg]
      · rfl
      · exact fun ⟨ht, hb⟩ => h hb (continues_iff.mpr ⟨after, next, hd, ht, hn⟩)

theorem exists_joinLines_of_continues (h : Continues cs) : ∃ rest, joinLines cs = ' ' :: rest := by
  induction h with
  | here h => exact ⟨_, joinLines_continuation h⟩
  | blank hb h ih => rwa [joinLines_cons_of_continues hb h]

theorem head?_joinLines (cs : List Char) : ∀ c ∈ (joinLines cs).head?, c ∈ cs.head? ∨ c = ' ' := by
  by_cases h : Continues cs
  · obtain ⟨rest, hr⟩ := exists_joinLines_of_continues h
    rw [hr]
    rintro c ⟨⟩
    exact .inr rfl
  · rcases cs with _ | ⟨d, cs⟩
    · rw [joinLines_nil]
      nofun
    · by_cases hd : d = '\\'
      · subst hd
        rcases hn : afterLineEnd? cs with _ | next
        · rw [joinLines_backslash hn]
          exact fun c hc => .inl hc
        · exact absurd (.here hn) h
      · rw [joinLines_cons hd fun hb hc => h (.blank hb hc)]
        exact fun c hc => .inl hc

/-! ### Words that are left as they are -/

/-- Neither a blank nor a backslash. -/
def isInk (c : Char) : Bool := !isBlank c && c != '\\'

theorem isBlank_of_isInk (h : isInk c) : isBlank c = false := by
  simp only [isInk, Bool.and_eq_true, Bool.not_eq_true'] at h
  exact h.1

/-- A word without line ends that ends in neither a blank nor a backslash. -/
structure Solid (w : List Char) : Prop where
  line : '\n' ∉ w
  last : ∀ c ∈ w.getLast?, isInk c

namespace Solid

theorem tail (h : Solid (c :: w)) : Solid w := by
  refine ⟨fun hm => h.line (List.mem_cons_of_mem _ hm), fun d hd => h.last d ?_⟩
  rw [List.getLast?_cons, hd]
  rfl

theorem of_forall (h : ∀ c ∈ w, isInk c) : Solid w :=
  ⟨fun hm => (by cases h _ hm), fun c hc => h c (List.mem_of_getLast? hc)⟩

theorem append_singleton (hw : '\n' ∉ w) (hc : isInk c) : Solid (w ++ [c]) := by
  refine ⟨fun hm => ?_, fun d hd => ?_⟩
  · rcases List.mem_append.mp hm with hm | hm
    · exact hw hm
    · obtain rfl := List.mem_singleton.mp hm
      cases hc
  · rw [List.getLast?_concat] at hd
    cases hd
    exact hc

theorem ne_nil_of_isBlank (h : Solid (c :: w)) (hc : isBlank c) : w ≠ [] := by
  rintro rfl
  rw [isBlank_of_isInk (h.last c rfl)] at hc
  cases hc

/-- No line end follows a backslash of the word. -/
theorem afterLineEnd?_append (h : Solid ('\\' :: w)) (cs : List Char) :
    afterLineEnd? (w ++ cs) = none := by
  match w, h with
  | [], h => cases h.last '\\' rfl
  | [d], h =>
    have hd := h.last d rfl
    rw [List.singleton_append, afterLineEnd?]
    all_goals
      intro cs he
      obtain rfl := (List.cons.inj he).1
      cases hd
  | d :: d' :: w, h =>
    have hd : '\n' ≠ d ∧ '\n' ≠ d' := by
      have := h.line
      simp only [List.mem_cons, not_or] at this
      exact ⟨this.2.1, this.2.2.1⟩
    rw [List.cons_append, List.cons_append, afterLineEnd?]
    · exact fun _ he => hd.1 (List.cons.inj he).1.symm
    · exact fun _ he => hd.2 (List.cons.inj (List.cons.inj he).2).1.symm

theorem not_continues (h : Solid w) (hne : w ≠ []) (cs : List Char) : ¬ Continues (w ++ cs) := by
  induction w with
  | nil => exact absurd rfl hne
  | cons c w ih =>
    rw [List.cons_append]
    intro hc
    cases hc with
    | here hn =>
      rw [h.afterLineEnd?_append cs] at hn
      cases hn
    | blank hb hc => exact ih h.tail (h.ne_nil_of_isBlank hb) hc

theorem joinLines_append (h : Solid w) (cs : List Char) :
    joinLines (w ++ cs) = w ++ joinLines cs := by
  induction w with
  | nil => rfl
  | cons c w ih =>
    rw [List.cons_append, List.cons_append, ← ih h.tail]
    by_cases hc : c = '\\'
    · subst hc
      exact joinLines_backslash (h.afterLineEnd?_append cs)
    · exact joinLines_cons hc fun hb => h.tail.not_continues (h.ne_nil_of_isBlank hb) cs

theorem trimEnd_append (h : Solid w) (cs : List Char) : trimEnd (w ++ cs) = w ++ trimEnd cs := by
  induction w with
  | nil => rfl
  | cons c w ih =>
    rw [List.cons_append, trimEnd_cons, ih h.tail, if_neg]
    · rfl
    · rintro ⟨hn, hb⟩
      exact h.ne_nil_of_isBlank hb (List.append_eq_nil_iff.mp hn).1

end Solid

end Bindery.Text
