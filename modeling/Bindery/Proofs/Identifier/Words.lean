import Bindery.Identifier.Spans
import Bindery.Proofs.Expr.Cursor

/-!
# What the words of a name are

A word has one of three shapes (`IsWord`) and is followed by a place where a word may end. In a name
of ASCII letters, digits and underscores some shape fits wherever a letter or digit begins a word,
because the longest run of lowercase letters and digits ends at such a place; so splitting loses
nothing but the underscores (`flatten_wordsOf`). Looking at bytes finds the same words as looking at
characters, and what it finds are slices of the name (`covered_spans`).
-/

namespace Bindery.Identifier

open Text Scanner

/-- The shapes of a word. -/
inductive IsWord : List Char → Prop where
  | upper {c : Char} {cs : List Char} (h : ∀ d ∈ c :: cs, isUpperOrDigit d = true) :
    IsWord (c :: cs)
  | capitalized {c : Char} {cs : List Char} (hc : c.isUpper = true)
    (h : ∀ d ∈ cs, isLowerOrDigit d = true) : IsWord (c :: cs)
  | lower {c : Char} {cs : List Char} (h : ∀ d ∈ c :: cs, isLowerOrDigit d = true) :
    IsWord (c :: cs)

variable {text cs w : List Char} {c : Char} {p : Char → Bool} {n pos : Nat}

/-! ### Characters -/

theorem isAlphanum_eq : c.isAlphanum = (c.isUpper || c.isLower || c.isDigit) := rfl

theorem isAlphanum_of_isUpper (h : c.isUpper = true) : c.isAlphanum = true := by
  simp [isAlphanum_eq, h]

theorem isAlphanum_of_isUpperOrDigit (h : isUpperOrDigit c = true) : c.isAlphanum = true := by
  rcases Bool.or_eq_true_iff.mp h with h | h <;> simp [isAlphanum_eq, h]

theorem isAlphanum_of_isLowerOrDigit (h : isLowerOrDigit c = true) : c.isAlphanum = true := by
  rcases Bool.or_eq_true_iff.mp h with h | h <;> simp [isAlphanum_eq, h]

/-- Uppercase letters, lowercase letters and digits are all the letters and digits there are. -/
theorem isAlphanum_iff : c.isAlphanum = true ↔ (c.isUpper || isLowerOrDigit c) = true := by
  rw [isAlphanum_eq, isLowerOrDigit, Bool.or_assoc]

theorem ascii_isAlphanum : Ascii Char.isAlphanum := .or ascii_isAlpha ascii_isDigit

theorem ascii_isUpper : Ascii Char.isUpper := fun c h => ascii_isAlphanum c (isAlphanum_of_isUpper h)

theorem ascii_isUpperOrDigit : Ascii isUpperOrDigit :=
  fun c h => ascii_isAlphanum c (isAlphanum_of_isUpperOrDigit h)

theorem ascii_isLowerOrDigit : Ascii isLowerOrDigit :=
  fun c h => ascii_isAlphanum c (isAlphanum_of_isLowerOrDigit h)

/-- The letters and digits of a name are its characters that are no underscores. -/
theorem isAlphanum_of_ne (h : isIdentContinue c = true) (hc : c ≠ '_') : c.isAlphanum = true := by
  rw [isIdentContinue, beq_eq_false_iff_ne.mpr hc] at h
  exact h

theorem bne_underscore (h : c.isAlphanum = true) : (c != '_') = true :=
  bne_iff_ne.mpr fun he => by
    rw [he] at h
    cases h

/-- Letters and digits have no underscores among them. -/
theorem filter_underscore (h : ∀ d ∈ cs, d.isAlphanum = true) : cs.filter (· != '_') = cs :=
  List.filter_eq_self.mpr fun d hd => bne_underscore (h d hd)

theorem IsWord.isAlphanum (h : IsWord w) : ∀ d ∈ w, d.isAlphanum = true := by
  cases h with
  | upper h => exact fun d hd => isAlphanum_of_isUpperOrDigit (h d hd)
  | capitalized hc h =>
    rw [List.forall_mem_cons]
    exact ⟨isAlphanum_of_isUpper hc, fun d hd => isAlphanum_of_isLowerOrDigit (h d hd)⟩
  | lower h => exact fun d hd => isAlphanum_of_isLowerOrDigit (h d hd)

theorem IsWord.ne_nil (h : IsWord w) : w ≠ [] := by
  cases h <;> exact List.cons_ne_nil _ _

/-! ### Runs -/

/-- What is taken of a run is of the run, and a word may end after it. -/
theorem of_runCut?_eq_some (h : runCut? p cs = some n) :
    n ≤ cs.length ∧ (∀ d ∈ cs.take n, p d = true) ∧ atBoundary (cs.drop n) = true := by
  induction cs generalizing n with
  | nil =>
    cases h
    exact ⟨Nat.le_refl _, List.forall_mem_nil _, rfl⟩
  | cons c cs ih =>
    rw [runCut?, Option.orElse_eq_orElse, Option.orElse_eq_or, Option.or_eq_some_iff] at h
    rcases h with h | ⟨-, h⟩
    · obtain ⟨hc, h⟩ := Option.ite_none_right_eq_some.mp h
      obtain ⟨m, hm, rfl⟩ := Option.map_eq_some_iff.mp h
      obtain ⟨hle, hrun, hend⟩ := ih hm
      exact ⟨Nat.succ_le_succ hle, List.forall_mem_cons.mpr ⟨hc, hrun⟩, hend⟩
    · obtain ⟨hend, h⟩ := Option.ite_none_right_eq_some.mp h
      cases h
      exact ⟨Nat.zero_le _, List.forall_mem_nil _, hend⟩

/-- A run after which a word may end need not be cut back to nothing. -/
theorem exists_runCut? (h : atBoundary (cs.dropWhile p) = true) : ∃ n, runCut? p cs = some n := by
  induction cs with
  | nil => exact ⟨0, rfl⟩
  | cons c cs ih =>
    rw [List.dropWhile_cons] at h
    rw [runCut?]
    split at h
    · next hc =>
      obtain ⟨n, hn⟩ := ih h
      exact ⟨n + 1, by rw [if_pos hc, hn]; rfl⟩
    · next hc => exact ⟨0, by rw [if_neg hc, if_pos h]; rfl⟩

/-! ### Words -/

theorem of_wordCut?_eq_some (h : wordCut? c cs = some n) :
    n ≤ cs.length ∧ IsWord (c :: cs.take n) ∧ atBoundary (cs.drop n) = true := by
  simp only [wordCut?, Option.orElse_eq_orElse, Option.orElse_eq_or, Option.or_eq_some_iff,
    Option.ite_none_right_eq_some] at h
  rcases h with ⟨hc, h⟩ | ⟨-, ⟨hc, h⟩ | ⟨-, hc, h⟩⟩
  · obtain ⟨hle, hrun, hend⟩ := of_runCut?_eq_some h
    exact ⟨hle, .upper (List.forall_mem_cons.mpr ⟨hc, hrun⟩), hend⟩
  · obtain ⟨hle, hrun, hend⟩ := of_runCut?_eq_some h
    exact ⟨hle, .capitalized hc hrun, hend⟩
  · obtain ⟨hle, hrun, hend⟩ := of_runCut?_eq_some h
    exact ⟨hle, .lower (List.forall_mem_cons.mpr ⟨hc, hrun⟩), hend⟩

/-- What is no letter or digit begins no word. -/
theorem wordCut?_of_not_isAlphanum (hc : c.isAlphanum = false) (cs : List Char) :
    wordCut? c cs = none := by
  obtain ⟨hu, hl, hd⟩ : c.isUpper = false ∧ c.isLower = false ∧ c.isDigit = false := by
    simpa [isAlphanum_eq, and_assoc] using hc
  simp [wordCut?, isUpperOrDigit, isLowerOrDigit, hu, hl, hd]

/-- A letter or digit begins a word where a word may end after the lowercase letters and digits. -/
theorem exists_wordCut? (hc : c.isAlphanum = true)
    (h : atBoundary (cs.dropWhile isLowerOrDigit) = true) : ∃ n, wordCut? c cs = some n := by
  obtain ⟨n, hn⟩ := exists_runCut? h
  cases hw : wordCut? c cs with
  | some m => exact ⟨m, rfl⟩
  | none => rw [runCut?_lower_eq_none (isAlphanum_iff.mp hc) hw] at hn; cases hn

theorem atBoundary_dropWhile (h : ∀ d ∈ cs, isIdentContinue d = true) :
    atBoundary (cs.dropWhile isLowerOrDigit) = true := by
  induction cs with
  | nil => rfl
  | cons c cs ih =>
    obtain ⟨hc, hcs⟩ := List.forall_mem_cons.mp h
    rw [List.dropWhile_cons]
    split
    · exact ih hcs
    · next hl =>
      by_cases he : c = '_'
      · rw [he]
        rfl
      · have hu := isAlphanum_iff.mp (isAlphanum_of_ne hc he)
        rw [Bool.not_eq_true] at hl
        rw [hl, Bool.or_false] at hu
        rw [atBoundary, hu, Bool.true_or]

theorem isWord_of_mem_wordsOf : ∀ {cs : List Char}, ∀ w ∈ wordsOf cs, IsWord w
  | [], w, hw => by
    rw [wordsOf] at hw
    cases hw
  | c :: cs, w, hw => by
    rw [wordsOf_cons] at hw
    split at hw
    · next n hn =>
      rcases List.mem_cons.mp hw with rfl | hw
      · exact (of_wordCut?_eq_some hn).2.1
      · exact isWord_of_mem_wordsOf w hw
    · exact isWord_of_mem_wordsOf w hw
termination_by cs => cs.length
decreasing_by all_goals simp only [List.length_drop, List.length_cons]; omega

/-- Splitting loses nothing but the underscores. -/
theorem flatten_wordsOf : ∀ {cs : List Char}, (∀ d ∈ cs, isIdentContinue d = true) →
    (wordsOf cs).flatten = cs.filter (· != '_')
  | [], _ => by
    rw [wordsOf]
    rfl
  | c :: cs, h => by
    obtain ⟨hc, hcs⟩ := List.forall_mem_cons.mp h
    rw [wordsOf_cons]
    cases hw : wordCut? c cs with
    | some n =>
      have hword := (of_wordCut?_eq_some hw).2.1
      calc ((c :: cs.take n) :: wordsOf (cs.drop n)).flatten
        _ = (c :: cs.take n) ++ (cs.drop n).filter (· != '_') := by
          rw [List.flatten_cons, flatten_wordsOf fun d hd => hcs d (List.mem_of_mem_drop hd)]
        _ = (c :: cs.take n ++ cs.drop n).filter (· != '_') := by
          rw [List.filter_append, filter_underscore hword.isAlphanum]
        _ = (c :: cs).filter (· != '_') := by
          rw [List.cons_append, List.take_append_drop]
    | none =>
      -- a letter or digit would begin a word
      have he : c = '_' := Decidable.of_not_not fun hne => by
        obtain ⟨n, hn⟩ := exists_wordCut? (isAlphanum_of_ne hc hne) (atBoundary_dropWhile hcs)
        rw [hw] at hn
        cases hn
      rw [he]
      exact flatten_wordsOf hcs
termination_by cs => cs.length
decreasing_by all_goals simp only [List.length_drop, List.length_cons]; omega

/-! ### Words among the bytes -/

theorem mayEnd_at (h : At text pos cs) : mayEnd text pos = atBoundary cs := by
  unfold mayEnd
  cases cs with
  | nil =>
    rw [h.byte?_nil]
    rfl
  | cons c cs =>
    by_cases hc : c.toNat < 0x80
    · rw [h.byte?_of_ascii hc]
      rfl
    · have hc := Nat.not_lt.mp hc
      have hend : Ascii fun b : Char => b.isUpper || b == '_' :=
        .or ascii_isUpper (ascii_beq (by decide))
      obtain ⟨b, hb, hle⟩ := h.byte?_inside hc c.utf8Size_pos
      rw [Nat.add_zero] at hb
      rw [hb]
      exact (hend.eq_false hle).trans (hend.eq_false hc).symm

/-- The first of the offsets is looked at last. -/
theorem lastEnd?_succ (text : List Char) (first n : Nat) : lastEnd? text first (n + 1) =
    (lastEnd? text (first + 1) n).or (if mayEnd text first then some first else none) := by
  induction n with
  | zero =>
    rw [lastEnd?, lastEnd?, lastEnd?]
    split <;> rfl
  | succ n ih =>
    rw [lastEnd?, ih, lastEnd?, show first + 1 + (n + 1) = first + (n + 1 + 1) by omega]
    split <;> rfl

theorem lastEnd?_at (hp : Ascii p) : ∀ {cs : List Char} {pos : Nat}, At text pos cs →
    lastEnd? text pos (byteLength (cs.takeWhile p)) = (runCut? p cs).map (pos + ·)
  | [], pos, h => by
    rw [List.takeWhile_nil, byteLength_nil, lastEnd?, mayEnd_at h]
    rfl
  | c :: cs, pos, h => by
    rw [List.takeWhile_cons, runCut?]
    split
    · next hc =>
      rw [byteLength_cons, utf8Size_of_ascii (hp c hc), Nat.add_comm, lastEnd?_succ,
        lastEnd?_at hp (h.next (hp c hc)), mayEnd_at h]
      cases runCut? p cs with
      | some n => simp [Nat.add_assoc, Nat.add_comm 1 n]
      | none => simp only [Option.map_none]; split <;> rfl
    · rw [byteLength_nil, lastEnd?, mayEnd_at h]
      split <;> rfl

theorem runEnd?_at (hp : Ascii p) (h : At text pos cs) :
    runEnd? text p pos = (runCut? p cs).map (pos + ·) := by
  rw [runEnd?, skipWhile_at hp h, Nat.add_sub_cancel_left, lastEnd?_at hp h]

/-- Where a character in ASCII begins, the bytes show the word that the characters show. -/
theorem wordEnd?_at (h : At text pos (c :: cs)) (hc : c.toNat < 0x80) :
    wordEnd? text pos = (wordCut? c cs).map (pos + 1 + ·) := by
  have hnext := h.next hc
  have hite : ∀ (b : Bool) (x : Option Nat),
      (if b then x.map (pos + 1 + ·) else none) = (if b then x else none).map (pos + 1 + ·) := by
    rintro (_ | _) x <;> rfl
  rw [wordEnd?, wordCut?, holds_at h ascii_isUpperOrDigit, holds_at h ascii_isUpper,
    holds_at h ascii_isLowerOrDigit, runEnd?_at ascii_isUpperOrDigit hnext,
    runEnd?_at ascii_isLowerOrDigit hnext, hite, hite, hite]
  simp only [Option.orElse_eq_orElse, Option.orElse_eq_or, Option.map_or]
  rfl

/-- No byte of a character outside ASCII begins a word. -/
theorem wordEnd?_inside {k : Nat} (h : At text pos (c :: cs)) (hc : 0x80 ≤ c.toNat)
    (hk : k < c.utf8Size) : wordEnd? text (pos + k) = none := by
  obtain ⟨b, hb, hle⟩ := h.byte?_inside hc hk
  have hfalse : ∀ {q : Char → Bool}, Ascii q → holds text q (pos + k) = false := fun hq => by
    rw [holds, hb]
    exact hq.eq_false hle
  rw [wordEnd?, hfalse ascii_isUpperOrDigit, hfalse ascii_isUpper, hfalse ascii_isLowerOrDigit]
  rfl

/-- From the offset on, the words lie at the spans, one after the other, and each is followed by a
place where a word may end. -/
inductive Covered (text : List Char) : Nat → List Span → List (List Char) → Prop where
  | nil {pos : Nat} : Covered text pos [] []
  | cons {pos : Nat} {s : Span} {ss : List Span} {w rest : List Char} {ws : List (List Char)}
    (le : pos ≤ s.start) (lt : s.start < s.stop)
    (slice : slice? text s.start s.stop = some w) (word : IsWord w)
    (after : At text s.stop rest) (boundary : atBoundary rest = true)
    (more : Covered text s.stop ss ws) : Covered text pos (s :: ss) (w :: ws)

namespace Covered

variable {ss : List Span} {ws : List (List Char)}

theorem mono {pos' : Nat} (h : Covered text pos ss ws) (hle : pos' ≤ pos) :
    Covered text pos' ss ws := by
  cases h with
  | nil => exact .nil
  | cons le lt slice word after boundary more =>
    exact .cons (Nat.le_trans hle le) lt slice word after boundary more

theorem mapM_slice? (h : Covered text pos ss ws) :
    ss.mapM (fun s => slice? text s.start s.stop) = some ws := by
  induction h with
  | nil => rfl
  | cons _ _ slice _ _ _ _ ih =>
    rw [List.mapM_cons, slice, ih]
    rfl

theorem le_start (h : Covered text pos ss ws) : ∀ s ∈ ss, pos ≤ s.start := by
  induction h with
  | nil => nofun
  | cons le lt _ _ _ _ _ ih =>
    refine List.forall_mem_cons.mpr ⟨le, fun s hs => ?_⟩
    exact Nat.le_trans (Nat.le_trans le (Nat.le_of_lt lt)) (ih s hs)

theorem pairwise (h : Covered text pos ss ws) : ss.Pairwise fun s t => s.stop ≤ t.start := by
  induction h with
  | nil => exact .nil
  | cons _ _ _ _ _ _ more ih => exact .cons more.le_start ih

theorem of_mem (h : Covered text pos ss ws) : ∀ s ∈ ss, s.start < s.stop ∧ ∃ w rest,
    slice? text s.start s.stop = some w ∧ IsWord w ∧
    At text s.stop rest ∧ atBoundary rest = true := by
  induction h with
  | nil => nofun
  | cons _ lt slice word after boundary _ ih =>
    exact List.forall_mem_cons.mpr ⟨⟨lt, _, _, slice, word, after, boundary⟩, ih⟩

end Covered

theorem byteLength_of_ascii (h : ∀ d ∈ cs, d.toNat < 0x80) : byteLength cs = cs.length := by
  induction cs with
  | nil => rfl
  | cons c cs ih =>
    obtain ⟨hc, hcs⟩ := List.forall_mem_cons.mp h
    rw [byteLength_cons, utf8Size_of_ascii hc, ih hcs, List.length_cons, Nat.add_comm]

theorem spans_of_some {stop : Nat} (hpos : pos < (bytes text).length)
    (h : wordEnd? text pos = some stop) : spans text pos = ⟨pos, stop⟩ :: spans text stop := by
  rw [spans, if_pos hpos]
  split
  · next hs =>
    cases h.symm.trans hs
    rfl
  · next hn => cases h.symm.trans hn

theorem spans_of_none (hpos : pos < (bytes text).length) (h : wordEnd? text pos = none) :
    spans text pos = spans text (pos + 1) := by
  rw [spans, if_pos hpos]
  split
  · next hs => cases h.symm.trans hs
  · rfl

/-- A character outside ASCII is passed over, byte by byte. -/
theorem spans_inside (h : At text pos (c :: cs)) (hc : 0x80 ≤ c.toNat) :
    ∀ {k : Nat}, k ≤ c.utf8Size → spans text pos = spans text (pos + k)
  | 0, _ => rfl
  | k + 1, hk => by
    have hlt : pos + k < (bytes text).length := by
      rw [h.length, byteLength_cons]
      omega
    rw [spans_inside h hc (Nat.le_of_succ_le hk), spans_of_none hlt (wordEnd?_inside h hc hk)]
    rfl

theorem covered_spans : ∀ {cs : List Char} {pos : Nat}, At text pos cs →
    Covered text pos (spans text pos) (wordsOf cs)
  | [], pos, h => by
    have hstop : (bytes text).length = pos := h.length
    rw [spans, if_neg (Nat.not_lt.mpr (Nat.le_of_eq hstop)), wordsOf]
    exact .nil
  | c :: cs, pos, h => by
    have hpos : pos < (bytes text).length := by
      have := c.utf8Size_pos
      rw [h.length, byteLength_cons]
      omega
    rw [wordsOf_cons]
    by_cases hc : c.toNat < 0x80
    · have hend := wordEnd?_at h hc
      cases hw : wordCut? c cs with
      | none =>
        rw [hw] at hend
        rw [spans_of_none hpos hend]
        exact (covered_spans (h.next hc)).mono (Nat.le_succ pos)
      | some n =>
        rw [hw] at hend
        obtain ⟨hle, hword, hbound⟩ := of_wordCut?_eq_some hw
        have hbytes : byteLength (c :: cs.take n) = 1 + n := by
          rw [byteLength_of_ascii fun d hd => ascii_isAlphanum d (hword.isAlphanum d hd),
            List.length_cons, List.length_take_of_le hle, Nat.add_comm]
        have hat : At text pos ((c :: cs.take n) ++ cs.drop n) := by
          rwa [List.cons_append, List.take_append_drop]
        have hslice := hat.slice?
        have hafter := hat.shift
        rw [hbytes, ← Nat.add_assoc] at hslice hafter
        rw [spans_of_some hpos hend]
        exact .cons (Nat.le_refl pos) (by dsimp only; omega) hslice hword hafter hbound
          (covered_spans hafter)
    · have hc := Nat.not_lt.mp hc
      have hnone : c.isAlphanum = false := ascii_isAlphanum.eq_false hc
      rw [wordCut?_of_not_isAlphanum hnone, spans_inside h hc (Nat.le_refl _)]
      exact (covered_spans h.after).mono (Nat.le_add_right ..)
termination_by cs => cs.length
decreasing_by all_goals simp only [List.length_drop, List.length_cons]; omega

/-- **Splitting into words loses nothing.** Among the bytes of any text the words are slices of it,
one after the other, so none of them cuts a character; each has one of the three shapes and stands
right before an uppercase letter, an underscore or the end. Of a name made up of ASCII letters,
digits and underscores they are all but the underscores. -/
theorem words_lose_nothing (name : String) :
    let text := name.toList
    (spans text 0).mapM (fun s => slice? text s.start s.stop) =
      some ((words name).map String.toList) ∧
    (spans text 0).Pairwise (fun s t => s.stop ≤ t.start) ∧
    (∀ s ∈ spans text 0, s.start < s.stop ∧ IsBoundary text s.start ∧ IsBoundary text s.stop ∧
      ∃ w rest, slice? text s.start s.stop = some w ∧ IsWord w ∧
        At text s.stop rest ∧ atBoundary rest = true) ∧
    ((∀ c ∈ text, isIdentContinue c = true) →
      String.join (words name) = String.ofList (text.filter (· != '_'))) := by
  intro text
  have hcov := covered_spans (At.zero text)
  have hwords : (words name).map String.toList = wordsOf text := by
    rw [words, List.map_map]
    exact (List.map_congr_left fun w _ => String.toList_ofList).trans (List.map_id _)
  refine ⟨hwords ▸ hcov.mapM_slice?, hcov.pairwise, fun s hs => ?_, fun hname => ?_⟩
  · obtain ⟨hlt, w, rest, hslice, hw⟩ := hcov.of_mem s hs
    obtain ⟨-, hstart, hstop⟩ := isSome_slice?_iff.mp (Option.isSome_of_eq_some hslice)
    exact ⟨hlt, hstart, hstop, w, rest, hslice, hw⟩
  · apply String.toList_inj.mp
    rw [String.toList_join, List.flatMap_def, hwords, flatten_wordsOf hname, String.toList_ofList]

end Bindery.Identifier
