import Bindery.Expr.Cursor
import Bindery.Proofs.Text.Slice

/-!
# Reading numbers by offset

The lexer that walks over bytes is compared, step by step, with the one that reads characters. Where
a token begins a character begins: `At text start (done ++ rest)` says that the characters `done`
have been passed over since `start` and that `rest` follows, so the cursor is at
`start + byteLength done`. A step looks for ASCII characters only and passes over ASCII characters
only, hence it finds what the characters show and ends where a character does. What is cut out is
then a slice of the text, and what a whole token comes to is what `settle` makes of reading it by
characters.
-/

namespace Bindery

open Text

/-! ### Characters that the lexer looks for -/

section Ascii

variable {p q : Char → Bool}

theorem ascii_beq {a : Char} (h : a.toNat < 0x80) : Ascii (· == a) :=
  fun _ hc => eq_of_beq hc ▸ h

theorem Text.Ascii.or (hp : Ascii p) (hq : Ascii q) : Ascii fun c => p c || q c :=
  fun c hc => (Bool.or_eq_true_iff.mp hc).elim (hp c) (hq c)

theorem ascii_beq_or {a b : Char} (ha : a.toNat < 0x80) (hb : b.toNat < 0x80) :
    Ascii fun c => c == a || c == b := .or (ascii_beq ha) (ascii_beq hb)

theorem ascii_of_le (last : Char) (hlast : last.toNat < 0x80) (h : ∀ c, p c = true → c ≤ last) :
    Ascii p := fun c hc => Nat.lt_of_le_of_lt (h c hc) hlast

theorem ascii_isDigit : Ascii Char.isDigit :=
  ascii_of_le '9' (by decide) fun _ h => of_decide_eq_true (Bool.and_eq_true_iff.mp h).2

theorem ascii_isAlpha : Ascii Char.isAlpha :=
  .or (ascii_of_le 'Z' (by decide) fun _ h => (of_decide_eq_true h).2)
    (ascii_of_le 'z' (by decide) fun _ h =>
      of_decide_eq_true (Bool.and_eq_true_iff.mp h).2)

theorem ascii_isIdentStart : Ascii isIdentStart := .or (ascii_beq (by decide)) ascii_isAlpha

theorem ascii_isIdentContinue : Ascii isIdentContinue :=
  .or (ascii_beq (by decide)) (.or ascii_isAlpha ascii_isDigit)

theorem ascii_isSuffixLetter : Ascii isSuffixLetter :=
  .or (.or (ascii_beq_or (by decide) (by decide)) (ascii_beq (by decide))) (ascii_beq (by decide))

theorem ascii_isSpace : Ascii isSpace :=
  .or (.or (.or (ascii_beq_or (by decide) (by decide)) (ascii_beq (by decide)))
    (ascii_beq (by decide))) (ascii_beq (by decide))

theorem Radix.ascii_isDigit : ∀ radix : Radix, Ascii radix.isDigit
  | decimal => Bindery.ascii_isDigit
  | octal => ascii_of_le '7' (by decide) fun _ h =>
    of_decide_eq_true (Bool.and_eq_true_iff.mp h).2
  | binary => ascii_beq_or (by decide) (by decide)
  | hex => .or (.or Bindery.ascii_isDigit (ascii_of_le 'f' (by decide) fun _ h =>
      of_decide_eq_true (Bool.and_eq_true_iff.mp h).2))
    (ascii_of_le 'F' (by decide) fun _ h =>
      of_decide_eq_true (Bool.and_eq_true_iff.mp h).2)

end Ascii

namespace Scanner

variable {text cs done rest : List Char} {p : Char → Bool} {pos pos' start : Nat} {α β : Type}

/-! ### Running steps -/

theorem bind_ok {m : Scanner α} {f : α → Scanner β} {a : α} (h : m pos = .ok (a, pos')) :
    (m >>= f) pos = f a pos' := by
  change Except.bind (m pos) _ = _
  rw [h]
  rfl

theorem bind_error {m : Scanner α} {f : α → Scanner β} {e : Halt} (h : m pos = .error e) :
    (m >>= f) pos = .error e := by
  change Except.bind (m pos) _ = _
  rw [h]
  rfl

theorem holds_at (h : At text pos rest) (hp : Ascii p) : holds text p pos = rest.head?.any p :=
  h.any_byte? hp

theorem skipWhile_at (hp : Ascii p) : ∀ {rest : List Char} {pos : Nat}, At text pos rest →
    skipWhile text p pos = pos + byteLength (rest.takeWhile p)
  | [], pos, h => by
    rw [skipWhile, holds_at h hp]
    rfl
  | c :: rest, pos, h => by
    rw [skipWhile, holds_at h hp, List.head?_cons, Option.any_some, List.takeWhile_cons]
    split
    · next hc =>
      rw [skipWhile_at hp (h.next (hp c hc)), byteLength_cons, utf8Size_of_ascii (hp c hc)]
      omega
    · rfl

theorem skipUpTo_at (hp : Ascii p) : ∀ (limit : Nat) {rest : List Char} {pos : Nat},
    At text pos rest →
    skipUpTo text p limit pos = pos + byteLength ((rest.take limit).takeWhile p)
  | 0, rest, pos, h => by
    rw [skipUpTo, List.take_zero]
    rfl
  | limit + 1, [], pos, h => by
    rw [skipUpTo, holds_at h hp]
    rfl
  | limit + 1, c :: rest, pos, h => by
    rw [skipUpTo, holds_at h hp, List.head?_cons, Option.any_some, List.take_succ_cons,
      List.takeWhile_cons]
    split
    · next hc =>
      rw [skipUpTo_at hp limit (h.next (hp c hc)), byteLength_cons, utf8Size_of_ascii (hp c hc)]
      omega
    · rfl

theorem slice_run {stop : Nat} (h : Text.slice? text start stop = some done) (pos : Nat) :
    slice text start stop pos = .ok (done, pos) := by
  unfold slice
  rw [h]
  rfl

theorem sliceFrom_run (h : At text start (done ++ rest)) :
    sliceFrom text start (start + byteLength done) = .ok (done, start + byteLength done) :=
  slice_run h.slice? _

theorem takeWhile_run (hp : Ascii p) (h : At text start (done ++ rest)) :
    takeWhile text p (start + byteLength done) =
      .ok (rest.takeWhile p, start + byteLength (done ++ rest.takeWhile p)) := by
  have hs : sliceFrom text (start + byteLength done) (skipWhile text p (start + byteLength done)) =
      .ok (rest.takeWhile p, start + byteLength (done ++ rest.takeWhile p)) := by
    rw [skipWhile_at hp h.shift, byteLength_append, ← Nat.add_assoc]
    have hr := h.shift
    rw [← List.takeWhile_append_dropWhile (p := p) (l := rest)] at hr
    exact sliceFrom_run hr
  exact hs

theorem advance_run {c : Char} (hc : c.toNat < 0x80) : advance 1 (start + byteLength done) =
    .ok (⟨⟩, start + byteLength (done ++ [c])) := by
  rw [byteLength_append, byteLength_cons, byteLength_nil, utf8Size_of_ascii hc]
  rfl

theorem ahead_bind {f : Bool → Scanner α} (hp : Ascii p) (h : At text start (done ++ rest)) :
    (ahead text 0 p >>= f) (start + byteLength done) =
      f (rest.head?.any p) (start + byteLength done) := by
  refine (bind_ok rfl).trans ?_
  rw [Nat.add_zero, holds_at h.shift hp]

/-- A malformed token is shown as far as the cursor. -/
theorem invalid_run (h : At text start (done ++ rest)) :
    (invalid text start : Scanner α) (start + byteLength done) =
      .error (.error (.invalidLiteral (String.ofList done) start)) := by
  refine (bind_ok rfl).trans ?_
  rw [h.slice?]
  rfl

/-- A malformed token is shown to the end of the text when the cursor is inside a character. -/
theorem invalid_inside {c : Char} {k : Nat} (h : At text start (done ++ c :: rest)) (hk : 0 < k)
    (hc : k < c.utf8Size) : (invalid text start : Scanner α) (start + byteLength done + k) =
      .error (.error (.invalidLiteral (String.ofList (done ++ c :: rest)) start)) := by
  refine (bind_ok rfl).trans ?_
  rw [h.slice?_inside hk hc]
  exact bind_ok (slice_run h.slice?_length _)

theorem any_head?_iff : rest.head?.any p = true ↔ rest.takeWhile p ≠ [] := by
  cases rest with
  | nil => simp
  | cons c rest => cases hc : p c <;> simp [hc]

theorem rejectIdentTail_ok (h : At text start (done ++ rest))
    (hr : rest.takeWhile isIdentContinue = []) :
    rejectIdentTail text start (start + byteLength done) =
      .ok (⟨⟩, start + byteLength done) := by
  refine (ahead_bind ascii_isIdentContinue h).trans ?_
  rw [if_neg (fun hc => any_head?_iff.mp hc hr)]
  rfl

theorem rejectIdentTail_error (h : At text start (done ++ rest))
    (hr : rest.takeWhile isIdentContinue ≠ []) :
    rejectIdentTail text start (start + byteLength done) = .error (.error (.invalidLiteral
      (String.ofList (done ++ rest.takeWhile isIdentContinue)) start)) := by
  refine (ahead_bind ascii_isIdentContinue h).trans ?_
  rw [if_pos (any_head?_iff.mpr hr)]
  refine (bind_ok (takeWhile_run ascii_isIdentContinue h)).trans ?_
  rw [← List.takeWhile_append_dropWhile (p := isIdentContinue) (l := rest),
    ← List.append_assoc] at h
  exact invalid_run h

/-! ### Numbers -/

/-- What a step makes of the token at `start` that is at the head of the rest of the text. -/
def settle (start : Nat) : Except LexFault Lexeme → Except Halt (TokenKind × Nat)
  | .ok lx => .ok (lx.kind, start + byteLength lx.spelling)
  | .error fault => .error (.error (fault.toError start))

theorem overflow_run (h : At text start (done ++ rest)) :
    (overflow text start : Scanner α) (start + byteLength done) =
      .error (.error (.overflow (String.ofList done) start)) :=
  bind_ok (sliceFrom_run h)

theorem integer_run {mark digits : List Char} (radix : Radix)
    (h : At text start (mark ++ digits ++ cs)) :
    integer text start digits radix (start + byteLength (mark ++ digits)) =
      settle start (scanInteger radix mark digits cs) := by
  refine (bind_ok (takeWhile_run ascii_isSuffixLetter h)).trans ?_
  have hs : At text start (mark ++ digits ++ cs.takeWhile isSuffixLetter ++
      cs.dropWhile isSuffixLetter) := by
    rwa [List.append_assoc (mark ++ digits), List.takeWhile_append_dropWhile]
  simp only [scanInteger]
  by_cases hr : (cs.dropWhile isSuffixLetter).takeWhile isIdentContinue = []
  · refine (bind_ok (rejectIdentTail_ok hs hr)).trans ?_
    rw [if_neg (not_not_intro hr)]
    have hbad : (invalid text start : Scanner TokenKind) _ = _ := invalid_run hs
    have hover : (overflow text start : Scanner TokenKind) _ = _ := overflow_run hs
    cases Suffix.ofChars? (cs.takeWhile isSuffixLetter) with
    | none => exact hbad
    | some suffix =>
      cases digits with
      | nil => exact hbad
      | cons d ds =>
        dsimp only
        rw [if_neg (List.cons_ne_nil d ds)]
        cases radix.readFrom 0 (d :: ds) with
        | error fault =>
          cases fault with
          | notADigit => exact hbad
          | tooLarge => exact hover
        | ok value =>
          dsimp only
          cases suffix.type? value radix with
          | none => exact hover
          | some ty => rfl
  · refine (bind_error (rejectIdentTail_error hs hr)).trans ?_
    rw [if_pos hr]
    rfl

theorem any_head?_beq {a : Char} : cs.head?.any (· == a) = true ↔ ∃ ds, cs = a :: ds := by
  cases cs with
  | nil => simp
  | cons c cs => simp

theorem any_head?_beq_or {a b : Char} : cs.head?.any (fun c => c == a || c == b) = true ↔
    (∃ ds, cs = a :: ds) ∨ ∃ ds, cs = b :: ds := by
  cases cs with
  | nil => simp
  | cons c cs => simp

theorem any_head?_beq_or_eq_false {a b : Char} (ha : ∀ ds, cs ≠ a :: ds) (hb : ∀ ds, cs ≠ b :: ds) :
    cs.head?.any (fun c => c == a || c == b) = false :=
  Bool.eq_false_iff.mpr fun hc => (any_head?_beq_or.mp hc).elim (·.elim ha) (·.elim hb)

theorem fraction_run (h : At text start (done ++ cs)) :
    fraction text (start + byteLength done) =
      .ok (⟨⟩, start + byteLength (done ++ (spanFraction cs).1)) := by
  refine (ahead_bind (ascii_beq (by decide)) h).trans ?_
  generalize hspan : spanFraction cs = span
  unfold spanFraction at hspan
  split at hspan
  · next cs =>
    rw [List.append_cons] at h
    subst hspan
    refine (bind_ok (advance_run (c := '.') (by decide))).trans ?_
    refine (bind_ok (takeWhile_run ascii_isDigit h)).trans ?_
    rw [List.append_assoc]
    rfl
  · next hc =>
    subst hspan
    rw [if_neg fun hp => (any_head?_beq.mp hp).elim hc, List.append_nil]
    rfl

theorem sign_run (h : At text start (done ++ cs)) :
    sign text (start + byteLength done) =
      .ok (⟨⟩, start + byteLength (done ++ (spanSign cs).1)) := by
  refine (ahead_bind (ascii_beq_or (by decide) (by decide)) h).trans ?_
  generalize hspan : spanSign cs = span
  unfold spanSign at hspan
  split at hspan
  · subst hspan
    exact advance_run (c := '+') (by decide)
  · subst hspan
    exact advance_run (c := '-') (by decide)
  · next hp hm =>
    subst hspan
    rw [any_head?_beq_or_eq_false hp hm, List.append_nil]
    rfl

theorem exponent_run (h : At text start (done ++ cs)) :
    exponent text start (start + byteLength done) =
      if (spanExponent cs).2.1 = true then
        .ok (⟨⟩, start + byteLength (done ++ (spanExponent cs).1))
      else .error (.error
        (.invalidLiteral (String.ofList (done ++ (spanExponent cs).1)) start)) := by
  refine (ahead_bind (ascii_beq_or (by decide) (by decide)) h).trans ?_
  cases cs with
  | nil =>
    rw [spanExponent, List.append_nil]
    rfl
  | cons e cs =>
    by_cases he : e = 'e' ∨ e = 'E'
    · have hascii : e.toNat < 0x80 := by rcases he with rfl | rfl <;> decide
      rw [List.append_cons] at h
      rw [if_pos (by simpa using he)]
      refine (bind_ok (advance_run hascii)).trans ((bind_ok (sign_run h)).trans ?_)
      rw [← spanSign_append cs, ← List.append_assoc] at h
      refine (bind_ok (takeWhile_run ascii_isDigit h)).trans ?_
      simp only [spanExponent, if_pos he]
      have hdone : done ++ (e :: (spanSign cs).1 ++ (spanSign cs).2.takeWhile Char.isDigit) =
          done ++ [e] ++ (spanSign cs).1 ++ (spanSign cs).2.takeWhile Char.isDigit := by simp
      rw [hdone]
      cases hd : (spanSign cs).2.takeWhile Char.isDigit with
      | nil =>
        rw [List.append_nil]
        exact invalid_run h
      | cons d ds => rfl
    · rw [if_neg (by simpa using he)]
      simp only [spanExponent, if_neg he, List.append_nil]
      rfl

theorem floatSuffix_run (h : At text start (done ++ cs)) :
    floatSuffix text (start + byteLength done) =
      .ok ((spanFloatSuffix cs).2.1, start + byteLength (done ++ (spanFloatSuffix cs).1)) := by
  refine (ahead_bind (ascii_beq_or (by decide) (by decide)) h).trans ?_
  refine (ahead_bind (ascii_beq_or (by decide) (by decide)) h).trans ?_
  generalize hspan : spanFloatSuffix cs = span
  unfold spanFloatSuffix at hspan
  split at hspan
  · subst hspan
    exact bind_ok (advance_run (c := 'f') (by decide))
  · subst hspan
    exact bind_ok (advance_run (c := 'F') (by decide))
  · subst hspan
    exact bind_ok (advance_run (c := 'l') (by decide))
  · subst hspan
    exact bind_ok (advance_run (c := 'L') (by decide))
  · next hf hF hl hL =>
    subst hspan
    rw [any_head?_beq_or_eq_false hf hF, any_head?_beq_or_eq_false hl hL, List.append_nil]
    rfl

theorem float_run {digits : List Char} (h : At text start (digits ++ cs)) :
    float text start (start + byteLength digits) = settle start (scanFloat digits cs) := by
  refine (bind_ok (fraction_run h)).trans ?_
  rw [← spanFraction_append cs, ← List.append_assoc] at h
  simp only [scanFloat]
  generalize (spanFraction cs).2 = cs at h ⊢
  generalize digits ++ (spanFraction _).1 = mantissa at h ⊢
  have hexp := exponent_run h
  rw [← spanExponent_append cs, ← List.append_assoc] at h
  generalize spanExponent cs = span at h hexp ⊢
  obtain ⟨exponent, valid, cs⟩ := span
  cases valid with
  | false => exact bind_error hexp
  | true =>
    refine (bind_ok hexp).trans ((bind_ok (sliceFrom_run h)).trans ?_)
    refine (bind_ok (floatSuffix_run h)).trans ?_
    dsimp only at h ⊢
    rw [← spanFloatSuffix_append cs, ← List.append_assoc] at h
    generalize spanFloatSuffix cs = span at h ⊢
    obtain ⟨suffix, single, cs⟩ := span
    by_cases hr : cs.takeWhile isIdentContinue = []
    · refine (bind_ok (rejectIdentTail_ok h hr)).trans ?_
      rw [if_neg (by decide), if_neg (not_not_intro hr)]
      rfl
    · refine (bind_error (rejectIdentTail_error h hr)).trans ?_
      rw [if_neg (by decide), if_pos hr]
      rfl

theorem startsFloatTail_at (h : At text pos cs) :
    startsFloatTail text pos = Bindery.startsFloatTail cs := by
  rw [startsFloatTail, holds_at h (ascii_beq (by decide)),
    holds_at h (ascii_beq_or (by decide) (by decide))]
  match cs with
  | [] => rfl
  | e :: cs =>
    by_cases hp : e = '.'
    · subst hp
      rfl
    by_cases he : e = 'e' ∨ e = 'E'
    · have hascii : e.toNat < 0x80 := by rcases he with rfl | rfl <;> decide
      have hs := h.next hascii
      rw [holds_at hs (ascii_beq_or (by decide) (by decide)), holds_at hs ascii_isDigit]
      match cs with
      | [] => rcases he with rfl | rfl <;> rfl
      | s :: cs =>
        by_cases hsign : s = '+' ∨ s = '-'
        · have hsascii : s.toNat < 0x80 := by rcases hsign with rfl | rfl <;> decide
          rw [holds_at (hs.next hsascii) ascii_isDigit]
          rcases he with rfl | rfl <;> rcases hsign with rfl | rfl <;> rfl
        · have hsign : (s == '+' || s == '-') = false := by simpa using hsign
          have hpoint : (e == '.') = false := beq_eq_false_iff_ne.mpr hp
          simp [Bindery.startsFloatTail, hsign, hpoint]
    · have hmark : (e == 'e' || e == 'E') = false := by simpa using he
      have hpoint : (e == '.') = false := beq_eq_false_iff_ne.mpr hp
      match cs with
      | [] => simp [Bindery.startsFloatTail, hp, hpoint, hmark]
      | s :: cs => simp [Bindery.startsFloatTail, hpoint, hmark]

/-- Two characters at the head announce a radix, or the number is read as a decimal one. -/
theorem radixMark?_cases (h : At text pos cs) :
    (radixMark? text pos = none ∧ scanNumber cs = scanDecimal cs) ∨
    ∃ radix x rest, cs = ['0', x] ++ rest ∧ x.toNat < 0x80 ∧ radixMark? text pos = some radix ∧
      scanNumber cs = scanInteger radix ['0', x] (rest.takeWhile radix.isDigit)
        (rest.dropWhile radix.isDigit) := by
  rw [radixMark?, holds_at h (ascii_beq (by decide))]
  match cs with
  | [] => exact .inl ⟨rfl, rfl⟩
  | c :: cs =>
    by_cases hc : c = '0'
    · subst hc
      have hnext := h.next (by decide)
      rw [if_pos (by simp), holds_at hnext (ascii_beq_or (by decide) (by decide)),
        holds_at hnext (ascii_beq_or (by decide) (by decide))]
      match cs with
      | [] => exact .inl ⟨rfl, rfl⟩
      | x :: rest =>
        by_cases hx : x = 'x' ∨ x = 'X'
        · have hascii : x.toNat < 0x80 := by rcases hx with rfl | rfl <;> decide
          exact .inr ⟨.hex, x, rest, rfl, hascii, if_pos (by simpa using hx),
            by rw [scanNumber, if_pos hx]⟩
        rw [if_neg (by simpa using hx)]
        by_cases hb : x = 'b' ∨ x = 'B'
        · have hascii : x.toNat < 0x80 := by rcases hb with rfl | rfl <;> decide
          rw [holds_at (hnext.next hascii) (Radix.ascii_isDigit _)]
          by_cases hd : rest.head?.any Radix.binary.isDigit = true
          · exact .inr ⟨.binary, x, rest, rfl, hascii, if_pos (by simpa [hd] using hb),
              by rw [scanNumber, if_neg hx, if_pos ⟨hb, hd⟩]⟩
          · exact .inl ⟨if_neg (by simp [hd]),
              by rw [scanNumber, if_neg hx, if_neg fun hc => hd hc.2]⟩
        · refine .inl ⟨if_neg (by simpa using fun hc => absurd hc hb),
            by rw [scanNumber, if_neg hx, if_neg fun hc => hb hc.1]⟩
    · refine .inl ⟨if_neg (by simpa using hc), ?_⟩
      unfold scanNumber
      split
      · next hcs => cases hcs; exact absurd rfl hc
      · rfl

theorem plainInteger_octal {d : Char} {ds : List Char} (h : At text start ('0' :: d :: ds ++ cs)) :
    plainInteger text start ('0' :: d :: ds) (start + byteLength ('0' :: d :: ds)) =
      settle start (scanInteger .octal ['0'] (d :: ds) cs) := by
  have hslice := ((At.zero ('0' :: d :: ds)).next (by decide)).slice?_length
  have hlength : 1 < (bytes ('0' :: d :: ds)).length := by
    have := d.utf8Size_pos
    have hone : '0'.utf8Size = 1 := rfl
    rw [length_bytes, byteLength_cons, byteLength_cons]
    omega
  have hrun := integer_run .octal (show At text start (['0'] ++ (d :: ds) ++ cs) from h)
  unfold plainInteger
  rw [decide_eq_true hlength, List.head?_cons, BEq.rfl, Bool.and_true, if_pos rfl,
    bind_ok (slice_run hslice _)]
  exact hrun

theorem plainInteger_decimal {digits : List Char} (h : At text start (digits ++ cs))
    (hd : ∀ d ds, digits ≠ '0' :: d :: ds) :
    plainInteger text start digits (start + byteLength digits) =
      settle start (scanInteger .decimal [] digits cs) := by
  have hrun := integer_run .decimal (show At text start ([] ++ digits ++ cs) from h)
  unfold plainInteger
  rw [if_neg]
  · exact hrun
  · match digits with
    | [] => nofun
    | [c] =>
      by_cases hc : c = '0'
      · subst hc
        decide
      · simp [hc]
    | c :: d :: ds =>
      have hc : c ≠ '0' := fun hc => hd d ds (hc ▸ rfl)
      simp [hc]

theorem number_run (h : At text start cs) :
    number text start start = settle start (scanNumber cs) := by
  refine (bind_ok rfl).trans ?_
  rcases radixMark?_cases h with ⟨hm, hn⟩ | ⟨radix, x, rest, rfl, hx, hm, hn⟩
  · rw [hm, hn, scanDecimal]
    replace h : At text start ([] ++ cs) := h
    refine (bind_ok (takeWhile_run ascii_isDigit h)).trans ((bind_ok rfl).trans ?_)
    rw [List.nil_append] at h ⊢
    rw [← List.takeWhile_append_dropWhile (p := Char.isDigit) (l := cs)] at h
    rw [startsFloatTail_at h.shift]
    generalize cs.takeWhile Char.isDigit = digits at h ⊢
    split
    · exact float_run h
    · split
      · exact plainInteger_octal h
      · next hd => exact plainInteger_decimal h hd
  · rw [hm, hn]
    have hadv : advance 2 start = .ok (⟨⟩, start + byteLength ['0', x]) := by
      rw [byteLength_cons, byteLength_cons, utf8Size_of_ascii hx]
      rfl
    refine (bind_ok hadv).trans ?_
    refine (bind_ok (takeWhile_run (Radix.ascii_isDigit radix) h)).trans ?_
    rw [← List.takeWhile_append_dropWhile (p := radix.isDigit) (l := rest),
      ← List.append_assoc] at h
    exact integer_run radix h

end Scanner

end Bindery
