import Bindery.Proofs.Expr.Cursor
import Bindery.Proofs.Expr.Spelling

/-!
# Reading tokens by offset

A backslash takes the next byte with it, so in characters and strings the cursor can stand inside a
character. An escape that begins such a character is malformed and shown to the end of the text
(`invalid_inside`); in a string the bytes up to the next character are passed over like any others
(`stringEnd?_inside`). So the walk over the bytes ends as reading the characters does (`runs_iff`).
-/

namespace Bindery

open Text

theorem one_lt_utf8Size {c : Char} (h : 0x80 ≤ c.toNat) : 1 < c.utf8Size := by
  have hne : c.utf8Size ≠ 1 := fun hc => by
    have hle := UInt32.le_iff_toNat_le.mp (Char.utf8Size_eq_one_iff.mp hc)
    exact absurd (Nat.lt_of_lt_of_le h hle) (by decide)
  have := c.utf8Size_pos
  omega

theorem letterEscape?_eq_none {c : Char} (h : 0x80 ≤ c.toNat) : letterEscape? c = none := by
  unfold letterEscape?
  split
  case h_12 => rfl
  all_goals exact absurd h (by decide)

/-- The value of a hexadecimal digit has four bits. -/
theorem digitValue_lt {c : Char} (h : Radix.hex.isDigit c = true) : digitValue c < 16 := by
  unfold digitValue
  by_cases hd : c.isDigit = true
  · have h9 : c.toNat ≤ 57 := of_decide_eq_true (Bool.and_eq_true_iff.mp hd).2
    rw [if_pos hd]
    omega
  rw [if_neg hd]
  have hcases : ('a' ≤ c ∧ c ≤ 'f') ∨ ('A' ≤ c ∧ c ≤ 'F') := by
    simpa [Radix.isDigit, hd] using h
  change (97 ≤ c.toNat ∧ c.toNat ≤ 102) ∨ (65 ≤ c.toNat ∧ c.toNat ≤ 70) at hcases
  by_cases ha : 'a' ≤ c
  · have hlow : 97 ≤ c.toNat := ha
    rw [if_pos ha]
    omega
  · have hlow : ¬ 97 ≤ c.toNat := ha
    rw [if_neg ha]
    omega

/-- Two hexadecimal digits write a byte. -/
theorem readFrom_hex (ds : List Char) (hl : ds.length ≤ 2) (hd : ∀ d ∈ ds, Radix.hex.isDigit d) :
    ∃ value < 256, Radix.hex.readFrom 0 ds = .ok value := by
  match ds with
  | [] => exact ⟨0, by decide, rfl⟩
  | [a] =>
    have ha := hd a (by simp)
    have hva := digitValue_lt ha
    refine ⟨digitValue a, by omega, ?_⟩
    simp only [Radix.readFrom, ha, if_true, Nat.zero_mul, Nat.zero_add]
    rw [if_pos (by unfold maxU64; omega)]
  | [a, b] =>
    have ha := hd a (by simp)
    have hb := hd b (by simp)
    have hva := digitValue_lt ha
    have hvb := digitValue_lt hb
    have hbase : Radix.hex.base = 16 := rfl
    refine ⟨digitValue a * 16 + digitValue b, by omega, ?_⟩
    simp only [Radix.readFrom, ha, hb, if_true, Nat.zero_mul, Nat.zero_add, hbase]
    rw [if_pos (by unfold maxU64; omega), if_pos (by unfold maxU64; omega)]
  | _ :: _ :: _ :: _ => simp at hl

namespace Scanner

variable {text cs done rest : List Char} {pos start : Nat}

/-! ### Characters -/

/-- Bytes of an escape that do not write a byte make the literal malformed. -/
theorem escapedByte_run (done digits : List Char) (radix : Radix)
    (h : At text start (done ++ digits ++ rest)) :
    escapedByte text start (start + byteLength done) radix (start + byteLength (done ++ digits)) =
      match digits, radix.readFrom 0 digits with
      | _ :: _, .ok value =>
        if value < 256 then .ok (UInt8.ofNat value, start + byteLength (done ++ digits))
        else .error (.error (.invalidLiteral (String.ofList (done ++ digits)) start))
      | _, _ => .error (.error (.invalidLiteral (String.ofList (done ++ digits)) start)) := by
  have hinvalid : (invalid text start : Scanner UInt8) (start + byteLength (done ++ digits)) = _ :=
    invalid_run h
  have hslice : sliceFrom text (start + byteLength done) (start + byteLength (done ++ digits)) =
      .ok (digits, start + byteLength (done ++ digits)) := by
    rw [List.append_assoc] at h
    rw [byteLength_append, ← Nat.add_assoc]
    exact sliceFrom_run h.shift
  refine (bind_ok hslice).trans ?_
  cases digits with
  | nil => exact hinvalid
  | cons d ds =>
    cases radix.readFrom 0 (d :: ds) with
    | error fault => exact hinvalid
    | ok value =>
      dsimp only
      split
      · rfl
      · exact hinvalid

/-- What a step makes of the part of a literal that follows `done`. -/
def settlePart (start : Nat) (done : List Char) :
    Except LexFault (UInt8 × List Char × List Char) → Except Halt (UInt8 × Nat)
  | .ok (byte, spelling, _) => .ok (byte, start + byteLength (done ++ spelling))
  | .error fault => .error (.error (fault.toError start))

theorem skipUpTo_run {p : Char → Bool} (hp : Ascii p) (limit : Nat)
    (h : At text start (done ++ rest)) :
    (modify (skipUpTo text p limit) : Scanner PUnit) (start + byteLength done) =
      .ok (⟨⟩, start + byteLength (done ++ (rest.take limit).takeWhile p)) := by
  rw [byteLength_append, ← Nat.add_assoc, ← skipUpTo_at hp limit h.shift]
  rfl

/-- Up to three octal digits, the first of which has been passed over. -/
theorem escape_octal {c : Char} (hc : Radix.octal.isDigit c = true)
    (h : At text start (['\'', '\\'] ++ c :: cs)) :
    (do
      modify (skipUpTo text Radix.octal.isDigit 2)
      escapedByte text start (start + byteLength ['\'', '\\']) .octal : Scanner UInt8)
        (start + byteLength ['\'', '\\', c]) =
      settlePart start ['\'', '\\'] (scanEscape (c :: cs)) := by
  have hl : letterEscape? c = none := by
    unfold letterEscape?
    split
    case h_12 => rfl
    all_goals cases hc
  obtain ⟨rest, hrest⟩ :=
    (List.takeWhile_prefix Radix.octal.isDigit).trans (List.take_prefix 2 cs)
  rw [scanEscape, hl]
  rw [if_pos hc]
  refine (bind_ok (skipUpTo_run (Radix.ascii_isDigit .octal) 2
    (show At text start (['\'', '\\', c] ++ cs) from h))).trans ?_
  generalize (cs.take 2).takeWhile Radix.octal.isDigit = more at hrest ⊢
  subst hrest
  refine (escapedByte_run ['\'', '\\'] (c :: more) .octal h).trans ?_
  dsimp only
  cases Radix.octal.readFrom 0 (c :: more) with
  | error fault => rfl
  | ok value =>
    dsimp only
    split
    · rfl
    · rfl

/-- Up to two hexadecimal digits. -/
theorem escape_hex (h : At text start (['\'', '\\'] ++ 'x' :: cs)) :
    (do
      modify (skipUpTo text Radix.hex.isDigit 2)
      escapedByte text start (start + byteLength ['\'', '\\', 'x']) .hex : Scanner UInt8)
        (start + byteLength ['\'', '\\', 'x']) =
      settlePart start ['\'', '\\'] (scanEscape ('x' :: cs)) := by
  obtain ⟨rest, hrest⟩ :=
    (List.takeWhile_prefix Radix.hex.isDigit).trans (List.take_prefix 2 cs)
  have hvalue := readFrom_hex ((cs.take 2).takeWhile Radix.hex.isDigit) (by
    have := (List.takeWhile_prefix (p := Radix.hex.isDigit) (l := cs.take 2)).length_le
    have := List.length_take_le 2 cs
    omega) all_of_mem_takeWhile
  rw [scanEscape, if_neg (by decide), if_pos rfl]
  dsimp only
  refine (bind_ok (skipUpTo_run (Radix.ascii_isDigit .hex) 2
    (show At text start (['\'', '\\', 'x'] ++ cs) from h))).trans ?_
  generalize (cs.take 2).takeWhile Radix.hex.isDigit = digits at hrest hvalue ⊢
  obtain ⟨value, hlt, hread⟩ := hvalue
  subst hrest
  refine (escapedByte_run ['\'', '\\', 'x'] digits .hex h).trans ?_
  rw [hread]
  cases digits with
  | nil => rfl
  | cons d ds =>
    dsimp only
    rw [if_pos hlt]
    rfl

theorem escape_run (h : At text start (['\'', '\\'] ++ cs)) :
    escape text start (start + byteLength ['\'', '\\']) =
      settlePart start ['\'', '\\'] (scanEscape cs) := by
  refine (bind_ok rfl).trans ?_
  match cs with
  | [] =>
    rw [h.shift.byte?_nil]
    rfl
  | c :: cs =>
    by_cases hc : c.toNat < 0x80
    · rw [h.shift.byte?_of_ascii hc]
      refine (bind_ok (advance_run hc)).trans ?_
      cases hl : letterEscape? c with
      | some byte =>
        rw [scanEscape, hl]
        rfl
      | none =>
        refine (bind_ok rfl).trans ?_
        have hpos : start + byteLength (['\'', '\\'] ++ [c]) - 1 =
            start + byteLength ['\'', '\\'] := by
          rw [byteLength_append, byteLength_cons c, byteLength_nil, utf8Size_of_ascii hc]
          omega
        rw [hpos]
        by_cases ho : Radix.octal.isDigit c = true
        · rw [if_pos ho]
          exact escape_octal ho h
        rw [if_neg ho]
        by_cases hx : c = 'x'
        · subst hx
          rw [if_pos rfl]
          exact escape_hex h
        rw [if_neg hx, scanEscape, hl]
        dsimp only
        rw [if_neg ho, if_neg hx, if_pos hc]
        exact invalid_run (show At text start (['\'', '\\', c] ++ cs) from h)
    · -- the byte after the backslash begins a longer character, and the cursor ends up in it
      replace hc := Nat.not_lt.mp hc
      obtain ⟨b, hb, hle⟩ := h.shift.byte?_inside hc c.utf8Size_pos
      rw [Nat.add_zero] at hb
      rw [hb]
      have hinside : (invalid text start : Scanner UInt8) _ = _ :=
        invalid_inside h Nat.one_pos (one_lt_utf8Size hc)
      have hstep : ∀ {d : Char}, 0x80 ≤ d.toNat →
          letterEscape? d = none ∧ Radix.octal.isDigit d = false ∧ d ≠ 'x' := fun hd =>
        ⟨letterEscape?_eq_none hd, (Radix.ascii_isDigit .octal).eq_false hd,
          ne_of_ascii hd (by decide)⟩
      obtain ⟨hl, ho, hx⟩ := hstep hle
      refine (bind_ok rfl).trans ?_
      rw [hl]
      refine (bind_ok rfl).trans ?_
      rw [ho, if_neg hx, if_neg Bool.false_ne_true]
      refine hinside.trans ?_
      obtain ⟨hl, ho, hx⟩ := hstep hc
      rw [scanEscape, hl]
      dsimp only
      rw [ho, if_neg hx, if_neg Bool.false_ne_true, if_neg (Nat.not_lt.mpr hc)]
      rfl

theorem charByte_run (h : At text start (['\''] ++ cs)) :
    charByte text start (start + byteLength ['\'']) =
      settlePart start ['\''] (scanCharBody cs) := by
  refine (bind_ok rfl).trans ?_
  match cs with
  | [] =>
    rw [h.shift.byte?_nil]
    rfl
  | c :: cs =>
    by_cases hc : c.toNat < 0x80
    · rw [h.shift.byte?_of_ascii hc]
      dsimp only
      split
      · next hn =>
        subst hn
        rfl
      split
      · next hb =>
        subst hb
        refine (bind_ok (advance_run hc)).trans ?_
        refine (escape_run h).trans ?_
        rw [scanCharBody]
        cases scanEscape cs with
        | error fault => rfl
        | ok part => rfl
      split
      · next hq =>
        subst hq
        refine (bind_ok (advance_run hc)).trans ?_
        exact invalid_run (show At text start (['\'', '\''] ++ cs) from h)
      · next hn hb hq =>
        rw [scanCharBody, if_pos hc]
        · exact bind_ok (advance_run hc)
        all_goals simpa
    · replace hc := Nat.not_lt.mp hc
      obtain ⟨b, hb, hle⟩ := h.shift.byte?_inside hc c.utf8Size_pos
      rw [Nat.add_zero] at hb
      rw [hb]
      dsimp only
      rw [if_neg (ne_of_ascii hle (by decide)), if_neg (ne_of_ascii hle (by decide)),
        if_neg (ne_of_ascii hle (by decide)), if_neg (Nat.not_lt.mpr hle),
        bind_ok (slice_run h.slice?_length _), scanCharBody, if_neg (Nat.not_lt.mpr hc)]
      · rfl
      all_goals exact ne_of_ascii hc (by decide)

/-- What is read of a character after its opening quote is the head of the rest of the text. -/
theorem charLiteral_run (h : At text start ('\'' :: cs)) :
    charLiteral text start start = settle start (scanChar cs) := by
  have hquote : advance 1 start = .ok (⟨⟩, start + byteLength ['\'']) := rfl
  have hbyte := charByte_run h
  refine (bind_ok hquote).trans ?_
  unfold scanChar
  cases hb : scanCharBody cs with
  | error fault =>
    rw [hb] at hbyte
    exact bind_error hbyte
  | ok part =>
    obtain ⟨byte, spelling, rest⟩ := part
    rw [hb] at hbyte
    refine (bind_ok hbyte).trans ?_
    rw [← scanCharBody_split hb] at h
    replace h : At text start (['\''] ++ spelling ++ rest) := h
    refine (ahead_bind (ascii_beq (by decide)) h).trans ?_
    split
    · next hq =>
      obtain ⟨rest, rfl⟩ := any_head?_beq.mp hq
      exact bind_ok (advance_run (c := '\'') (by decide))
    · next hq =>
      split
      · next he => cases he
      · next he =>
        cases he
        exact absurd (any_head?_beq.mpr ⟨_, rfl⟩) hq
      · rfl

/-- The cursor ends up inside the second character, so the literal is shown to its end. -/
example : charLiteral ['\'', '\\', 'é', '\''] 0 0 =
    .error (.error (.invalidLiteral "'\\é'" 0)) := rfl

/-! ### Strings -/

theorem stringEnd?_of_none (h : byte? text pos = none) : stringEnd? text pos = none := by
  rw [stringEnd?]
  split
  · rfl
  · next hb => rw [h] at hb; cases hb

theorem stringEnd?_of_some {b : Char} (h : byte? text pos = some b) :
    stringEnd? text pos =
      if b = '\n' then none
      else if b = '\\' then stringEnd? text (pos + 2)
      else if b = '"' then some (pos + 1)
      else stringEnd? text (pos + 1) := by
  rw [stringEnd?]
  split
  · next hb => rw [h] at hb; cases hb
  · next hb =>
    cases h.symm.trans hb
    rfl

theorem stringEnd?_of_other {b : Char} (h : byte? text pos = some b) (hn : b ≠ '\n')
    (hb : b ≠ '\\') (hq : b ≠ '"') : stringEnd? text pos = stringEnd? text (pos + 1) := by
  rw [stringEnd?_of_some h, if_neg hn, if_neg hb, if_neg hq]

theorem stringEnd?_of_not_ascii {b : Char} (h : byte? text pos = some b) (hb : 0x80 ≤ b.toNat) :
    stringEnd? text pos = stringEnd? text (pos + 1) :=
  stringEnd?_of_other h (ne_of_ascii hb (by decide)) (ne_of_ascii hb (by decide))
    (ne_of_ascii hb (by decide))

/-- Inside a character outside ASCII no string ends. -/
theorem stringEnd?_inside {c : Char} (h : At text pos (c :: rest)) (hc : 0x80 ≤ c.toNat) :
    ∀ k ≤ c.utf8Size, stringEnd? text (pos + (c.utf8Size - k)) =
      stringEnd? text (pos + c.utf8Size)
  | 0, _ => rfl
  | k + 1, hk => by
    obtain ⟨b, hb, hle⟩ := h.byte?_inside hc (k := c.utf8Size - (k + 1)) (by omega)
    have hnext : pos + (c.utf8Size - (k + 1)) + 1 = pos + (c.utf8Size - k) := by omega
    rw [stringEnd?_of_not_ascii hb hle, hnext]
    exact stringEnd?_inside h hc k (by omega)

/-- One byte into a character is as good as after it. -/
theorem stringEnd?_into {c : Char} (h : At text pos (c :: rest)) :
    stringEnd? text (pos + 1) = stringEnd? text (pos + c.utf8Size) := by
  by_cases hc : c.toNat < 0x80
  · rw [utf8Size_of_ascii hc]
  · have := c.utf8Size_pos
    have hone : c.utf8Size - (c.utf8Size - 1) = 1 := by omega
    rw [← stringEnd?_inside h (Nat.not_lt.mp hc) (c.utf8Size - 1) (by omega), hone]

theorem stringEnd?_at (h : At text pos cs) :
    stringEnd? text pos = (spanString? cs).map fun part => pos + byteLength part.1 := by
  fun_induction spanString? cs generalizing pos with
  | case1 => exact stringEnd?_of_none h.byte?_nil
  | case2 => exact stringEnd?_of_some (h.byte?_of_ascii (by decide))
  | case3 cs => exact stringEnd?_of_some (h.byte?_of_ascii (by decide))
  | case4 =>
    -- the offset after the backslash and what it should escape is past the end
    have hend : byte? text (pos + 2) = none := (h.next (by decide)).byte? 1
    rw [stringEnd?_of_some (h.byte?_of_ascii (by decide)), if_neg (by decide), if_pos rfl,
      stringEnd?_of_none hend]
    rfl
  | case5 c cs ih =>
    have hc := h.next (by decide)
    rw [stringEnd?_of_some (h.byte?_of_ascii (by decide)), if_neg (by decide), if_pos rfl]
    refine (stringEnd?_into hc).trans ((ih hc.after).trans ?_)
    rw [Option.map_map]
    congr 1
    funext part
    simp only [Function.comp_apply, byteLength_cons, Nat.add_assoc]
    rfl
  | case6 c cs hn hq hb hb' ih =>
    -- a byte at a time up to the next character
    have hbackslash : c ≠ '\\' := by
      rintro rfl
      cases cs with
      | nil => exact hb rfl rfl
      | cons d cs => exact hb' d cs rfl rfl
    have hskip : stringEnd? text pos = stringEnd? text (pos + 1) := by
      by_cases hc : c.toNat < 0x80
      · exact stringEnd?_of_other (h.byte?_of_ascii hc) hn hbackslash hq
      · obtain ⟨b, hbyte, hle⟩ := h.byte?_inside (Nat.not_lt.mp hc) c.utf8Size_pos
        exact stringEnd?_of_not_ascii hbyte hle
    rw [hskip, stringEnd?_into h, ih h.after, Option.map_map]
    congr 1
    funext part
    exact Nat.add_assoc ..

theorem stringLiteral_run (h : At text start ('"' :: cs)) :
    stringLiteral text start start = settle start (scanString cs) := by
  have hquote : advance 1 start = .ok (⟨⟩, start + 1) := rfl
  refine (bind_ok hquote).trans ((bind_ok rfl).trans ?_)
  rw [stringEnd?_at (h.next (by decide)), scanString]
  cases hs : spanString? cs with
  | none => rfl
  | some part =>
    obtain ⟨body, rest⟩ := part
    rw [← spanString?_append hs] at h
    refine (bind_ok rfl).trans ?_
    have hslice := sliceFrom_run (show At text start ('"' :: body ++ rest) from h)
    rw [byteLength_cons, ← Nat.add_assoc] at hslice
    refine (bind_ok hslice).trans ?_
    rw [settle, byteLength_cons, ← Nat.add_assoc]
    rfl

/-! ### Tokens -/

theorem punct_run {c : Char} (h : At text start (c :: cs)) :
    punct text start start = settle start (match Punct.scan? (c :: cs) with
      | some (p, rest) => .ok ⟨.punct p, p.spelling, rest⟩
      | none => .error (.unexpected c)) := by
  refine (bind_ok (slice_run h.slice?_length _)).trans ?_
  cases Punct.scan? (c :: cs) with
  | none => rfl
  | some part =>
    obtain ⟨p, rest⟩ := part
    dsimp only
    rw [length_bytes]
    rfl

theorem ident_run {c : Char} (h : At text start (c :: cs)) :
    (do return .ident (String.ofList (← takeWhile text isIdentContinue)) : Scanner TokenKind)
        start = settle start (.ok (Lexeme.name (c :: cs))) :=
  bind_ok (takeWhile_run ascii_isIdentContinue (show At text start ([] ++ c :: cs) from h))

/-- What a token is shows in its first character, and a byte that is not in ASCII begins none. -/
theorem kind_run {c : Char} (h : At text start (c :: cs)) {b : Char}
    (hb : byte? text start = some b) :
    kind text start b start = settle start (Lexeme.scan c cs) := by
  have hpunct := punct_run h
  unfold kind Lexeme.scan
  by_cases hc : c.toNat < 0x80
  · obtain rfl : c = b := Option.some.inj ((h.byte?_of_ascii hc).symm.trans hb)
    have hahead : ahead text 1 Char.isDigit start = .ok (cs.head?.any Char.isDigit, start) := by
      rw [← holds_at (h.next hc) ascii_isDigit]
      rfl
    cases hd : c.isDigit with
    | true =>
      rw [if_pos rfl, Bool.true_or, if_pos rfl]
      exact number_run h
    | false =>
      rw [if_neg Bool.false_ne_true, bind_ok hahead, Bool.false_or]
      split
      · exact number_run h
      split
      · next hq =>
        subst hq
        exact charLiteral_run h
      split
      · next hq =>
        subst hq
        exact stringLiteral_run h
      split
      · exact ident_run h
      · exact hpunct
  · replace hc := Nat.not_lt.mp hc
    obtain ⟨b', hb', hle⟩ := h.byte?_inside hc c.utf8Size_pos
    obtain rfl : b' = b := Option.some.inj (hb'.symm.trans hb)
    have hother : ∀ {d : Char}, 0x80 ≤ d.toNat → d.isDigit = false ∧ (d == '.') = false ∧
        d ≠ '\'' ∧ d ≠ '"' ∧ isIdentStart d = false := fun hd =>
      ⟨ascii_isDigit.eq_false hd, (ascii_beq (by decide)).eq_false hd,
        ne_of_ascii hd (by decide), ne_of_ascii hd (by decide), ascii_isIdentStart.eq_false hd⟩
    obtain ⟨hd, hp, hq, hs, hi⟩ := hother hle
    rw [hd, hp, hi, if_neg Bool.false_ne_true, bind_ok rfl, Bool.false_and,
      if_neg Bool.false_ne_true, if_neg hq, if_neg hs, if_neg Bool.false_ne_true]
    obtain ⟨hd, hp, hq, hs, hi⟩ := hother hc
    rw [hd, hp, hi, Bool.false_or, Bool.false_and, if_neg Bool.false_ne_true, if_neg hq,
      if_neg hs, if_neg Bool.false_ne_true]
    exact hpunct

/-! ### The whole text -/

/-- How many bytes the line continuation at the head of the text takes. -/
def continuationHead : List Char → Nat
  | '\\' :: '\n' :: _ => 2
  | '\\' :: '\r' :: '\n' :: _ => 3
  | _ => 0

theorem continuationLength_at (h : At text pos cs) :
    continuationLength text pos = continuationHead cs := by
  rw [continuationLength, holds_at h (ascii_beq (by decide))]
  by_cases hb : cs.head?.any (· == '\\') = true
  · obtain ⟨cs, rfl⟩ := any_head?_beq.mp hb
    have h := h.next (by decide)
    rw [if_pos hb, holds_at h (ascii_beq (by decide)), holds_at h (ascii_beq (by decide))]
    by_cases hn : cs.head?.any (· == '\n') = true
    · obtain ⟨cs, rfl⟩ := any_head?_beq.mp hn
      rfl
    by_cases hr : cs.head?.any (· == '\r') = true
    · obtain ⟨cs, rfl⟩ := any_head?_beq.mp hr
      rw [if_neg hn, holds_at (h.next (by decide)) (ascii_beq (by decide)), hr, Bool.true_and]
      unfold continuationHead
      by_cases hn' : cs.head?.any (· == '\n') = true
      · obtain ⟨cs, rfl⟩ := any_head?_beq.mp hn'
        rfl
      · rw [if_neg hn']
        split
        · next he => cases he
        · next he => cases he; exact absurd rfl hn'
        · rfl
    · rw [if_neg hn, Bool.not_eq_true _ |>.mp hr, Bool.false_and, if_neg Bool.false_ne_true]
      unfold continuationHead
      split
      · next he => cases he; exact absurd rfl hn
      · next he => cases he; exact absurd rfl hr
      · rfl
  · rw [if_neg hb]
    unfold continuationHead
    split
    · exact absurd rfl hb
    · exact absurd rfl hb
    · rfl

theorem skipTrivia_at (h : At text pos cs) :
    skipTrivia text pos = (skipSpace pos cs).1 ∧
      At text (skipSpace pos cs).1 (skipSpace pos cs).2 := by
  have hlength := continuationLength_at h
  have hspace := holds_at h ascii_isSpace
  fun_induction skipSpace pos cs with
  | case1 =>
    rw [skipTrivia, hspace, hlength]
    exact ⟨rfl, h⟩
  | case2 pos cs ih =>
    have hcs := (h.next (by decide)).next (by decide)
    rw [skipTrivia, hspace, hlength]
    exact ih hcs (continuationLength_at hcs) (holds_at hcs ascii_isSpace)
  | case3 pos cs ih =>
    have hcs := ((h.next (by decide)).next (by decide)).next (by decide)
    rw [skipTrivia, hspace, hlength]
    exact ih hcs (continuationLength_at hcs) (holds_at hcs ascii_isSpace)
  | case4 pos c cs hb hb' hs ih =>
    have hcs := h.next (ascii_isSpace c hs)
    rw [skipTrivia, hspace, List.head?_cons, Option.any_some, hs, if_pos rfl]
    exact ih hcs (continuationLength_at hcs) (holds_at hcs ascii_isSpace)
  | case5 pos c cs hb hb' hs =>
    have hzero : continuationHead (c :: cs) = 0 := by
      unfold continuationHead
      split
      · next he => cases he; exact absurd rfl (hb _ rfl)
      · next he => cases he; exact absurd rfl (hb' _ rfl)
      · rfl
    rw [skipTrivia, hspace, hlength, hzero, List.head?_cons, Option.any_some, if_neg hs, if_pos rfl]
    exact ⟨rfl, h⟩

/-- The next token by cursor is the next token of the rest of the text. -/
theorem nextToken_run (h : At text pos cs) :
    nextToken text pos = match skipSpace pos cs with
      | (stop, []) => .ok (none, stop)
      | (start, c :: rest) => (settle start (Lexeme.scan c rest)).map fun (kind, stop) =>
        (some ⟨kind, start, stop⟩, stop) := by
  obtain ⟨hskip, hat⟩ := skipTrivia_at h
  have hmodify : (modify (skipTrivia text) : Scanner PUnit) pos =
      .ok (⟨⟩, (skipSpace pos cs).1) := by
    rw [← hskip]
    rfl
  refine (bind_ok hmodify).trans ((bind_ok rfl).trans ?_)
  generalize skipSpace pos cs = place at hat ⊢
  obtain ⟨start, rest⟩ := place
  cases rest with
  | nil =>
    rw [hat.byte?_nil]
    rfl
  | cons c rest =>
    obtain ⟨b, hb⟩ : ∃ b, byte? text start = some b := by
      by_cases hc : c.toNat < 0x80
      · exact ⟨c, hat.byte?_of_ascii hc⟩
      · obtain ⟨b, hb, -⟩ := hat.byte?_inside (Nat.not_lt.mp hc) c.utf8Size_pos
        exact ⟨b, hb⟩
    have hkind := kind_run hat hb
    dsimp only
    rw [hb]
    cases hs : settle start (Lexeme.scan c rest) with
    | error e => exact bind_error (hkind.trans hs)
    | ok p => exact (bind_ok (hkind.trans hs)).trans rfl

theorem Runs.unique {r r' : Except Halt (List Token)} (h : Runs text pos r)
    (h' : Runs text pos r') : r = r' := by
  induction h generalizing r' with
  | done hn =>
    cases h' with
    | done => rfl
    | halt hn' => cases hn.symm.trans hn'
    | token hn' => cases hn.symm.trans hn'
  | halt hn =>
    cases h' with
    | done hn' => cases hn.symm.trans hn'
    | halt hn' => exact congrArg Except.error (Except.error.inj (hn.symm.trans hn'))
    | token hn' => cases hn.symm.trans hn'
  | token hn _ ih =>
    cases h' with
    | done hn' => cases hn.symm.trans hn'
    | halt hn' => cases hn.symm.trans hn'
    | token hn' hs' =>
      cases hn.symm.trans hn'
      rw [ih hs']

/-- Going on from where a character begins, the lexer ends as the tokens of the rest do. -/
theorem runs_tokensFrom {pos : Nat} {cs : List Char} (h : At text pos cs) :
    Runs text pos ((tokensFrom pos cs).mapError .error) := by
  have hnext := nextToken_run h
  have hat := (skipTrivia_at h).2
  have hle := length_skipSpace_le pos cs
  rw [tokensFrom_eq]
  generalize skipSpace pos cs = place at hnext hat hle ⊢
  obtain ⟨start, rest⟩ := place
  cases rest with
  | nil => exact .done hnext
  | cons c rest =>
    dsimp only at hnext ⊢
    cases hl : Lexeme.scan c rest with
    | error fault =>
      rw [hl] at hnext
      exact .halt hnext
    | ok lx =>
      have hlt := Lexeme.length_rest_lt hl
      rw [hl] at hnext
      rw [← (Lexeme.scan_split hl).1] at hat
      have hrest := runs_tokensFrom hat.shift
      -- a fault later on is the same with and without the tokens before it
      have hmap : ∀ (r : Except ParseError (List Token)) (t : Token),
          (r.map (t :: ·)).mapError Halt.error = (r.mapError Halt.error).map (t :: ·) := by
        rintro (_ | _) _ <;> rfl
      dsimp only
      rw [hmap]
      exact .token hnext hrest
termination_by cs.length
decreasing_by exact Nat.lt_of_lt_of_le hlt hle

/-- **The cursor never leaves the characters**: the lexer ends as reading the text character by
character does, so it never cuts anything out that is no slice of the text. -/
theorem runs_iff (text : List Char) (result : Except Halt (List Token)) :
    Runs text 0 result ↔ result = (tokenize text).mapError .error := by
  have hruns := runs_tokensFrom (At.zero text)
  exact ⟨fun h => h.unique hruns, fun h => h ▸ hruns⟩

end Scanner

end Bindery
