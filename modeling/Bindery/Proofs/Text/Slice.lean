import Mathlib.Tactic.SplitIfs
import Bindery.Text.Slice

/-!
# Slices and characters

A slice is there just when both its ends are boundaries of characters in the right order
(`slice?_eq_some_iff`). Bytes that are in ASCII are characters, so who looks for ASCII finds among
the bytes what there is among the characters (`At.any_byte?`).
-/

namespace Bindery.Text

variable {cs front mid rest : List Char} {c : Char} {pos start stop n k : Nat}

/-! ### Splitting -/

theorem bytes_append (as bs : List Char) : bytes (as ++ bs) = bytes as ++ bytes bs :=
  List.flatMap_append

@[simp] theorem length_bytes (cs : List Char) : (bytes cs).length = byteLength cs := by
  induction cs with
  | nil => rfl
  | cons c cs ih =>
    change (String.utf8EncodeChar c ++ bytes cs).length = _
    rw [List.length_append, String.length_utf8EncodeChar, ih, byteLength_cons]

theorem splitAt?_zero (cs : List Char) : splitAt? cs 0 = some ([], cs) := by
  cases cs <;> rfl

theorem splitAt?_cons (h : c.utf8Size ≤ n) : splitAt? (c :: cs) n =
    (splitAt? cs (n - c.utf8Size)).map fun (front, rest) => (c :: front, rest) := by
  cases n with
  | zero => exact absurd c.utf8Size_pos (Nat.not_lt.mpr h)
  | succ n => rw [splitAt?, if_pos h]

theorem splitAt?_append (front rest : List Char) :
    splitAt? (front ++ rest) (byteLength front) = some (front, rest) := by
  induction front with
  | nil => exact splitAt?_zero rest
  | cons c front ih =>
    rw [List.cons_append, byteLength_cons, splitAt?_cons (Nat.le_add_right ..),
      Nat.add_sub_cancel_left, ih]
    rfl

/-- A character lies across every offset inside of it. -/
theorem splitAt?_inside (front rest : List Char) (hk : 0 < k) (hc : k < c.utf8Size) :
    splitAt? (front ++ c :: rest) (byteLength front + k) = none := by
  induction front with
  | nil =>
    obtain ⟨k, rfl⟩ : ∃ m, k = m + 1 := ⟨k - 1, by omega⟩
    rw [byteLength_nil, Nat.zero_add, List.nil_append, splitAt?, if_neg (Nat.not_le.mpr hc)]
  | cons d front ih =>
    rw [List.cons_append, byteLength_cons, Nat.add_assoc, splitAt?_cons (Nat.le_add_right ..),
      Nat.add_sub_cancel_left, ih]
    rfl

theorem splitAt?_eq_some_iff :
    splitAt? cs n = some (front, rest) ↔ cs = front ++ rest ∧ n = byteLength front := by
  constructor
  · intro h
    induction cs generalizing n front with
    | nil =>
      cases n with
      | zero =>
        cases h
        exact ⟨rfl, rfl⟩
      | succ n => cases h
    | cons c cs ih =>
      cases n with
      | zero =>
        cases h
        exact ⟨rfl, rfl⟩
      | succ n =>
        rw [splitAt?] at h
        split at h
        · next hle =>
          obtain ⟨⟨front', rest'⟩, hs, he⟩ := Option.map_eq_some_iff.mp h
          cases he
          obtain ⟨rfl, hn⟩ := ih hs
          exact ⟨rfl, by rw [byteLength_cons]; omega⟩
        · cases h
  · rintro ⟨rfl, rfl⟩
    exact splitAt?_append front rest

/-- The offset is in the text or at its end, and not inside a character. -/
def IsBoundary (cs : List Char) (n : Nat) : Prop :=
  ∃ front rest, cs = front ++ rest ∧ n = byteLength front

theorem IsBoundary.le (h : IsBoundary cs n) : n ≤ byteLength cs := by
  obtain ⟨front, rest, rfl, rfl⟩ := h
  rw [byteLength_append]
  exact Nat.le_add_right _ _

/-- There is a slice between two offsets just when the text is what comes before it, the slice and
what comes after it. -/
theorem slice?_eq_some_iff : slice? cs start stop = some mid ↔
    ∃ front rest, cs = front ++ (mid ++ rest) ∧ start = byteLength front ∧
      stop = start + byteLength mid := by
  constructor
  · intro h
    unfold slice? at h
    split at h
    · next hle =>
      obtain ⟨⟨front, more⟩, hs, h⟩ := Option.bind_eq_some_iff.mp h
      obtain ⟨⟨_, rest⟩, hs', rfl⟩ := Option.map_eq_some_iff.mp h
      obtain ⟨rfl, rfl⟩ := splitAt?_eq_some_iff.mp hs
      obtain ⟨rfl, hn⟩ := splitAt?_eq_some_iff.mp hs'
      exact ⟨front, rest, rfl, rfl, by dsimp only; omega⟩
    · cases h
  · rintro ⟨front, rest, rfl, rfl, rfl⟩
    rw [slice?, if_pos (Nat.le_add_right ..), splitAt?_append, Option.bind_some,
      Nat.add_sub_cancel_left]
    dsimp only
    rw [splitAt?_append]
    rfl

theorem byteLength_eq_zero_iff : byteLength cs = 0 ↔ cs = [] := by
  cases cs with
  | nil => simp
  | cons c cs => simp [Nat.ne_of_gt c.utf8Size_pos]

/-- A slice is there when its ends are boundaries and come in the right order. -/
theorem isSome_slice?_iff : (slice? cs start stop).isSome = true ↔
    start ≤ stop ∧ IsBoundary cs start ∧ IsBoundary cs stop := by
  constructor
  · intro h
    obtain ⟨mid, hmid⟩ := Option.isSome_iff_exists.mp h
    obtain ⟨front, rest, rfl, rfl, rfl⟩ := slice?_eq_some_iff.mp hmid
    exact ⟨Nat.le_add_right .., ⟨front, _, rfl, rfl⟩, front ++ mid, rest, by simp, by simp⟩
  · rintro ⟨hle, ⟨front, more, rfl, rfl⟩, front', rest', he, rfl⟩
    rw [Option.isSome_iff_exists]
    rcases List.append_eq_append_iff.mp he with ⟨mid, rfl, rfl⟩ | ⟨extra, rfl, rfl⟩
    · exact ⟨mid, slice?_eq_some_iff.mpr ⟨front, rest', rfl, rfl, byteLength_append ..⟩⟩
    · -- the later end is not before the earlier one
      rw [byteLength_append] at hle
      obtain rfl := byteLength_eq_zero_iff.mp (show byteLength extra = 0 by omega)
      exact ⟨[], slice?_eq_some_iff.mpr ⟨front', more, by simp, by simp, by simp⟩⟩

/-! ### Bytes of characters -/

theorem byte?_append (front rest : List Char) (k : Nat) :
    byte? (front ++ rest) (byteLength front + k) = byte? rest k := by
  rw [byte?, bytes_append, List.getElem?_append_right (by simp), length_bytes,
    Nat.add_sub_cancel_left, byte?]

theorem utf8EncodeChar_of_ascii (h : c.toNat < 0x80) :
    String.utf8EncodeChar c = [UInt8.ofNat c.toNat] := by
  rw [String.utf8EncodeChar]
  exact if_pos (Nat.le_of_lt_succ h)

theorem utf8Size_of_ascii (h : c.toNat < 0x80) : c.utf8Size = 1 := by
  rw [← String.length_utf8EncodeChar, utf8EncodeChar_of_ascii h]
  rfl

theorem toNat_ofUInt8 (b : UInt8) : (Char.ofUInt8 b).toNat = b.toNat := UInt8.toNat_toUInt32 b

theorem ofUInt8_ofNat (h : c.toNat < 0x80) : Char.ofUInt8 (UInt8.ofNat c.toNat) = c := by
  apply Char.ext
  apply UInt32.toNat_inj.mp
  change (Char.ofUInt8 (UInt8.ofNat c.toNat)).toNat = c.toNat
  rw [toNat_ofUInt8, UInt8.toNat_ofNat']
  omega

theorem byte?_of_ascii (h : c.toNat < 0x80) (cs : List Char) : byte? (c :: cs) 0 = some c := by
  change ((String.utf8EncodeChar c ++ bytes cs)[0]?).map Char.ofUInt8 = _
  rw [utf8EncodeChar_of_ascii h]
  exact congrArg some (ofUInt8_ofNat h)

theorem le_of_mem_utf8EncodeChar (h : 0x80 ≤ c.toNat) :
    ∀ b ∈ String.utf8EncodeChar c, 0x80 ≤ b.toNat := by
  have h : 0x80 ≤ c.val.toNat := h
  rw [String.utf8EncodeChar]
  generalize c.val.toNat = v at h
  rw [if_neg (by omega)]
  split_ifs
  all_goals
    simp only [List.forall_mem_cons, List.not_mem_nil, false_implies, implies_true, and_true,
      UInt8.toNat_ofNat']
    omega

/-- Of a character outside ASCII no byte is in ASCII. -/
theorem byte?_inside (h : 0x80 ≤ c.toNat) (cs : List Char) (hk : k < c.utf8Size) :
    ∃ b, byte? (c :: cs) k = some b ∧ 0x80 ≤ b.toNat := by
  rw [← String.length_utf8EncodeChar] at hk
  have hb := le_of_mem_utf8EncodeChar h _ (List.getElem_mem hk)
  rw [← toNat_ofUInt8] at hb
  refine ⟨_, ?_, hb⟩
  change ((String.utf8EncodeChar c ++ bytes cs)[k]?).map Char.ofUInt8 = _
  rw [List.getElem?_append_left hk, List.getElem?_eq_getElem hk]
  rfl

/-- The characters of which `p` holds are in ASCII. -/
def Ascii (p : Char → Bool) : Prop := ∀ c, p c = true → c.toNat < 0x80

theorem Ascii.eq_false {p : Char → Bool} (hp : Ascii p) (h : 0x80 ≤ c.toNat) : p c = false :=
  Bool.eq_false_iff.mpr fun hc => Nat.not_lt.mpr h (hp c hc)

theorem ne_of_ascii {a : Char} (h : 0x80 ≤ c.toNat) (ha : a.toNat < 0x80) : c ≠ a :=
  fun he => Nat.not_lt.mpr h (he ▸ ha)

/-- Among ASCII characters only, the first byte is what the first character is. -/
theorem Ascii.any_byte? {p : Char → Bool} (hp : Ascii p) (cs : List Char) :
    (byte? cs 0).any p = cs.head?.any p := by
  cases cs with
  | nil => rfl
  | cons c cs =>
    by_cases hc : c.toNat < 0x80
    · rw [byte?_of_ascii hc]
      rfl
    · obtain ⟨b, hb, hle⟩ := byte?_inside (Nat.not_lt.mp hc) cs c.utf8Size_pos
      rw [hb, Option.any_some, hp.eq_false hle, List.head?_cons, Option.any_some,
        hp.eq_false (Nat.not_lt.mp hc)]

/-! ### Where the text goes on -/

/-- From the byte offset on, the text is `rest`. -/
def At (cs : List Char) (pos : Nat) (rest : List Char) : Prop :=
  ∃ front, cs = front ++ rest ∧ pos = byteLength front

namespace At

theorem zero (cs : List Char) : At cs 0 cs := ⟨[], rfl, rfl⟩

theorem shift (h : At cs pos (mid ++ rest)) : At cs (pos + byteLength mid) rest := by
  obtain ⟨front, rfl, rfl⟩ := h
  exact ⟨front ++ mid, by simp, by simp⟩

theorem after (h : At cs pos (c :: rest)) : At cs (pos + c.utf8Size) rest :=
  shift (show At cs pos ([c] ++ rest) from h)

theorem next (h : At cs pos (c :: rest)) (hc : c.toNat < 0x80) : At cs (pos + 1) rest :=
  utf8Size_of_ascii hc ▸ h.after

theorem isBoundary (h : At cs pos rest) : IsBoundary cs pos := by
  obtain ⟨front, he, hp⟩ := h
  exact ⟨front, rest, he, hp⟩

theorem length (h : At cs pos rest) : (bytes cs).length = pos + byteLength rest := by
  obtain ⟨front, rfl, rfl⟩ := h
  rw [length_bytes, byteLength_append]

theorem byte? (h : At cs pos rest) (k : Nat) : Text.byte? cs (pos + k) = Text.byte? rest k := by
  obtain ⟨front, rfl, rfl⟩ := h
  exact byte?_append front rest k

theorem byte?_nil (h : At cs pos []) : Text.byte? cs pos = none := h.byte? 0

theorem byte?_of_ascii (h : At cs pos (c :: rest)) (hc : c.toNat < 0x80) :
    Text.byte? cs pos = some c := (h.byte? 0).trans (Text.byte?_of_ascii hc rest)

theorem byte?_inside (h : At cs pos (c :: rest)) (hc : 0x80 ≤ c.toNat) (hk : k < c.utf8Size) :
    ∃ b, Text.byte? cs (pos + k) = some b ∧ 0x80 ≤ b.toNat := by
  rw [h.byte?]
  exact Text.byte?_inside hc rest hk

theorem any_byte? (h : At cs pos rest) {p : Char → Bool} (hp : Ascii p) :
    (Text.byte? cs pos).any p = rest.head?.any p := by
  rw [← hp.any_byte?, ← h.byte?]
  rfl

theorem slice? (h : At cs pos (mid ++ rest)) :
    Text.slice? cs pos (pos + byteLength mid) = some mid := by
  obtain ⟨front, rfl, rfl⟩ := h
  exact slice?_eq_some_iff.mpr ⟨front, rest, rfl, rfl, rfl⟩

theorem slice?_length (h : At cs pos rest) : Text.slice? cs pos (bytes cs).length = some rest := by
  rw [h.length]
  rw [← List.append_nil rest] at h
  exact h.slice?

/-- Nothing is cut out up to an offset inside a character. -/
theorem slice?_inside (h : At cs pos (mid ++ c :: rest)) (hk : 0 < k) (hc : k < c.utf8Size) :
    Text.slice? cs pos (pos + byteLength mid + k) = none := by
  obtain ⟨front, rfl, rfl⟩ := h
  rw [Text.slice?, if_pos (by omega), splitAt?_append, Option.bind_some, Nat.add_assoc,
    Nat.add_sub_cancel_left]
  dsimp only
  rw [splitAt?_inside mid rest hk hc]
  rfl

end At

end Bindery.Text
