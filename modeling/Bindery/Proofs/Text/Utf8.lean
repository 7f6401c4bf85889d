import Mathlib.Tactic.SplitIfs
import Bindery.Text.Utf8

/-!
# Reading written text

Text that is written as UTF-8 is read back as it is (`decodeUtf8_encode`). Each length of a
character has a lead byte of its own, and the lead byte admits the byte that comes next.
-/

namespace Bindery.Text

variable {b : UInt8} {bytes rest : List UInt8} {n low high bits code : Nat}

theorem readTail_cons (hl : low ≤ b.toNat) (hh : b.toNat ≤ high) :
    readTail low high bits (n + 1) (b :: bytes) =
      readTail 0x80 0xbf (bits * 64 + (b.toNat - 0x80)) n bytes := by
  rw [readTail, if_pos ⟨hl, hh⟩]

/-- A byte that carries six bits of a character is read for these. -/
theorem readTail_six (v : Nat) (hl : low ≤ v % 64 + 128) (hh : v % 64 + 128 ≤ high) :
    readTail low high bits (n + 1) (UInt8.ofNat (v % 64 + 128) :: bytes) =
      readTail 0x80 0xbf (bits * 64 + v % 64) n bytes := by
  have hb : (UInt8.ofNat (v % 64 + 128)).toNat = v % 64 + 128 := by
    rw [UInt8.toNat_ofNat']
    omega
  rw [readTail_cons (by omega) (by omega), hb, Nat.add_sub_cancel]

theorem decodeUtf8_cons (hb : leadByte? b.toNat = some (n, low, high, bits))
    (ht : readTail low high bits n bytes = (some code, rest)) :
    decodeUtf8 (b :: bytes) = Char.ofNat code :: decodeUtf8 rest := by
  rw [decodeUtf8, hb]
  simp only [ht, Option.map_some, Option.getD_some]

/-! ### Lead bytes -/

theorem leadByte?_one {v : Nat} (h : v ≤ 0x7f) : leadByte? v = some (0, 0x80, 0xbf, v) :=
  if_pos (by omega)

theorem leadByte?_two {v : Nat} (h : 0x7f < v) (h' : v ≤ 0x7ff) :
    leadByte? (v / 64 % 32 + 192) = some (1, 0x80, 0xbf, v / 64) := by
  rw [leadByte?, if_neg (by omega), if_neg (by omega), if_pos (by omega),
    show v / 64 % 32 + 192 - 0xc0 = v / 64 by omega]

/-- The first byte of three admits the second one: no number is written longer than it has to be,
and no surrogate is written. -/
theorem leadByte?_three {v : Nat} (h : 0x7ff < v) (h' : v ≤ 0xffff)
    (hv : v < 0xd800 ∨ 0xdfff < v) :
    ∃ low high, leadByte? (v / 4096 % 16 + 224) = some (2, low, high, v / 4096) ∧
      low ≤ v / 64 % 64 + 128 ∧ v / 64 % 64 + 128 ≤ high := by
  have hb : v / 4096 % 16 + 224 - 0xe0 = v / 4096 := by omega
  rw [leadByte?, if_neg (by omega), if_neg (by omega), if_neg (by omega), hb]
  by_cases hfirst : v / 4096 % 16 + 224 = 0xe0
  · rw [if_pos hfirst]
    exact ⟨_, _, rfl, by omega, by omega⟩
  by_cases hsurrogate : v / 4096 % 16 + 224 = 0xed
  · rw [if_neg hfirst, if_pos hsurrogate]
    exact ⟨_, _, rfl, by omega, by omega⟩
  · rw [if_neg hfirst, if_neg hsurrogate, if_pos (by omega)]
    exact ⟨_, _, rfl, by omega, by omega⟩

theorem leadByte?_four {v : Nat} (h : 0xffff < v) (h' : v < 0x110000) :
    ∃ low high, leadByte? (v / 262144 % 8 + 240) = some (3, low, high, v / 262144) ∧
      low ≤ v / 4096 % 64 + 128 ∧ v / 4096 % 64 + 128 ≤ high := by
  have hb : v / 262144 % 8 + 240 - 0xf0 = v / 262144 := by omega
  rw [leadByte?, if_neg (by omega), if_neg (by omega), if_neg (by omega), if_neg (by omega),
    if_neg (by omega), if_neg (by omega), hb]
  by_cases hfirst : v / 262144 % 8 + 240 = 0xf0
  · rw [if_pos hfirst]
    exact ⟨_, _, rfl, by omega, by omega⟩
  by_cases hlast : v / 262144 % 8 + 240 = 0xf4
  · rw [if_neg hfirst, if_neg (by omega), if_pos hlast]
    exact ⟨_, _, rfl, by omega, by omega⟩
  · rw [if_neg hfirst, if_pos (by omega)]
    exact ⟨_, _, rfl, by omega, by omega⟩

/-! ### Characters -/

theorem toNat_ofNat_of_lt {x : Nat} (h : x < 256) : (UInt8.ofNat x).toNat = x := by
  rw [UInt8.toNat_ofNat', Nat.mod_eq_of_lt h]

theorem decodeUtf8_one {v : Nat} (h : v ≤ 0x7f) :
    decodeUtf8 (UInt8.ofNat v :: rest) = Char.ofNat v :: decodeUtf8 rest := by
  have hb := leadByte?_one h
  rw [← toNat_ofNat_of_lt (x := v) (by omega)] at hb
  refine decodeUtf8_cons hb ?_
  rw [readTail, toNat_ofNat_of_lt (by omega)]

theorem decodeUtf8_two {v : Nat} (h : 0x7f < v) (h' : v ≤ 0x7ff) :
    decodeUtf8 (UInt8.ofNat (v / 64 % 32 + 192) :: UInt8.ofNat (v % 64 + 128) :: rest) =
      Char.ofNat v :: decodeUtf8 rest := by
  have hb := leadByte?_two h h'
  rw [← toNat_ofNat_of_lt (x := v / 64 % 32 + 192) (by omega)] at hb
  refine decodeUtf8_cons hb ?_
  rw [readTail_six v (by omega) (by omega), readTail, show v / 64 * 64 + v % 64 = v by omega]

theorem decodeUtf8_three {v : Nat} (h : 0x7ff < v) (h' : v ≤ 0xffff)
    (hv : v < 0xd800 ∨ 0xdfff < v) :
    decodeUtf8 (UInt8.ofNat (v / 4096 % 16 + 224) :: UInt8.ofNat (v / 64 % 64 + 128) ::
      UInt8.ofNat (v % 64 + 128) :: rest) = Char.ofNat v :: decodeUtf8 rest := by
  obtain ⟨low, high, hb, hl, hh⟩ := leadByte?_three h h' hv
  rw [← toNat_ofNat_of_lt (x := v / 4096 % 16 + 224) (by omega)] at hb
  refine decodeUtf8_cons hb ?_
  rw [readTail_six (v / 64) hl hh, readTail_six v (by omega) (by omega), readTail,
    show (v / 4096 * 64 + v / 64 % 64) * 64 + v % 64 = v by omega]

theorem decodeUtf8_four {v : Nat} (h : 0xffff < v) (h' : v < 0x110000) :
    decodeUtf8 (UInt8.ofNat (v / 262144 % 8 + 240) :: UInt8.ofNat (v / 4096 % 64 + 128) ::
      UInt8.ofNat (v / 64 % 64 + 128) :: UInt8.ofNat (v % 64 + 128) :: rest) =
        Char.ofNat v :: decodeUtf8 rest := by
  obtain ⟨low, high, hb, hl, hh⟩ := leadByte?_four h h'
  rw [← toNat_ofNat_of_lt (x := v / 262144 % 8 + 240) (by omega)] at hb
  refine decodeUtf8_cons hb ?_
  rw [readTail_six (v / 4096) hl hh, readTail_six (v / 64) (by omega) (by omega),
    readTail_six v (by omega) (by omega), readTail,
    show ((v / 262144 * 64 + v / 4096 % 64) * 64 + v / 64 % 64) * 64 + v % 64 = v by omega]

theorem decodeUtf8_encodeChar (c : Char) (rest : List UInt8) :
    decodeUtf8 (String.utf8EncodeChar c ++ rest) = c :: decodeUtf8 rest := by
  have hc : Char.ofNat c.val.toNat = c := Char.ofNat_toNat c
  have hvalid : c.val.toNat < 0xd800 ∨ 0xdfff < c.val.toNat ∧ c.val.toNat < 0x110000 := c.valid
  unfold String.utf8EncodeChar
  generalize c.val.toNat = v at hc hvalid ⊢
  rw [← hc]
  dsimp only
  split_ifs with h₁ h₂ h₃
  · exact decodeUtf8_one h₁
  · exact decodeUtf8_two (by omega) h₂
  · exact decodeUtf8_three (by omega) h₃ (by omega)
  · exact decodeUtf8_four (by omega) (by omega)

/-- Text that is written as UTF-8 is read back. -/
theorem decodeUtf8_encode (cs : List Char) :
    decodeUtf8 (cs.flatMap String.utf8EncodeChar) = cs := by
  induction cs with
  | nil => rw [List.flatMap_nil, decodeUtf8]
  | cons c cs ih => rw [List.flatMap_cons, decodeUtf8_encodeChar, ih]

end Bindery.Text
