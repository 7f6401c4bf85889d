import Bindery.Proofs.Lowering.Reached

/-!
# What the reference to a fixed array leads to

A fixed array is shared by the structure of its element and its length, but it is registered under a
name that tells base, number of modifiers and length only. So the reference that resolution answers
with leads to the array of that element just when nothing else had the name before
(`Lowerer.Reached.resolve_fixedArray`), and arrays of pointers and of pointers to const share one
definition (`Lowerer.not_isArrayOf_constPointer`).
-/

namespace Bindery

/-- The definition is the array of that element type and length, display names aside. -/
def Definition.IsArrayOf (d : Definition) (element : TypeRef) (length : Nat) : Prop :=
  ∃ a, d = .fixedArray a ∧ a.element.key = element.key ∧ a.length = length

open Registry

section Arrays

variable {s t : Registry} {hint : Option String} {element ref : TypeRef} {length : Nat}
  {a : FixedArray}

/-- An array that goes by a name has the shape that the name tells. -/
theorem Registry.WellTyped.shape_of_find? (h : s.WellTyped)
    (hf : s.find? (fixedArrayName element length) = some (.fixedArray a)) :
    a.length = length ∧ a.element.base = element.base ∧
      a.element.modifiers.length = element.modifiers.length := by
  obtain ⟨id, hd, hn⟩ := h.consistent.find?_eq_some_iff.mp hf
  have hname : fixedArrayName a.element a.length = fixedArrayName element length :=
    (h.arraysNamed hd).symm.trans hn
  obtain ⟨hb, hm, hl⟩ := fixedArrayName_inj.mp hname
  exact ⟨hl, hb, hm⟩

theorem Registry.isArrayOf_newArray (s : Registry) (element : TypeRef) (length : Nat) :
    Definition.IsArrayOf (.fixedArray (s.newArray element length)) element length :=
  ⟨_, rfl, rfl, rfl⟩

/-- Where the name of an array is not refused, something is found under it, and that is the array
just when what was found before was. -/
theorem find?_of_fixedArrayOf (h : s.WellTyped) (he : s.Stands element.base)
    (hs : s.isSuppressed (fixedArrayName element length) = false)
    (hr : fixedArrayOf length element s = .ok ref t) :
    ref = .plain (fixedArrayName element length) ∧ ∃ d, t.find? ref.base = some d ∧
      (d.IsArrayOf element length ↔
        ∀ d₀, s.find? ref.base = some d₀ → d₀.IsArrayOf element length) := by
  obtain ⟨u, hu, -, hf⟩ := fixedArrayOf_eq_ok h length he
  cases hu.symm.trans hr
  refine ⟨rfl, ?_⟩
  change ∃ d, t.find? (fixedArrayName element length) = some d ∧ (_ ↔
    ∀ d₀, s.find? (fixedArrayName element length) = some d₀ → _)
  rw [hf, if_pos ⟨rfl, hs⟩]
  cases s.find? (fixedArrayName element length) with
  | none => exact ⟨_, rfl, by simpa using s.isArrayOf_newArray element length⟩
  | some d₀ => exact ⟨d₀, rfl, by simp⟩

theorem resolve_fixedArray_eq (hn : hint.bind s.delegate? = none) (inStruct : Bool)
    (element : CType) (length : Nat) (elementConst : Bool) :
    resolve .none hint inStruct (.array element (.constant length) elementConst) s =
      (resolve .none hint true element >>= fixedArrayOf length) s := by
  rw [resolve]
  exact resolveFirst_eq hn _ _

end Arrays

namespace Lowerer

variable {l : Lowerer} {r : Registry} {hint : Option String} {inStruct : Bool} {element : CType}
  {length : Nat} {elementConst : Bool} {ref : TypeRef}

/-- **What a fixed array leads to.** With nothing suppressed and a hint that names no delegate, the
reference to `T[N]` has the name that the element `T` resolves to and `N` give. What is registered
there is the array of that element and length just when what had the name before was, if there was
anything. Where it is an array at all, only the modifiers of its element may differ, and not their
number. -/
theorem Reached.resolve_fixedArray (h : l.Reached) (hs : l.registry.suppressed = [])
    (hh : ∀ n, hint = some n → l.registry.kindOf? n ≠ some .delegateDef)
    (hr : Bindery.resolve l.override hint inStruct (.array element (.constant length) elementConst)
      l.registry = .ok ref r) :
    ∃ ty r₁ d, Bindery.resolve l.override hint true element l.registry = .ok ty r₁ ∧
      ref = .plain (fixedArrayName ty length) ∧ r.find? ref.base = some d ∧
      (d.IsArrayOf ty length ↔ ∀ d₁, r₁.find? ref.base = some d₁ → d₁.IsArrayOf ty length) ∧
      (∀ a, d = .fixedArray a → a.length = length ∧ a.element.base = ty.base ∧
        a.element.modifiers.length = ty.modifiers.length) ∧
      ∀ ty' length', fixedArrayName ty' length' = ref.base ↔
        ty'.base = ty.base ∧ ty'.modifiers.length = ty.modifiers.length ∧ length' = length := by
  have hfree : hint.bind l.registry.delegate? = none := by
    refine Option.bind_eq_none_iff.mpr fun n hn => ?_
    rw [delegate?, if_neg (hh n hn)]
  rw [h.sound.override] at hr ⊢
  obtain ⟨ty, r₁, hty, hr⟩ := of_bind_eq_ok ((resolve_fixedArray_eq hfree ..).symm.trans hr)
  obtain ⟨hadv, hst⟩ := (leads_resolve element hint true h.wellTyped).of_ok hty
  have hsup : r₁.isSuppressed (fixedArrayName ty length) = false := by
    rw [hadv.grows.isSuppressed, isSuppressed, hs]
    rfl
  obtain ⟨rfl, d, hd, hiff⟩ := find?_of_fixedArrayOf hadv.wellTyped hst hsup hr
  have hr : r.WellTyped := ((leads_fixedArrayOf hadv.wellTyped length hst).of_ok hr).1.wellTyped
  exact ⟨ty, r₁, d, hty, rfl, hd, hiff, fun a ha => hr.shape_of_find? (ha ▸ hd),
    fun ty' length' => fixedArrayName_inj⟩

/-- Four pointers to `int`, or to `const int`. -/
def fourPointers (pointeeConst : Bool) : CType :=
  .array (.pointer (.builtin .int) pointeeConst) (.constant 4) false

/-- The lowerer that has seen a struct with four pointers to `int`. -/
def afterRows : Lowerer :=
  new.after (process [⟨"table.h", false, [], [],
    [⟨some "Table", some [⟨"rows", fourPointers false, none, .none, none⟩], false, .none⟩],
    [], []⟩])

/-- Two times the array of the struct is an array of it. -/
theorem resolve_fixedArray_afterRows :
    afterRows.Reached ∧ ∃ ref r,
      Bindery.resolve afterRows.override (some "Table_Grid") true
        (.array (fourPointers false) (.constant 2) false) afterRows.registry = .ok ref r ∧
      ref.base = "int_ptrArray4_array2" ∧
      ∃ ty r₁ d, Bindery.resolve afterRows.override (some "Table_Grid") true (fourPointers false)
          afterRows.registry = .ok ty r₁ ∧
        ref = .plain (fixedArrayName ty 2) ∧ r.find? ref.base = some d ∧
        (d.IsArrayOf ty 2 ↔ ∀ d₁, r₁.find? ref.base = some d₁ → d₁.IsArrayOf ty 2) ∧
        (∀ a, d = .fixedArray a → a.length = 2 ∧ a.element.base = ty.base ∧
          a.element.modifiers.length = ty.modifiers.length) ∧
        ∀ ty' length', fixedArrayName ty' length' = ref.base ↔
          ty'.base = ty.base ∧ ty'.modifiers.length = ty.modifiers.length ∧ length' = 2 := by
  have h : afterRows.Reached := .process .new _
  have hh : ∀ n, some "Table_Grid" = some n →
      afterRows.registry.kindOf? n ≠ some .delegateDef := fun n hn => by
    cases hn
    rw [show afterRows.registry.kindOf? "Table_Grid" = none by rfl]
    exact nofun
  obtain ⟨ref, r, hr, hb⟩ : ∃ ref r, Bindery.resolve afterRows.override (some "Table_Grid") true
      (.array (fourPointers false) (.constant 2) false) afterRows.registry = .ok ref r ∧
      ref.base = "int_ptrArray4_array2" := ⟨_, _, rfl, rfl⟩
  exact ⟨h, ref, r, hr, hb, h.resolve_fixedArray rfl hh hr⟩

/-- Four pointers to `const int` are taken for the four pointers to `int`. -/
theorem not_isArrayOf_constPointer :
    afterRows.Reached ∧ afterRows.registry.suppressed = [] ∧
    afterRows.registry.kindOf? "Table_Keys" = none ∧ ∃ ref r ty r₁ d,
      Bindery.resolve afterRows.override (some "Table_Keys") true (fourPointers true)
        afterRows.registry = .ok ref r ∧
      Bindery.resolve afterRows.override (some "Table_Keys") true (.pointer (.builtin .int) true)
        afterRows.registry = .ok ty r₁ ∧
      ty.modifiers = [.constPointer] ∧ r.find? ref.base = some d ∧ ¬d.IsArrayOf ty 4 := by
  refine ⟨.process .new _, rfl, rfl, _, _, _, _, _, rfl, rfl, rfl, rfl, ?_⟩
  rintro ⟨a, he, hk, -⟩
  cases he
  cases hk

end Lowerer

end Bindery
