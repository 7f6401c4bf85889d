import Mathlib.Data.List.Induction
import Bindery.Lowering.Resolve

/-!
# Names of fixed arrays

The name of a fixed array tells its length, the base of its element and how many modifiers the
element has (`fixedArrayName_inj`), but not which modifiers they are. It ends in a digit, so it is
the name of no primitive type.
-/

namespace Bindery

variable {α : Type} {p : α → Bool} {as as' ds ds' : List α}

/-- Where a list ends in elements of a kind is determined by the last element of another kind. -/
theorem append_inj_of_getLast? (ha : ∀ a ∈ as.getLast?, p a = false)
    (ha' : ∀ a ∈ as'.getLast?, p a = false) (hd : ∀ d ∈ ds, p d) (hd' : ∀ d ∈ ds', p d)
    (h : as ++ ds = as' ++ ds') : as = as' ∧ ds = ds' := by
  have key : ∀ {as ds : List α}, (∀ a ∈ as.getLast?, p a = false) → (∀ d ∈ ds, p d) →
      (as ++ ds).reverse.takeWhile p = ds.reverse := by
    intro as ds ha hd
    rw [List.reverse_append, List.takeWhile_append_of_pos fun d h => hd d (List.mem_reverse.mp h)]
    cases as using List.reverseRecOn with
    | nil => simp
    | append_singleton as a => simp [ha a (by simp)]
  have hds : ds = ds' := List.reverse_inj.mp (by rw [← key ha hd, h, key ha' hd'])
  subst hds
  exact ⟨List.append_cancel_right h, rfl⟩

/-- `ptr`, `ptrPtr`, `ptrPtrPtr`, … -/
def pointerWords : Nat → List Char
  | 0 => ['p', 't', 'r']
  | k + 1 => pointerWords k ++ ['P', 't', 'r']

/-- What the name of a fixed array has between base and length. -/
def arrayShape : Nat → List Char
  | 0 => ['_', 'a', 'r', 'r', 'a', 'y']
  | k + 1 => '_' :: (pointerWords k ++ ['A', 'r', 'r', 'a', 'y'])

theorem pointerWords_eq (more : List Modifier) :
    pointerWords more.length =
      ['p', 't', 'r'] ++ (String.join (more.map fun _ => "Ptr")).toList := by
  induction more using List.reverseRecOn with
  | nil => rfl
  | append_singleton more m ih =>
    rw [List.length_append, List.length_singleton, pointerWords, ih, List.map_append,
      String.join_append, String.toList_append, List.append_assoc]
    simp

theorem toList_fixedArrayName (element : TypeRef) (length : Nat) :
    (fixedArrayName element length).toList =
      (element.base.toList ++ arrayShape element.modifiers.length) ++ Nat.toDigits 10 length := by
  unfold fixedArrayName
  cases element.modifiers with
  | nil => simp [arrayShape]
  | cons m more => simp [arrayShape, pointerWords_eq]

theorem getLast?_append_arrayShape (b : List Char) (k : Nat) :
    (b ++ arrayShape k).getLast? = some 'y' := by
  cases k with
  | zero => simp [arrayShape]
  | succ k => simp [arrayShape, List.getLast?_cons]

theorem pointerWords_inj {b b' : List Char} : ∀ {k k' : Nat},
    b ++ '_' :: pointerWords k = b' ++ '_' :: pointerWords k' → b = b' ∧ k = k'
  | 0, 0, h => ⟨List.append_cancel_right h, rfl⟩
  | k + 1, k' + 1, h => by
    have h : (b ++ '_' :: pointerWords k) ++ ['P', 't', 'r'] =
        (b' ++ '_' :: pointerWords k') ++ ['P', 't', 'r'] := by simpa [pointerWords] using h
    obtain ⟨hb, rfl⟩ := pointerWords_inj (List.append_cancel_right h)
    exact ⟨hb, rfl⟩
  -- a small `p` against a capital one
  | 0, k' + 1, h => by
    have h : (b ++ ['_']) ++ ['p', 't', 'r'] =
        (b' ++ '_' :: pointerWords k') ++ ['P', 't', 'r'] := by simpa [pointerWords] using h
    exact absurd (List.append_inj' h rfl).2 (by decide)
  | k + 1, 0, h => by
    have h : (b ++ '_' :: pointerWords k) ++ ['P', 't', 'r'] =
        (b' ++ ['_']) ++ ['p', 't', 'r'] := by simpa [pointerWords] using h
    exact absurd (List.append_inj' h rfl).2 (by decide)

theorem arrayShape_inj {b b' : List Char} : ∀ {k k' : Nat},
    b ++ arrayShape k = b' ++ arrayShape k' → b = b' ∧ k = k'
  | 0, 0, h => ⟨List.append_cancel_right h, rfl⟩
  | k + 1, k' + 1, h => by
    have h : (b ++ '_' :: pointerWords k) ++ ['A', 'r', 'r', 'a', 'y'] =
        (b' ++ '_' :: pointerWords k') ++ ['A', 'r', 'r', 'a', 'y'] := by simpa [arrayShape] using h
    obtain ⟨hb, rfl⟩ := pointerWords_inj (List.append_cancel_right h)
    exact ⟨hb, rfl⟩
  | 0, k' + 1, h => by
    have h : (b ++ ['_']) ++ ['a', 'r', 'r', 'a', 'y'] =
        (b' ++ '_' :: pointerWords k') ++ ['A', 'r', 'r', 'a', 'y'] := by simpa [arrayShape] using h
    exact absurd (List.append_inj' h rfl).2 (by decide)
  | k + 1, 0, h => by
    have h : (b ++ '_' :: pointerWords k) ++ ['A', 'r', 'r', 'a', 'y'] =
        (b' ++ ['_']) ++ ['a', 'r', 'r', 'a', 'y'] := by simpa [arrayShape] using h
    exact absurd (List.append_inj' h rfl).2 (by decide)

/-- The name tells base, number of modifiers and length. -/
theorem fixedArrayName_inj {e e' : TypeRef} {n n' : Nat} :
    fixedArrayName e n = fixedArrayName e' n' ↔
      e.base = e'.base ∧ e.modifiers.length = e'.modifiers.length ∧ n = n' := by
  constructor
  · intro h
    have h := congrArg String.toList h
    rw [toList_fixedArrayName, toList_fixedArrayName] at h
    have hy : ∀ (e : TypeRef), ∀ c ∈ (e.base.toList ++ arrayShape e.modifiers.length).getLast?,
        c.isDigit = false := fun e c hc => by
      rw [getLast?_append_arrayShape] at hc
      cases hc
      rfl
    have hd : ∀ n, ∀ c ∈ Nat.toDigits 10 n, c.isDigit = true := fun n c =>
      Nat.isDigit_of_mem_toDigits (by decide) (by decide)
    obtain ⟨hs, hn⟩ := append_inj_of_getLast? (hy e) (hy e') (hd n) (hd n') h
    obtain ⟨hb, hm⟩ := arrayShape_inj hs
    refine ⟨String.toList_injective hb, hm, ?_⟩
    rw [← Nat.ofDigitChars_ten_toDigits (n := n), hn, Nat.ofDigitChars_ten_toDigits]
  · rintro ⟨hb, hm, rfl⟩
    apply String.toList_injective
    rw [toList_fixedArrayName, toList_fixedArrayName, hb, hm]

theorem fixedArrayName_congr {e e' : TypeRef} (h : e.key = e'.key) (n : Nat) :
    fixedArrayName e n = fixedArrayName e' n :=
  fixedArrayName_inj.mpr
    ⟨congrArg TypeKey.base h, congrArg (List.length ∘ TypeKey.modifiers) h, rfl⟩

/-- No fixed array has the name of a primitive type. -/
theorem Primitive.ofName?_fixedArrayName (e : TypeRef) (n : Nat) :
    Primitive.ofName? (fixedArrayName e n) = none := by
  have hp : ∀ q : Primitive, q.name.toList.getLast?.any Char.isDigit = false := fun q => by
    cases q <;> decide
  have hn : (fixedArrayName e n).toList.getLast?.any Char.isDigit = true := by
    rw [toList_fixedArrayName, List.getLast?_append,
      List.getLast?_eq_some_getLast Nat.toDigits_ne_nil]
    exact Nat.isDigit_of_mem_toDigits (by decide) (by decide) (List.getLast_mem _)
  refine List.find?_eq_none.mpr fun q _ hq => ?_
  rw [← eq_of_beq hq, hp] at hn
  cases hn

end Bindery
