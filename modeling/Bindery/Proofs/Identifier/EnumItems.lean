import Mathlib.Data.List.Forall2
import Mathlib.Order.Bounds.Basic
import Bindery.Identifier.Camel
import Bindery.Proofs.Identifier.Words

/-!
# Names of enum items

How many words an enum's items lose is settled by one equivalence: `m` words can go just when every
item has more than `m` and the items agree on their first `m` (`le_commonPrefixLength_iff`). What is
left of an item is written in camel form, whose characters are known because words are in ASCII
(`toList_joinCamel`).
-/

namespace Bindery.Identifier

open Text

/-! ### Shared words -/

section Shared

variable {first ws ws' : List String} {rest wss : List (List String)} {m n : Nat}

/-- As many words are shared as all the others begin with, among the `n` that are looked at. -/
theorem le_sharedWords_iff : m ≤ sharedWords rest n first ↔
    m ≤ n ∧ m ≤ first.length ∧ ∀ other ∈ rest, other.take m = first.take m := by
  induction n generalizing rest first m with
  | zero =>
    rw [sharedWords]
    refine ⟨fun hm => ?_, fun hm => hm.1⟩
    cases Nat.le_zero.mp hm
    exact ⟨hm, Nat.zero_le _, fun _ _ => rfl⟩
  | succ n ih =>
    cases m with
    | zero => exact ⟨fun _ => ⟨Nat.zero_le _, Nat.zero_le _, fun _ _ => rfl⟩, fun _ => Nat.zero_le _⟩
    | succ m =>
      cases first with
      | nil => simp [sharedWords]
      | cons w ws =>
        have hcons : ∀ other : List String, other.take (m + 1) = (w :: ws).take (m + 1) ↔
            other.head? = some w ∧ other.tail.take m = ws.take m := by
          rintro (_ | ⟨v, vs⟩) <;> simp
        rw [sharedWords]
        split
        · next hall =>
          have hhead : ∀ other ∈ rest, other.head? = some w := fun other ho =>
            eq_of_beq (List.all_eq_true.mp hall other ho)
          rw [Nat.succ_le_succ_iff, ih, List.forall_mem_map, List.length_cons,
            Nat.succ_le_succ_iff, Nat.succ_le_succ_iff]
          refine and_congr_right fun _ => and_congr_right fun _ => forall₂_congr fun other ho => ?_
          rw [hcons, and_iff_right (hhead other ho)]
        · next hall =>
          refine ⟨fun h => absurd h (Nat.not_succ_le_zero m), fun ⟨_, _, h⟩ => ?_⟩
          refine absurd (List.all_eq_true.mpr fun other ho => ?_) hall
          exact beq_iff_eq.mpr ((hcons other).mp (h other ho)).1

theorem lt_foldl_min_iff {k : Nat} : m < rest.foldl (fun n ws => min n ws.length) k ↔
    m < k ∧ ∀ ws ∈ rest, m < ws.length := by
  induction rest generalizing k with
  | nil => simp
  | cons ws rest ih => rw [List.foldl_cons, ih, List.forall_mem_cons, Nat.lt_min, and_assoc]

/-- No matter how many words they have, the lists agree on those that are shared. -/
theorem take_commonPrefixLength (hw : ws ∈ wss) (hw' : ws' ∈ wss) :
    ws.take (commonPrefixLength wss) = ws'.take (commonPrefixLength wss) := by
  cases wss with
  | nil => cases hw
  | cons first rest =>
    obtain ⟨-, -, hrest⟩ := le_sharedWords_iff.mp (Nat.le_refl (commonPrefixLength (first :: rest)))
    have hfirst : ∀ ws ∈ first :: rest, ws.take (commonPrefixLength (first :: rest)) =
        first.take (commonPrefixLength (first :: rest)) :=
      List.forall_mem_cons.mpr ⟨rfl, hrest⟩
    rw [hfirst ws hw, hfirst ws' hw']

/-- So many words can be taken away: every list has more, and the lists agree on them. -/
theorem le_commonPrefixLength_iff (hne : wss ≠ []) (hnil : ∀ ws ∈ wss, ws ≠ []) :
    m ≤ commonPrefixLength wss ↔
      (∀ ws ∈ wss, m < ws.length) ∧ ∀ ws ∈ wss, ∀ ws' ∈ wss, ws.take m = ws'.take m := by
  obtain ⟨first, rest, rfl⟩ := List.exists_cons_of_ne_nil hne
  have hpos : ∀ ws ∈ first :: rest, 0 < ws.length :=
    fun ws hw => List.length_pos_iff.mpr (hnil ws hw)
  have hshort : ∀ k, k < rest.foldl (fun n ws => min n ws.length) first.length ↔
      ∀ ws ∈ first :: rest, k < ws.length := fun k => by
    rw [lt_foldl_min_iff, List.forall_mem_cons]
  have hlt : 0 < rest.foldl (fun n ws => min n ws.length) first.length := (hshort 0).mpr hpos
  rw [commonPrefixLength, le_sharedWords_iff, Nat.le_sub_one_iff_lt hlt, hshort]
  constructor
  · rintro ⟨hlen, -, hrest⟩
    have hfirst : ∀ ws ∈ first :: rest, ws.take m = first.take m :=
      List.forall_mem_cons.mpr ⟨rfl, hrest⟩
    exact ⟨hlen, fun ws hw ws' hw' => (hfirst ws hw).trans (hfirst ws' hw').symm⟩
  · rintro ⟨hlen, hall⟩
    have hmem : first ∈ first :: rest := List.mem_cons_self ..
    exact ⟨hlen, Nat.le_of_lt (hlen first hmem),
      fun other ho => hall other (List.mem_cons_of_mem _ ho) first hmem⟩

end Shared

/-! ### Camel form -/

section Camel

variable {c : Char} {w : List Char} {ws : List String} {a : String}

/-- What is true of every character in ASCII is seen by trying them all. -/
theorem forall_ascii {P : Char → Prop} (h : ∀ n < 0x80, P (Char.ofNat n)) (hc : c.toNat < 0x80) :
    P c := by
  rw [← Char.ofNat_toNat c]
  exact h _ hc

theorem isAlphanum_toUpper (h : c.isAlphanum = true) : c.toUpper.isAlphanum = true :=
  forall_ascii (P := fun c => c.isAlphanum = true → c.toUpper.isAlphanum = true) (by decide)
    (ascii_isAlphanum c h) h

theorem isAlphanum_toLower (h : c.isAlphanum = true) : c.toLower.isAlphanum = true :=
  forall_ascii (P := fun c => c.isAlphanum = true → c.toLower.isAlphanum = true) (by decide)
    (ascii_isAlphanum c h) h

/-- The word with its first character in upper case and the others in lower case. -/
def capitalized : List Char → List Char
  | [] => []
  | c :: cs => c.toUpper :: cs.map Char.toLower

/-- The words in camel form, one after the other. -/
def inCamel (ws : List String) : List Char := ws.flatMap fun w => capitalized w.toList

theorem toList_capitalize (h : ∀ d ∈ a.toList, d.toNat < 0x80) :
    (capitalize a).toList = capitalized a.toList := by
  unfold capitalize
  generalize a.toList = w at h
  cases w with
  | nil => rfl
  | cons c cs =>
    obtain ⟨hc, hcs⟩ := List.forall_mem_cons.mp h
    have hlower : cs.flatMap lowercase = cs.map Char.toLower := by
      rw [List.flatMap_congr fun d hd => lowercase_of_ascii (hcs d hd), List.map_eq_flatMap]
    dsimp only
    rw [uppercase_of_ascii hc, hlower, String.toList_ofList]
    rfl

theorem isWord_of_mem_words {name : String} (h : a ∈ words name) : IsWord a.toList := by
  obtain ⟨w, hw, rfl⟩ := List.mem_map.mp h
  rw [String.toList_ofList]
  exact isWord_of_mem_wordsOf w hw

theorem toList_joinCamel (h : ∀ w ∈ ws, IsWord w.toList) : (joinCamel ws).toList = inCamel ws := by
  rw [joinCamel, String.toList_join, List.flatMap_map]
  refine List.flatMap_congr fun w hw => toList_capitalize fun d hd => ?_
  exact ascii_isAlphanum d ((h w hw).isAlphanum d hd)

theorem isAlphanum_of_mem_inCamel (h : ∀ w ∈ ws, IsWord w.toList) :
    ∀ c ∈ inCamel ws, c.isAlphanum = true := by
  intro c hc
  obtain ⟨a, ha, hc⟩ := List.mem_flatMap.mp hc
  have hword := (h a ha).isAlphanum
  generalize a.toList = w at hc hword
  cases w with
  | nil => cases hc
  | cons d ds =>
    rcases List.mem_cons.mp hc with rfl | hc
    · exact isAlphanum_toUpper (hword d (List.mem_cons_self ..))
    · obtain ⟨e, he, rfl⟩ := List.mem_map.mp hc
      exact isAlphanum_toLower (hword e (List.mem_cons_of_mem _ he))

theorem inCamel_ne_nil (hne : ws ≠ []) (h : ∀ w ∈ ws, IsWord w.toList) : inCamel ws ≠ [] := by
  obtain ⟨a, ws, rfl⟩ := List.exists_cons_of_ne_nil hne
  obtain ⟨c, cs, hcs⟩ := List.exists_cons_of_ne_nil (h a (List.mem_cons_self ..)).ne_nil
  rw [inCamel, List.flatMap_cons, hcs]
  exact List.cons_ne_nil _ _

theorem inCamel_append (ws ws' : List String) : inCamel (ws ++ ws') = inCamel ws ++ inCamel ws' :=
  List.flatMap_append

end Camel

/-! ### Names -/

variable {items : List String} {a name : String} {c : Char} {cs : List Char} {n : Nat}

theorem toList_guardDigit (h : name.toList = c :: cs) :
    (guardDigit name).toList = if c.isDigit then '_' :: c :: cs else c :: cs := by
  rw [guardDigit, h, List.head?_cons, Option.any_some]
  split
  · rw [String.toList_append, h]
    rfl
  · exact h

/-- The name of an item that has lost its first `n` words. -/
def nameAfter (n : Nat) (a : String) : String := guardDigit (joinCamel ((words a).drop n))

theorem enumItemNames_eq (items : List String) : enumItemNames items =
    items.map (nameAfter (commonPrefixLength (items.map words))) := by
  rw [enumItemNames, List.map_map]
  rfl

theorem isWord_of_mem_drop {w : String} (h : w ∈ (words a).drop n) : IsWord w.toList :=
  isWord_of_mem_words (List.mem_of_mem_drop h)

/-- A name with a letter or digit has a word. -/
theorem words_ne_nil (h : ∀ c ∈ a.toList, isIdentContinue c = true)
    (hc : ∃ c ∈ a.toList, c.isAlphanum = true) : words a ≠ [] := by
  intro hw
  obtain ⟨c, hmem, hc⟩ := hc
  have hflat := flatten_wordsOf h
  rw [List.map_eq_nil_iff.mp hw, List.flatten_nil] at hflat
  exact List.filter_eq_nil_iff.mp hflat.symm c hmem (bne_underscore hc)

/-- `name` is what is left of `item` without its first `n` words: the other words in camel form,
after an underscore just when a digit comes first. It has a character, and it begins with a letter
or that underscore. -/
structure NamesItem (n : Nat) (item name : String) : Prop where
  camel : ∃ c cs, inCamel ((words item).drop n) = c :: cs ∧
    name.toList = if c.isDigit then '_' :: c :: cs else c :: cs
  start : ∃ c cs, name.toList = c :: cs ∧ (c.isAlpha = true ∨ c = '_')
  alphanum : ∀ c ∈ inCamel ((words item).drop n), c.isAlphanum = true

theorem namesItem_nameAfter (hn : n < (words a).length) : NamesItem n a (nameAfter n a) := by
  have hwords : ∀ w ∈ (words a).drop n, IsWord w.toList := fun w => isWord_of_mem_drop
  have halnum := isAlphanum_of_mem_inCamel hwords
  have hne : (words a).drop n ≠ [] := fun h => Nat.not_le.mpr hn (List.drop_eq_nil_iff.mp h)
  obtain ⟨c, cs, hcs⟩ := List.exists_cons_of_ne_nil (inCamel_ne_nil hne hwords)
  have hname : (nameAfter n a).toList = if c.isDigit then '_' :: c :: cs else c :: cs :=
    toList_guardDigit ((toList_joinCamel hwords).trans hcs)
  refine ⟨⟨c, cs, hcs, hname⟩, ?_, halnum⟩
  split at hname
  · exact ⟨'_', _, hname, .inr rfl⟩
  · next hd =>
    have hc : c.isAlphanum = true := halnum c (hcs ▸ List.mem_cons_self ..)
    exact ⟨c, cs, hname, .inl ((Bool.or_eq_true_iff.mp hc).resolve_right hd)⟩

/-- **Enum items lose as many words as they can.** The items of an enum lose the most leading words
that all of them share and that leave each a word, and every item gets a name made of the words that
are left. -/
theorem enumItemNames_strip_most (hne : items ≠ [])
    (hitems : ∀ a ∈ items, (∀ c ∈ a.toList, isIdentContinue c = true) ∧
      ∃ c ∈ a.toList, c.isAlphanum = true) :
    ∃ n, IsGreatest {m | (∀ a ∈ items, m < (words a).length) ∧
        ∀ a ∈ items, ∀ b ∈ items, (words a).take m = (words b).take m} n ∧
      List.Forall₂ (NamesItem n) items (enumItemNames items) := by
  have hle : ∀ m, m ≤ commonPrefixLength (items.map words) ↔
      (∀ a ∈ items, m < (words a).length) ∧
        ∀ a ∈ items, ∀ b ∈ items, (words a).take m = (words b).take m := fun m => by
    rw [le_commonPrefixLength_iff (List.map_eq_nil_iff.not.mpr hne) (List.forall_mem_map.mpr
      fun a ha => words_ne_nil (hitems a ha).1 (hitems a ha).2)]
    simp only [List.forall_mem_map]
  obtain ⟨hlen, hagree⟩ := (hle _).mp (Nat.le_refl _)
  refine ⟨commonPrefixLength (items.map words), ⟨⟨hlen, hagree⟩, fun m hm => (hle m).mpr hm⟩, ?_⟩
  rw [enumItemNames_eq, List.forall₂_map_right_iff]
  exact List.forall₂_same.mpr fun a ha => namesItem_nameAfter (hlen a ha)

/-- The items share `MODE` and `2D`, but one of them has nothing after that. -/
theorem enumItemNames_strip_most_modes :
    let items := ["MODE_2D", "MODE_2D_ARRAY", "MODE_2D_MSAA"]
    items ≠ [] ∧ (∀ a ∈ items, (∀ c ∈ a.toList, isIdentContinue c = true) ∧
      ∃ c ∈ a.toList, c.isAlphanum = true) ∧
    enumItemNames items = ["_2d", "_2dArray", "_2dMsaa"] ∧
    ∃ n, IsGreatest {m | (∀ a ∈ items, m < (words a).length) ∧
        ∀ a ∈ items, ∀ b ∈ items, (words a).take m = (words b).take m} n ∧
      List.Forall₂ (NamesItem n) items (enumItemNames items) := by
  intro items
  have hne : items ≠ [] := List.cons_ne_nil _ _
  have hitems : ∀ a ∈ items, (∀ c ∈ a.toList, isIdentContinue c = true) ∧
      ∃ c ∈ a.toList, c.isAlphanum = true := by
    simp only [← List.all_eq_true, ← List.any_eq_true]
    decide
  exact ⟨hne, hitems, by decide +kernel, enumItemNames_strip_most hne hitems⟩

end Bindery.Identifier
