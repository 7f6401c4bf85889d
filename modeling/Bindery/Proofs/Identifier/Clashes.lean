import Mathlib.Data.List.Nodup
import Bindery.Proofs.Identifier.EnumItems

/-!
# Enum items that get the same name

Distinct items may get the same name, because splitting forgets where the underscores are and camel
form forgets the case of letters (`not_nodup_enumItemNames`). A camel form tells its letters and
digits up to case and which letters begin a word, and nothing else (`inCamel_eq_iff`): that a word
begins with a digit is not seen. Two items clash just when they agree in that (`Clash`); that all
items lose the same words, and the underscore before a digit, make no difference.
-/

namespace Bindery.Identifier

variable {c d : Char} {cs : List Char} {ws ws' : List String} {items : List String} {a b : String}
  {n : Nat}

/-! ### What a camel form tells -/

/-- The characters of the words, in lower case. -/
def lowered (ws : List String) : List Char := ws.flatMap fun w => w.toList.map Char.toLower

/-- For each character of a word, whether it is a letter that begins the word. -/
def startsOf : List Char → List Bool
  | [] => []
  | c :: cs => c.isAlpha :: cs.map fun _ => false

/-- For each character of the words, whether it is a letter that begins a word. -/
def starts (ws : List String) : List Bool := ws.flatMap fun w => startsOf w.toList

theorem toLower_toUpper (h : c.isAlphanum = true) : c.toUpper.toLower = c.toLower :=
  forall_ascii (P := fun c => c.toUpper.toLower = c.toLower) (by decide) (ascii_isAlphanum c h)

theorem toLower_toLower (h : c.isAlphanum = true) : c.toLower.toLower = c.toLower :=
  forall_ascii (P := fun c => c.toLower.toLower = c.toLower) (by decide) (ascii_isAlphanum c h)

theorem isUpper_toUpper (h : c.isAlphanum = true) : c.toUpper.isUpper = c.isAlpha :=
  forall_ascii (P := fun c => c.toUpper.isUpper = c.isAlpha) (by decide) (ascii_isAlphanum c h)

theorem isUpper_toLower (h : c.isAlphanum = true) : c.toLower.isUpper = false :=
  forall_ascii (P := fun c => c.toLower.isUpper = false) (by decide) (ascii_isAlphanum c h)

theorem map_toLower_capitalized (h : ∀ c ∈ cs, c.isAlphanum = true) :
    (capitalized cs).map Char.toLower = cs.map Char.toLower := by
  cases cs with
  | nil => rfl
  | cons c cs =>
    obtain ⟨hc, hcs⟩ := List.forall_mem_cons.mp h
    rw [capitalized, List.map_cons, toLower_toUpper hc, List.map_map]
    exact congrArg (c.toLower :: ·) (List.map_congr_left fun d hd => toLower_toLower (hcs d hd))

theorem map_isUpper_capitalized (h : ∀ c ∈ cs, c.isAlphanum = true) :
    (capitalized cs).map Char.isUpper = startsOf cs := by
  cases cs with
  | nil => rfl
  | cons c cs =>
    obtain ⟨hc, hcs⟩ := List.forall_mem_cons.mp h
    rw [capitalized, List.map_cons, isUpper_toUpper hc, List.map_map]
    exact congrArg (c.isAlpha :: ·) (List.map_congr_left fun d hd => isUpper_toLower (hcs d hd))

theorem map_toLower_inCamel (h : ∀ w ∈ ws, IsWord w.toList) :
    (inCamel ws).map Char.toLower = lowered ws := by
  rw [inCamel, List.map_flatMap]
  exact List.flatMap_congr fun w hw => map_toLower_capitalized (h w hw).isAlphanum

theorem map_isUpper_inCamel (h : ∀ w ∈ ws, IsWord w.toList) :
    (inCamel ws).map Char.isUpper = starts ws := by
  rw [inCamel, List.map_flatMap]
  exact List.flatMap_congr fun w hw => map_isUpper_capitalized (h w hw).isAlphanum

/-- Letters and digits can be told from their lower case and from which of them are in upper
case. -/
theorem eq_zipWith (h : ∀ c ∈ cs, c.isAlphanum = true) :
    cs = List.zipWith (fun c upper => if upper then c.toUpper else c)
      (cs.map Char.toLower) (cs.map Char.isUpper) := by
  have hback : ∀ c ∈ cs, (if c.isUpper then c.toLower.toUpper else c.toLower) = c := fun c hc =>
    forall_ascii (P := fun c => (if c.isUpper then c.toLower.toUpper else c.toLower) = c)
      (by decide) (ascii_isAlphanum c (h c hc))
  rw [List.zipWith_map, List.zipWith_self, List.map_congr_left hback, List.map_id']

/-- A camel form tells the letters and digits up to case and which letters begin a word. -/
theorem inCamel_eq_iff (h : ∀ w ∈ ws, IsWord w.toList) (h' : ∀ w ∈ ws', IsWord w.toList) :
    inCamel ws = inCamel ws' ↔ lowered ws = lowered ws' ∧ starts ws = starts ws' := by
  rw [← map_toLower_inCamel h, ← map_toLower_inCamel h', ← map_isUpper_inCamel h,
    ← map_isUpper_inCamel h']
  constructor
  · rintro he
    rw [he]
    exact ⟨rfl, rfl⟩
  · rintro ⟨hlower, hupper⟩
    rw [eq_zipWith (isAlphanum_of_mem_inCamel h), hlower, hupper,
      ← eq_zipWith (isAlphanum_of_mem_inCamel h')]

/-! ### Clashes -/

/-- The letters and digits of a name, in lower case. -/
def letters (name : String) : List Char := (name.toList.filter (· != '_')).map Char.toLower

/-- The names have the same letters and digits up to case, and in both the same letters begin a
word. -/
def Clash (a b : String) : Prop := letters a = letters b ∧ starts (words a) = starts (words b)

instance (a b : String) : Decidable (Clash a b) := inferInstanceAs (Decidable (_ ∧ _))

theorem lowered_words (h : ∀ c ∈ a.toList, isIdentContinue c = true) :
    lowered (words a) = letters a := by
  have hmap : (words a).flatMap String.toList = (wordsOf a.toList).flatten := by
    rw [words, List.flatMap_map, List.flatMap_congr fun w _ => String.toList_ofList,
      List.flatMap_id']
  rw [letters, ← flatten_wordsOf h, ← hmap, List.map_flatMap]
  rfl

/-- The underscore in front of a digit is the only one in a name. -/
theorem filter_guardDigit (ha : ∀ c ∈ a.toList, c.isAlphanum = true) :
    (guardDigit a).toList.filter (· != '_') = a.toList := by
  unfold guardDigit
  split
  · rw [String.toList_append, List.filter_append, filter_underscore ha]
    rfl
  · exact filter_underscore ha

/-- Items that lose the same words keep their names apart if their camel forms are. -/
theorem nameAfter_eq_iff (hn : (words a).take n = (words b).take n) :
    nameAfter n a = nameAfter n b ↔ inCamel (words a) = inCamel (words b) := by
  have hdrop : ∀ a, (joinCamel ((words a).drop n)).toList = inCamel ((words a).drop n) :=
    fun a => toList_joinCamel fun w => isWord_of_mem_drop
  have hguard : ∀ a, (nameAfter n a).toList.filter (· != '_') = inCamel ((words a).drop n) :=
    fun a => (filter_guardDigit (hdrop a ▸ isAlphanum_of_mem_inCamel fun w =>
      isWord_of_mem_drop)).trans (hdrop a)
  have hsplit : ∀ a, inCamel (words a) =
      inCamel ((words a).take n) ++ inCamel ((words a).drop n) := fun a => by
    rw [← inCamel_append, List.take_append_drop]
  rw [hsplit a, hsplit b, hn, List.append_cancel_left_eq]
  constructor
  · intro h
    rw [← hguard a, ← hguard b, h]
  · intro h
    rw [nameAfter, nameAfter, String.toList_inj.mp ((hdrop a).trans (h.trans (hdrop b).symm))]

/-- **When enum items clash.** Two items get the same name just when they have the same letters and
digits up to case and the same letters begin a word, so names are distinct just when no two items
agree in that. -/
theorem enumItemNames_eq_iff_clash
    (hitems : ∀ a ∈ items, ∀ c ∈ a.toList, isIdentContinue c = true) :
    ∃ name : String → String, enumItemNames items = items.map name ∧
      (∀ a ∈ items, ∀ b ∈ items, name a = name b ↔ Clash a b) ∧
      ((enumItemNames items).Nodup ↔ items.Pairwise fun a b => ¬ Clash a b) := by
  have hclash : ∀ a ∈ items, ∀ b ∈ items,
      nameAfter (commonPrefixLength (items.map words)) a =
        nameAfter (commonPrefixLength (items.map words)) b ↔ Clash a b := fun a ha b hb => by
    rw [nameAfter_eq_iff (take_commonPrefixLength (List.mem_map_of_mem ha)
        (List.mem_map_of_mem hb)),
      inCamel_eq_iff (fun w => isWord_of_mem_words) (fun w => isWord_of_mem_words),
      lowered_words (hitems a ha), lowered_words (hitems b hb), Clash]
  refine ⟨_, enumItemNames_eq items, hclash, ?_⟩
  rw [enumItemNames_eq, List.Nodup, List.pairwise_map]
  exact List.Pairwise.iff_of_mem fun ha hb => (hclash _ ha _ hb).not

/-- Of three versions two have the same name. -/
theorem enumItemNames_eq_iff_clash_versions :
    let items := ["VERSION_1_1", "VERSION_1_10", "VERSION_11_0"]
    (∀ a ∈ items, ∀ c ∈ a.toList, isIdentContinue c = true) ∧
    enumItemNames items = ["_11", "_110", "_110"] ∧
    Clash "VERSION_1_10" "VERSION_11_0" ∧ ¬ Clash "VERSION_1_1" "VERSION_1_10" ∧
    ∃ name : String → String, enumItemNames items = items.map name ∧
      (∀ a ∈ items, ∀ b ∈ items, name a = name b ↔ Clash a b) ∧
      ((enumItemNames items).Nodup ↔ items.Pairwise fun a b => ¬ Clash a b) := by
  intro items
  have hitems : ∀ a ∈ items, ∀ c ∈ a.toList, isIdentContinue c = true := by
    simp only [← List.all_eq_true]
    decide
  exact ⟨hitems, by decide +kernel, by decide +kernel, by decide +kernel,
    enumItemNames_eq_iff_clash hitems⟩

/-- Distinct items with letters or digits need not get distinct names. -/
theorem not_nodup_enumItemNames : ¬ ∀ items : List String, items.Nodup →
    (∀ a ∈ items, (∀ c ∈ a.toList, isIdentContinue c = true) ∧
      ∃ c ∈ a.toList, c.isAlphanum = true) → (enumItemNames items).Nodup := by
  intro h
  have hnames : enumItemNames ["VERSION_1_10", "VERSION_11_0"] = ["_110", "_110"] := by
    decide +kernel
  have hnodup := h ["VERSION_1_10", "VERSION_11_0"] (by decide)
    (by simp only [← List.all_eq_true, ← List.any_eq_true]; decide)
  rw [hnames] at hnodup
  exact absurd hnodup (by decide)

end Bindery.Identifier
