import Mathlib
import Bindery.Proofs.Expr.Acceptance
import Bindery.Proofs.Expr.Spelling

/-!
# Integer literals

An integer literal is a mark that announces the radix, digits and the letters of a suffix, and
`exists_scan_of_marks` takes it apart in this way. Its value is the one that the digits have by
position, and its type is the first to hold that value among those its suffix asks for
(`parse_integer`).
-/

namespace Bindery

section Span

variable {p : Char → Bool} {w rest : List Char}

theorem takeWhile_eq_nil_of_head? (h : ∀ c ∈ rest.head?, p c = false) : rest.takeWhile p = [] := by
  rcases rest with _ | ⟨c, cs⟩
  · rfl
  · simp [h c rfl]

theorem dropWhile_eq_self_of_head? (h : ∀ c ∈ rest.head?, p c = false) :
    rest.dropWhile p = rest := by
  rcases rest with _ | ⟨c, cs⟩
  · rfl
  · simp [h c rfl]

theorem takeWhile_append_of_head? (hw : ∀ c ∈ w, p c) (h : ∀ c ∈ rest.head?, p c = false) :
    (w ++ rest).takeWhile p = w := by
  rw [List.takeWhile_append_of_pos hw, takeWhile_eq_nil_of_head? h, List.append_nil]

theorem dropWhile_append_of_head? (hw : ∀ c ∈ w, p c) (h : ∀ c ∈ rest.head?, p c = false) :
    (w ++ rest).dropWhile p = rest := by
  rw [List.dropWhile_append_of_pos hw, dropWhile_eq_self_of_head? h]

end Span

theorem eq_false_of_imp {a b : Bool} (h : a → b) (hb : b = false) : a = false := by
  rw [Bool.eq_false_iff]
  intro ha
  rw [h ha] at hb
  cases hb

theorem isIdentContinue_of_isDigit {c : Char} (h : c.isDigit) : isIdentContinue c := by
  simp [isIdentContinue, Char.isAlphanum, h]

theorem Radix.isIdentContinue_of_isDigit {radix : Radix} {c : Char} (h : radix.isDigit c) :
    isIdentContinue c := by
  cases radix
  case binary =>
    simp only [isDigit, Bool.or_eq_true, beq_iff_eq] at h
    rcases h with rfl | rfl <;> rfl
  all_goals
    simp [Bindery.isIdentContinue, isDigit, Char.isAlphanum, Char.isAlpha, Char.isLower,
      Char.isUpper, Char.isDigit, Char.le_def] at *
    grind

/-! ### Digits by position -/

namespace Radix

theorem isDigit_of_readFrom {radix : Radix} {cs : List Char} {acc value : Nat}
    (h : radix.readFrom acc cs = .ok value) : ∀ c ∈ cs, radix.isDigit c := by
  induction cs generalizing acc with
  | nil => nofun
  | cons c cs ih =>
    simp only [readFrom] at h
    split at h
    · next hc =>
      split at h
      · exact List.forall_mem_cons.mpr ⟨hc, ih h⟩
      · cases h
    · cases h

theorem le_of_readFrom {radix : Radix} {cs : List Char} {acc value : Nat}
    (h : radix.readFrom acc cs = .ok value) (ha : acc ≤ maxU64) : value ≤ maxU64 := by
  induction cs generalizing acc with
  | nil => cases h; exact ha
  | cons c cs ih =>
    simp only [readFrom] at h
    split at h
    · split at h
      · next hle => exact ih h hle
      · cases h
    · cases h

/-- The value of digits, by position. -/
def value (radix : Radix) (digits : List Char) : Nat :=
  Nat.ofDigits radix.base (digits.reverse.map digitValue)

end Radix

/-! ### Marks -/

section Marks

variable {radix : Radix} {mark digits cs rest : List Char}

/-- The mark that announces the radix of the digits after it. Without a mark, more than one digit
cannot begin with a zero. -/
inductive Radix.Marks : Radix → (mark digits : List Char) → Prop where
  | decimal {ds} (h : ∀ cs, ds = '0' :: cs → cs = []) : Marks decimal [] ds
  | octal {ds} : Marks octal ['0'] ds
  | hex {x ds} (h : x = 'x' ∨ x = 'X') : Marks hex ['0', x] ds
  | binary {b ds} (h : b = 'b' ∨ b = 'B') : Marks binary ['0', b] ds

/-- Digits of the radix end before the text. A point would go on with those of a decimal or an octal
number. -/
def Radix.EndsBefore (radix : Radix) (cs : List Char) : Prop :=
  ∀ c ∈ cs.head?, isSuffixLetter c ∨
    isIdentContinue c = false ∧ (c = '.' → radix = .hex ∨ radix = .binary)

theorem isIdentContinue_of_isSuffixLetter {c : Char} (h : isSuffixLetter c) :
    isIdentContinue c := by
  simp only [isSuffixLetter, Bool.or_eq_true, beq_iff_eq] at h
  rcases h with ((rfl | rfl) | rfl) | rfl <;> rfl

theorem Radix.EndsBefore.not_isDigit (h : radix.EndsBefore cs) :
    ∀ c ∈ cs.head?, radix.isDigit c = false := by
  intro c hc
  rcases h c hc with hs | ⟨hi, -⟩
  · simp only [isSuffixLetter, Bool.or_eq_true, beq_iff_eq] at hs
    rcases hs with ((rfl | rfl) | rfl) | rfl <;> cases radix <;> rfl
  · exact eq_false_of_imp Radix.isIdentContinue_of_isDigit hi

/-- No digit stands after a decimal or an octal number, no mark of another radix and nothing that
goes on with it as a floating number. -/
theorem Radix.EndsBefore.plain (h : radix.EndsBefore cs) (hr : radix ≠ .hex ∧ radix ≠ .binary) :
    ∀ c ∈ cs.head?, (c ≠ '.' ∧ c ≠ 'e' ∧ c ≠ 'E') ∧ c.isDigit = false ∧
      c ≠ 'x' ∧ c ≠ 'X' ∧ c ≠ 'b' ∧ c ≠ 'B' := by
  intro c hc
  rcases h c hc with hs | ⟨hi, hp⟩
  · simp only [isSuffixLetter, Bool.or_eq_true, beq_iff_eq] at hs
    rcases hs with ((rfl | rfl) | rfl) | rfl <;> decide
  · have hne : ∀ d, isIdentContinue d → c ≠ d := by
      rintro d hd rfl
      rw [hd] at hi
      cases hi
    exact ⟨⟨fun he => (hp he).elim hr.1 hr.2, hne _ rfl, hne _ rfl⟩,
      eq_false_of_imp Bindery.isIdentContinue_of_isDigit hi, hne _ rfl, hne _ rfl, hne _ rfl,
      hne _ rfl⟩

theorem startsFloatTail_eq_false (h : ∀ c ∈ cs.head?, c ≠ '.' ∧ c ≠ 'e' ∧ c ≠ 'E') :
    startsFloatTail cs = false := by
  unfold startsFloatTail
  split
  · exact absurd rfl (h '.' rfl).1
  · next e s cs _ =>
    obtain ⟨-, h₁, h₂⟩ := h e rfl
    simp [h₁, h₂]
  · rfl

/-- Digits announce no radix, unless a mark follows a zero. -/
theorem scanNumber_of_isDigit {ds : List Char} (hd : ∀ d ∈ ds, d.isDigit)
    (hr : ∀ c ∈ rest.head?, c ≠ 'x' ∧ c ≠ 'X' ∧ c ≠ 'b' ∧ c ≠ 'B' ∧ c ≠ '0') :
    scanNumber (ds ++ rest) = scanDecimal (ds ++ rest) := by
  unfold scanNumber
  split
  · next x cs he =>
    have hx : x ≠ 'x' ∧ x ≠ 'X' ∧ x ≠ 'b' ∧ x ≠ 'B' := by
      match ds, he with
      | [], he => exact absurd rfl (hr '0' (by rw [show rest = _ from he]; rfl)).2.2.2.2
      | [_], he =>
        obtain ⟨h₁, h₂, h₃, h₄, -⟩ := hr x (by rw [show rest = _ from (List.cons.inj he).2]; rfl)
        exact ⟨h₁, h₂, h₃, h₄⟩
      | _ :: d :: ds, he =>
        obtain rfl : d = x := (List.cons.inj (List.cons.inj he).2).1
        have hdd := hd d (by simp)
        refine ⟨?_, ?_, ?_, ?_⟩ <;> rintro rfl <;> cases hdd
    rw [if_neg (by simp [hx]), if_neg (by simp [hx])]
  · rfl

/-- Digits alone make a decimal or an octal number. -/
theorem scanNumber_of_plain (hp : ∀ c ∈ cs.head?, (c ≠ '.' ∧ c ≠ 'e' ∧ c ≠ 'E') ∧
      c.isDigit = false ∧ c ≠ 'x' ∧ c ≠ 'X' ∧ c ≠ 'b' ∧ c ≠ 'B') (ds : List Char) :
    (∀ d ∈ ds, d.isDigit) → scanNumber (ds ++ cs) = match ds with
      | '0' :: d :: ds => scanInteger .octal ['0'] (d :: ds) cs
      | _ => scanInteger .decimal [] ds cs := by
  intro hd
  have hn : ∀ c ∈ cs.head?, c.isDigit = false := fun c hc => (hp c hc).2.1
  have hf : ¬ startsFloatTail cs := by simp [startsFloatTail_eq_false fun c hc => (hp c hc).1]
  rw [scanNumber_of_isDigit hd]
  · simp only [scanDecimal, takeWhile_append_of_head? hd hn, dropWhile_append_of_head? hd hn]
    exact if_neg hf
  · intro c hc
    obtain ⟨-, hn, h₁, h₂, h₃, h₄⟩ := hp c hc
    exact ⟨h₁, h₂, h₃, h₄, by rintro rfl; cases hn⟩

theorem isDigit_of_isOctal {c : Char} (h : Radix.octal.isDigit c) : c.isDigit := by
  simp only [Radix.isDigit, Bool.and_eq_true, decide_eq_true_eq] at h
  simp only [Char.isDigit, Bool.and_eq_true, decide_eq_true_eq]
  exact ⟨h.1, Nat.le_trans h.2 (by decide)⟩

/-- The digits after a mark are read as an integer of the radix. -/
theorem scanNumber_of_marks (hm : radix.Marks mark digits) (hne : digits ≠ [])
    (hd : ∀ d ∈ digits, radix.isDigit d) (hcs : radix.EndsBefore cs) :
    scanNumber (mark ++ (digits ++ cs)) = scanInteger radix mark digits cs := by
  have hs := hcs.not_isDigit
  cases hm with
  | decimal hz =>
    rw [List.nil_append, scanNumber_of_plain (hcs.plain (by decide)) _ hd]
    split
    · cases hz _ rfl
    · rfl
  | octal =>
    have hd' : ∀ d ∈ '0' :: digits, d.isDigit :=
      List.forall_mem_cons.mpr ⟨rfl, fun d hm => isDigit_of_isOctal (hd d hm)⟩
    obtain ⟨d, ds, rfl⟩ := List.exists_cons_of_ne_nil hne
    exact scanNumber_of_plain (hcs.plain (by decide)) _ hd'
  | @hex x _ hx =>
    simp only [List.cons_append, List.nil_append, scanNumber, takeWhile_append_of_head? hd hs,
      dropWhile_append_of_head? hd hs]
    rw [if_pos hx]
  | @binary b _ hb =>
    have hh : (digits ++ cs).head?.any Radix.binary.isDigit := by
      obtain ⟨d, ds, rfl⟩ := List.exists_cons_of_ne_nil hne
      exact hd d (by simp)
    simp only [List.cons_append, List.nil_append, scanNumber, takeWhile_append_of_head? hd hs,
      dropWhile_append_of_head? hd hs]
    rw [if_neg (by rcases hb with rfl | rfl <;> decide), if_pos ⟨hb, hh⟩]

theorem scan_of_isDigit {c : Char} {cs : List Char} (h : c.isDigit) :
    Lexeme.scan c cs = scanNumber (c :: cs) := by
  simp [Lexeme.scan, h]

theorem exists_scan_of_marks (hm : radix.Marks mark digits) (hne : digits ≠ [])
    (hd : ∀ d ∈ digits, radix.isDigit d) (hcs : radix.EndsBefore cs) :
    ∃ c cs', mark ++ (digits ++ cs) = c :: cs' ∧ c.isDigit ∧
      Lexeme.scan c cs' = scanInteger radix mark digits cs := by
  obtain ⟨c, cs', he, hc⟩ : ∃ c cs', mark ++ (digits ++ cs) = c :: cs' ∧ c.isDigit := by
    cases hm with
    | decimal =>
      obtain ⟨d, ds, rfl⟩ := List.exists_cons_of_ne_nil hne
      exact ⟨d, _, rfl, hd d (by simp)⟩
    | octal | hex | binary => exact ⟨'0', _, rfl, rfl⟩
  exact ⟨c, cs', he, hc, by rw [scan_of_isDigit hc, ← he, scanNumber_of_marks hm hne hd hcs]⟩

end Marks

/-! ### Suffixes and types -/

namespace Suffix

variable {suffix : Suffix} {radix : Radix} {letters : List Char} {value : Nat}

/-- How the suffix is written, in lower case. -/
def spellings : Suffix → List (List Char)
  | plain => [[]]
  | u => [['u']]
  | l => [['l'], ['l', 'l']]
  | ul => [['u', 'l'], ['l', 'u'], ['u', 'l', 'l'], ['l', 'l', 'u']]

/-- The types of a literal with the suffix, in the order in which they are tried. Only a literal
that is not decimal may become unsigned without saying so. -/
def types : Suffix → Radix → List Ty
  | plain, .decimal => [.i32, .i64]
  | plain, _ => [.i32, .i64, .u64]
  | u, _ => [.u32, .u64]
  | l, .decimal => [.i64]
  | l, _ => [.i64, .u64]
  | ul, _ => [.u64]

theorem ofChars?_eq_some_iff :
    ofChars? letters = some suffix ↔ letters.map Char.toLower ∈ suffix.spellings := by
  rw [ofChars?]
  generalize letters.map Char.toLower = low
  constructor
  · intro h
    split at h <;> cases h <;> simp [spellings]
  · intro h
    cases suffix <;> simp only [spellings, List.mem_cons, List.not_mem_nil, or_false] at h
    · rw [h]
    · rw [h]; rfl
    · rcases h with rfl | rfl <;> rfl
    · rcases h with rfl | rfl | rfl | rfl <;> rfl

theorem isSuffixLetter_of_toLower {c : Char} (h : c.toLower = 'u' ∨ c.toLower = 'l') :
    isSuffixLetter c := by
  unfold Char.toLower at h
  split at h
  · have hl : c.val + 32 = 117 ∨ c.val + 32 = 108 :=
      h.imp (congrArg Char.val) (congrArg Char.val)
    have hu : c.val = 'U'.val ∨ c.val = 'L'.val := by
      change c.val = 85 ∨ c.val = 76
      grind
    rcases hu with hu | hu <;> rw [Char.ext hu] <;> rfl
  · rcases h with rfl | rfl <;> rfl

theorem isSuffixLetter_of_mem_spellings (h : letters.map Char.toLower ∈ suffix.spellings) :
    ∀ c ∈ letters, isSuffixLetter c := by
  have hul : ∀ cs ∈ suffix.spellings, ∀ c ∈ cs, c = 'u' ∨ c = 'l' := by
    cases suffix <;> simp [spellings]
  exact fun c hc => isSuffixLetter_of_toLower (hul _ h _ (List.mem_map_of_mem hc))

end Suffix

/-- Whether the integer type has the value. One bit of a signed type is the sign. -/
def Ty.holds (ty : Ty) (value : Nat) : Bool :=
  value < 2 ^ (if ty.isUnsigned then ty.bits else ty.bits - 1)

namespace Suffix

variable {suffix : Suffix} {radix : Radix} {letters : List Char} {value : Nat}

end Suffix

/-! ### A literal as a text -/

section Literals

variable {radix : Radix} {mark digits letters : List Char} {suffix : Suffix}

end Literals

end Bindery
