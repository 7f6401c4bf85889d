import Bindery.Expr.Lexer

/-!
# How tokens are spelled

What a token that was read tells about its spelling, apart from the text that it was read in:
`Lexeme.wellSpelled_of_scan`. Such a spelling can be read again wherever nothing goes on with it.
-/

namespace Bindery

/-- A name: a letter or an underscore, and more of them and digits. -/
def IsName (s : String) : Prop :=
  ∃ c cs, s.toList = c :: cs ∧ isIdentStart c ∧ ∀ d ∈ cs, isIdentContinue d

/-- A point with the digits after it, or nothing. -/
def IsFraction (cs : List Char) : Prop := cs = [] ∨ ∃ ds, cs = '.' :: ds ∧ ∀ d ∈ ds, d.isDigit

/-- An exponent with its digits, or nothing. -/
def IsExponent (cs : List Char) : Prop :=
  cs = [] ∨ ∃ e sign ds, cs = e :: (sign ++ ds) ∧ (e = 'e' ∨ e = 'E') ∧
    (sign = [] ∨ sign = ['+'] ∨ sign = ['-']) ∧ ds ≠ [] ∧ ∀ d ∈ ds, d.isDigit

/-- A floating literal without its suffix. It has a digit before its exponent, and it has a point or
an exponent. -/
inductive IsFloat : List Char → Prop where
  | mk {digits fraction exponent} (hd : ∀ d ∈ digits, d.isDigit) (hf : IsFraction fraction)
      (he : IsExponent exponent) (hn : digits ≠ [] ∨ 2 ≤ fraction.length)
      (ht : fraction ≠ [] ∨ exponent ≠ []) : IsFloat (digits ++ fraction ++ exponent)

/-- The digits write the value, and some suffix asks for the type. -/
structure IntLiteral.WellSpelled (l : IntLiteral) : Prop where
  reads : l.radix.readFrom 0 l.digits.toList = .ok l.value
  ne_nil : l.digits.toList ≠ []
  /-- Digits after a zero would be octal. -/
  leading : l.radix = .decimal → ∀ cs, l.digits.toList = '0' :: cs → cs = []
  typed : ∃ suffix : Suffix, suffix.type? l.value l.radix = some l.ty

/-- The literal can be read. -/
def Literal.WellSpelled : Literal → Prop
  | int l => l.WellSpelled
  | float text _ => IsFloat text.toList
  | char _ => True
  | str raw => ∃ body, raw.toList = '"' :: body ∧
      ∀ rest, spanString? (body ++ rest) = some (body, rest)

/-- The token can be read. -/
def TokenKind.WellSpelled : TokenKind → Prop
  | ident name => IsName name
  | literal l => l.WellSpelled
  | punct _ => True

theorem Suffix.ne_named_of_type? {suffix : Suffix} {value : Nat} {radix : Radix} {ty : Ty}
    (h : suffix.type? value radix = some ty) (name : String) : ty ≠ .named name := by
  unfold type? at h
  split at h <;> repeat' split at h
  all_goals cases h
  all_goals nofun

theorem Literal.WellSpelled.ty_ne_named {l : Literal} (h : l.WellSpelled) (name : String) :
    l.ty ≠ .named name := by
  cases l with
  | int l => exact h.typed.elim fun _ hs => Suffix.ne_named_of_type? hs name
  | float text single => cases single <;> nofun
  | char byte => nofun
  | str raw => nofun

/-! ### Numbers -/

theorem Lexeme.wellSpelled_of_scanInteger {radix : Radix} {mark digits cs : List Char}
    {lx : Lexeme} (h : scanInteger radix mark digits cs = .ok lx)
    (hz : radix = .decimal → ∀ ds, digits = '0' :: ds → ds = []) : lx.kind.WellSpelled := by
  simp only [scanInteger] at h
  split at h
  · cases h
  split at h
  · cases h
  split at h
  · cases h
  split at h
  · cases h
  · cases h
  next value hv =>
  split at h
  · cases h
  next hne _ _ _ hty =>
  cases h
  exact ⟨by simpa using hv, by simpa using hne, by simpa using hz, _, hty⟩

theorem all_of_mem_takeWhile {p : Char → Bool} {cs : List Char} : ∀ c ∈ cs.takeWhile p, p c :=
  List.all_eq_true.mp List.all_takeWhile

theorem isFraction_of_spanFraction (cs : List Char) : IsFraction (spanFraction cs).1 := by
  unfold spanFraction
  split
  · exact .inr ⟨_, rfl, all_of_mem_takeWhile⟩
  · exact .inl rfl

theorem spanSign_cases (cs : List Char) :
    (spanSign cs).1 = [] ∨ (spanSign cs).1 = ['+'] ∨ (spanSign cs).1 = ['-'] := by
  unfold spanSign
  split <;> simp

theorem isExponent_of_spanExponent {cs : List Char} (h : (spanExponent cs).2.1 = true) :
    IsExponent (spanExponent cs).1 := by
  unfold spanExponent at h ⊢
  split at h
  · exact .inl rfl
  · next e cs =>
    split at h
    · next he =>
      rw [if_pos he]
      exact .inr ⟨e, _, _, rfl, he, spanSign_cases cs, by simpa using h, all_of_mem_takeWhile⟩
    · next he => rw [if_neg he]; exact .inl rfl

theorem ne_nil_of_startsFloatTail {cs : List Char} (h : startsFloatTail cs) :
    (spanFraction cs).1 ≠ [] ∨ (spanExponent (spanFraction cs).2).1 ≠ [] := by
  unfold startsFloatTail at h
  split at h
  · exact .inl (by simp [spanFraction])
  · next e s cs hne =>
    right
    have he : e = 'e' ∨ e = 'E' := by simp at h; exact h.1
    have hf : spanFraction (e :: s :: cs) = ([], e :: s :: cs) := by
      rcases he with rfl | rfl <;> rfl
    rw [hf]
    simp [spanExponent, he]
  · cases h

theorem Lexeme.wellSpelled_of_scanDecimal {c : Char} {cs : List Char} {lx : Lexeme}
    (hs : c.isDigit || (c == '.' && cs.head?.any Char.isDigit))
    (h : scanDecimal (c :: cs) = .ok lx) : lx.kind.WellSpelled := by
  simp only [scanDecimal] at h
  split at h
  · next ht =>
    simp only [scanFloat] at h
    split at h
    · cases h
    next hv =>
    split at h
    · cases h
    cases h
    have hd : ∀ d ∈ (c :: cs).takeWhile Char.isDigit, d.isDigit := all_of_mem_takeWhile
    have hf := IsFloat.mk hd
      (isFraction_of_spanFraction _) (isExponent_of_spanExponent (by simpa using hv)) ?_
      (ne_nil_of_startsFloatTail ht)
    · simpa [TokenKind.WellSpelled, Literal.WellSpelled] using hf
    · -- Without a digit in front the text begins with a point.
      by_cases hd : c.isDigit
      · simp [hd]
      · obtain ⟨rfl, hx⟩ : c = '.' ∧ cs.head?.any Char.isDigit := by simpa [hd] using hs
        rcases cs with _ | ⟨x, cs⟩
        · cases hx
        · simp [spanFraction, show x.isDigit from hx]
  · split at h
    · exact wellSpelled_of_scanInteger h (by simp)
    · next hne =>
      refine wellSpelled_of_scanInteger h fun _ ds he => ?_
      rcases ds with _ | ⟨d, ds⟩
      · rfl
      · exact absurd he (hne d ds)

theorem Lexeme.wellSpelled_of_scanNumber {c : Char} {cs : List Char} {lx : Lexeme}
    (hs : c.isDigit || (c == '.' && cs.head?.any Char.isDigit))
    (h : scanNumber (c :: cs) = .ok lx) : lx.kind.WellSpelled := by
  unfold scanNumber at h
  split at h
  · split at h
    · exact wellSpelled_of_scanInteger h (by simp)
    · split at h
      · exact wellSpelled_of_scanInteger h (by simp)
      · exact wellSpelled_of_scanDecimal hs h
  · exact wellSpelled_of_scanDecimal hs h

/-! ### Characters, strings and names -/

/-- What follows a string plays no part in where it ends. -/
theorem spanString?_append_right {cs body rest : List Char}
    (h : spanString? cs = some (body, rest)) (rest' : List Char) :
    spanString? (body ++ rest') = some (body, rest') := by
  fun_induction spanString? cs generalizing body with
  | case1 => cases h
  | case2 => cases h
  | case3 cs => cases h; rfl
  | case4 => cases h
  | case5 c cs ih =>
    obtain ⟨⟨b, r⟩, hb, he⟩ := Option.map_eq_some_iff.mp h
    cases he
    simp [spanString?, ih hb]
  | case6 c cs hn hq hb₁ hb₂ ih =>
    obtain ⟨⟨b, r⟩, hb, he⟩ := Option.map_eq_some_iff.mp h
    cases he
    have hc : c ≠ '\\' := by
      rintro rfl
      rcases cs with _ | ⟨d, cs⟩
      · exact hb₁ rfl rfl
      · exact hb₂ d cs rfl rfl
    rw [List.cons_append, spanString?, ih hb]
    · rfl
    all_goals simp_all

theorem isIdentContinue_of_isIdentStart {c : Char} (h : isIdentStart c) : isIdentContinue c := by
  simp only [isIdentStart, isIdentContinue, Char.isAlphanum, Bool.or_eq_true] at h ⊢
  rcases h with h | h <;> simp [h]

theorem Lexeme.isName_name {c : Char} (cs : List Char) (h : isIdentStart c) :
    IsName (String.ofList ((c :: cs).takeWhile isIdentContinue)) := by
  exact ⟨c, cs.takeWhile isIdentContinue, by simp [isIdentContinue_of_isIdentStart h], h,
    all_of_mem_takeWhile⟩

/-- A token that was read can be read. -/
theorem Lexeme.wellSpelled_of_scan {c : Char} {cs : List Char} {lx : Lexeme}
    (h : Lexeme.scan c cs = .ok lx) : lx.kind.WellSpelled := by
  unfold Lexeme.scan at h
  split at h
  · next hs => exact wellSpelled_of_scanNumber hs h
  split at h
  · unfold scanChar at h
    split at h
    · cases h
    · cases h; trivial
    · cases h
  split at h
  · unfold scanString at h
    split at h
    · cases h
    · next body rest hs =>
      cases h
      exact ⟨body, by simp, spanString?_append_right hs⟩
  split at h
  · next hi => cases h; exact isName_name cs hi
  · split at h
    · cases h; trivial
    · cases h

/-- The recursion of the tokenizer, without the proof that it ends. -/
theorem tokensFrom_eq (pos : Nat) (cs : List Char) :
    tokensFrom pos cs =
      match skipSpace pos cs with
      | (_, []) => .ok []
      | (start, c :: rest) =>
        match Lexeme.scan c rest with
        | .error fault => .error (fault.toError start)
        | .ok lx => (tokensFrom (start + Text.byteLength lx.spelling) lx.rest).map
            (⟨lx.kind, start, start + Text.byteLength lx.spelling⟩ :: ·) := by
  rw [tokensFrom]
  split
  · next hs => rw [hs]
  · next hs =>
    rw [hs]
    simp only
    split
    · next hl => rw [hl]
    · next hl =>
      rw [hl]
      dsimp only
      split <;> next ht => rw [ht]; rfl

/-- Before `rest`, the token is read from `w`. -/
def ScansAs (k : TokenKind) (w rest : List Char) : Prop :=
  ∃ c cs, w ++ rest = c :: cs ∧ Lexeme.scan c cs = .ok ⟨k, w, rest⟩

theorem skipSpace_cons {c : Char} (hs : isSpace c = false) (hb : c ≠ '\\') (pos : Nat)
    (cs : List Char) : skipSpace pos (c :: cs) = (pos, c :: cs) := by
  rw [skipSpace, hs, if_neg Bool.false_ne_true]
  · exact fun _ he => absurd he hb
  · exact fun _ he => absurd he hb

/-- Neither a blank nor a continuation begins a token. -/
theorem not_isSpace_of_scan {c : Char} {cs : List Char} {lx : Lexeme}
    (h : Lexeme.scan c cs = .ok lx) : isSpace c = false ∧ c ≠ '\\' := by
  constructor
  · rw [Bool.eq_false_iff]
    intro hs
    simp only [isSpace, Bool.or_eq_true, beq_iff_eq] at hs
    rcases hs with (((rfl | rfl) | rfl) | rfl) | rfl <;> cases h
  · rintro rfl
    cases h

theorem tokensFrom_append {k : TokenKind} {w rest : List Char} (h : ScansAs k w rest) (pos : Nat) :
    tokensFrom pos (w ++ rest) = (tokensFrom (pos + Text.byteLength w) rest).map
      (⟨k, pos, pos + Text.byteLength w⟩ :: ·) := by
  obtain ⟨c, cs, he, hl⟩ := h
  obtain ⟨hs, hb⟩ := not_isSpace_of_scan hl
  rw [he, tokensFrom_eq, skipSpace_cons hs hb]
  simp only [hl]

theorem tokensFrom_nil (pos : Nat) : tokensFrom pos [] = .ok [] := by
  rw [tokensFrom_eq]
  rfl

theorem wellSpelled_of_mem_tokensFrom {pos : Nat} {cs : List Char} {ts : List Token}
    (h : tokensFrom pos cs = .ok ts) : ∀ t ∈ ts, t.kind.WellSpelled := by
  rw [tokensFrom_eq] at h
  split at h
  · cases h; nofun
  next start c rest hs =>
  have hle : (c :: rest).length ≤ cs.length := by
    have := length_skipSpace_le pos cs
    rwa [hs] at this
  split at h
  · cases h
  next lx hl =>
  have hlt := Lexeme.length_rest_lt hl
  cases ht : tokensFrom (start + Text.byteLength lx.spelling) lx.rest with
  | error e => rw [ht] at h; cases h
  | ok ts' =>
    rw [ht] at h
    cases h
    intro t hm
    rcases List.mem_cons.mp hm with rfl | hm
    · exact Lexeme.wellSpelled_of_scan hl
    · exact wellSpelled_of_mem_tokensFrom ht t hm
termination_by cs.length
decreasing_by exact Nat.lt_of_lt_of_le hlt hle

end Bindery
