import Bindery.Proofs.Expr.Integers

/-!
# Where a token ends

Some texts spell a token by themselves (`TokenKind.SpelledAs`), and one character after such a text
decides whether the token ends there (`TokenKind.joins`). The lexer reads the tokens that are
spelled in this way and end there (`scansAs_of_spelledAs`), and no others (`spelledAs_of_scansAs`).
-/

namespace Bindery

/-- The text is empty or begins with a character that cannot stand in a name. -/
def EndsWord (cs : List Char) : Prop := ∀ c ∈ cs.head?, isIdentContinue c = false

namespace EndsWord

variable {rest : List Char}

theorem nil : EndsWord [] := nofun

theorem not_of_isIdentContinue (h : EndsWord rest) {p : Char → Bool}
    (hp : ∀ c, p c → isIdentContinue c) : ∀ c ∈ rest.head?, p c = false :=
  fun c hc => eq_false_of_imp (hp c) (h c hc)

theorem takeWhile (h : EndsWord rest) : rest.takeWhile isIdentContinue = [] :=
  takeWhile_eq_nil_of_head? h

end EndsWord

theorem endsWord_dropWhile (cs : List Char) : EndsWord (cs.dropWhile isIdentContinue) := by
  intro c hc
  have := List.head?_dropWhile_not isIdentContinue cs
  rw [hc] at this
  exact this

theorem endsWord_of_takeWhile {rest : List Char} (h : rest.takeWhile isIdentContinue = []) :
    EndsWord rest := by
  rcases rest with _ | ⟨c, cs⟩
  · exact .nil
  · rintro d ⟨⟩
    rw [Bool.eq_false_iff]
    intro hc
    simp [hc] at h

/-! ### Integers -/

section Integers

variable {radix : Radix} {mark digits letters cs rest : List Char} {lx : Lexeme}

/-- An integer is read where digits, the letters of a suffix and the end of a word follow. -/
theorem scanInteger_eq_ok_iff : scanInteger radix mark digits cs = .ok lx ↔
    ∃ letters suffix value ty rest, cs = letters ++ rest ∧ EndsWord rest ∧ digits ≠ [] ∧
      radix.readFrom 0 digits = .ok value ∧ Suffix.ofChars? letters = some suffix ∧
      suffix.type? value radix = some ty ∧
      lx = ⟨.literal (.int ⟨value, radix, String.ofList digits, ty⟩), mark ++ digits ++ letters,
        rest⟩ := by
  constructor
  · intro h
    simp only [scanInteger] at h
    split at h
    · cases h
    next hg =>
    split at h
    · cases h
    next suffix hs =>
    split at h
    · cases h
    next hne =>
    split at h
    · cases h
    · cases h
    next value hv =>
    split at h
    · cases h
    next ty ht =>
    exact ⟨_, suffix, value, ty, _, List.takeWhile_append_dropWhile.symm,
      endsWord_of_takeWhile (by simpa using hg), hne, hv, hs, ht, by simpa using h.symm⟩
  · rintro ⟨letters, suffix, value, ty, rest, rfl, hr, hne, hv, hs, ht, rfl⟩
    have hl := Suffix.isSuffixLetter_of_mem_spellings (Suffix.ofChars?_eq_some_iff.mp hs)
    have hn := hr.not_of_isIdentContinue fun _ => isIdentContinue_of_isSuffixLetter
    simp only [scanInteger, takeWhile_append_of_head? hl hn, dropWhile_append_of_head? hl hn,
      hr.takeWhile, hs, hv, ht]
    rw [if_neg (by simp), if_neg hne]

theorem startsFloatTail_of_point {cs : List Char} (h : '.' ∈ cs.head?) : startsFloatTail cs := by
  obtain ⟨cs, rfl⟩ := List.head?_eq_some_iff.mp h
  rfl

/-- How a number at the head of a text is read: as an integer of the radix that its mark announces,
or as a floating number. -/
inductive ReadsNumber (cs : List Char) (lx : Lexeme) : Prop where
  | integer {radix mark digits after} (split : cs = mark ++ (digits ++ after))
    (marks : Radix.Marks radix mark digits)
    (point : '.' ∈ after.head? → radix = .hex ∨ radix = .binary)
    (scan : scanInteger radix mark digits after = .ok lx)
  | floating {digits after} (split : cs = digits ++ after) (isDigit : ∀ d ∈ digits, d.isDigit)
    (tail : startsFloatTail after) (scan : scanFloat digits after = .ok lx)

theorem readsNumber_of_scanDecimal (h : scanDecimal cs = .ok lx) : ReadsNumber cs lx := by
  have he : cs = cs.takeWhile Char.isDigit ++ cs.dropWhile Char.isDigit :=
    List.takeWhile_append_dropWhile.symm
  simp only [scanDecimal] at h
  split at h
  · next ht => exact .floating he all_of_mem_takeWhile ht h
  next ht =>
  have hp : '.' ∈ (cs.dropWhile Char.isDigit).head? → False :=
    fun hp => ht (startsFloatTail_of_point hp)
  split at h
  · next hd => exact .integer (he.trans (by rw [hd]; rfl)) .octal (fun hc => (hp hc).elim) h
  · next hz =>
    refine .integer he (.decimal ?_) (fun hc => (hp hc).elim) h
    rintro (_ | ⟨d, ds⟩) hd
    · rfl
    · exact absurd hd (hz d ds)

theorem readsNumber_of_scanNumber (h : scanNumber cs = .ok lx) : ReadsNumber cs lx := by
  unfold scanNumber at h
  split at h
  · split at h
    · next hx =>
      exact .integer (by simp [List.takeWhile_append_dropWhile]) (.hex hx) (fun _ => .inl rfl) h
    · split at h
      · next hb =>
        exact .integer (by simp [List.takeWhile_append_dropWhile]) (.binary hb.1)
          (fun _ => .inr rfl) h
      · exact readsNumber_of_scanDecimal h
  · exact readsNumber_of_scanDecimal h

end Integers

/-! ### Floating numbers -/

/-- The suffix of a floating literal, and whether it asks for single precision. -/
inductive IsFloatSuffix : List Char → Bool → Prop where
  | none : IsFloatSuffix [] false
  | single {c} (h : c = 'f' ∨ c = 'F') : IsFloatSuffix [c] true
  | long {c} (h : c = 'l' ∨ c = 'L') : IsFloatSuffix [c] false

theorem isFloatSuffix_of_spanFloatSuffix (cs : List Char) :
    IsFloatSuffix (spanFloatSuffix cs).1 (spanFloatSuffix cs).2.1 := by
  unfold spanFloatSuffix
  split
  · exact .single (.inl rfl)
  · exact .single (.inr rfl)
  · exact .long (.inl rfl)
  · exact .long (.inr rfl)
  · exact .none

section Floats

variable {fraction exponent suffix rest : List Char} {single : Bool}

/-- Neither an exponent nor a digit follows the digits before the suffix. -/
theorem head?_suffix_append (hs : IsFloatSuffix suffix single) (hr : EndsWord rest) :
    ∀ c ∈ (suffix ++ rest).head?, ¬ (c = 'e' ∨ c = 'E') ∧ c.isDigit = false := by
  intro c hc
  cases hs with
  | none =>
    refine ⟨?_, hr.not_of_isIdentContinue (fun _ => isIdentContinue_of_isDigit) c hc⟩
    rintro (rfl | rfl) <;> cases hr _ hc
  | single h => cases hc; rcases h with rfl | rfl <;> decide
  | long h => cases hc; rcases h with rfl | rfl <;> decide

theorem head?_exponent_append (he : IsExponent exponent) (hs : IsFloatSuffix suffix single)
    (hr : EndsWord rest) : ∀ c ∈ (exponent ++ (suffix ++ rest)).head?, c.isDigit = false := by
  rcases he with rfl | ⟨e, sign, ds, rfl, rfl | rfl, -⟩
  · exact fun c hc => (head?_suffix_append hs hr c hc).2
  · rintro c ⟨⟩; rfl
  · rintro c ⟨⟩; rfl

theorem spanFloatSuffix_append_rest (hs : IsFloatSuffix suffix single) (hr : EndsWord rest) :
    spanFloatSuffix (suffix ++ rest) = (suffix, single, rest) := by
  cases hs with
  | none =>
    have hne : ∀ d cs, rest = d :: cs → isIdentContinue d = false := by
      rintro d cs rfl
      exact hr d rfl
    rw [List.nil_append, spanFloatSuffix]
    all_goals
      intro cs he
      cases hne _ cs he
  | single h => rcases h with rfl | rfl <;> rfl
  | long h => rcases h with rfl | rfl <;> rfl

theorem spanExponent_of_isExponent (he : IsExponent exponent) (hs : IsFloatSuffix suffix single)
    (hr : EndsWord rest) :
    spanExponent (exponent ++ (suffix ++ rest)) = (exponent, true, suffix ++ rest) := by
  have hh := head?_suffix_append hs hr
  rcases he with rfl | ⟨e, sign, ds, rfl, hx, hsg, hne, hd⟩
  · rw [List.nil_append]
    rcases hl : suffix ++ rest with _ | ⟨c, cs⟩
    · rfl
    · rw [spanExponent, if_neg (hh c (by rw [hl]; rfl)).1]
  · have hdr := fun c hc => (hh c hc).2
    have hsign : spanSign (sign ++ (ds ++ (suffix ++ rest))) = (sign, ds ++ (suffix ++ rest)) := by
      rcases hsg with rfl | rfl | rfl
      · obtain ⟨d, ds, rfl⟩ := List.exists_cons_of_ne_nil hne
        have hdd := hd d (by simp)
        rw [List.nil_append, List.cons_append, spanSign] <;>
          (rintro cs he; obtain rfl := (List.cons.inj he).1; cases hdd)
      · rfl
      · rfl
    rw [List.cons_append, List.append_assoc, spanExponent, if_pos hx, hsign]
    simp only [takeWhile_append_of_head? hd hdr, dropWhile_append_of_head? hd hdr]
    simp [hne]

theorem scanFloat_of_isFloat {digits : List Char} (hf : IsFraction fraction)
    (he : IsExponent exponent) (ht : fraction ≠ [] ∨ exponent ≠ [])
    (hs : IsFloatSuffix suffix single) (hr : EndsWord rest) :
    scanFloat digits (fraction ++ (exponent ++ (suffix ++ rest))) =
      .ok ⟨.literal (.float (String.ofList (digits ++ fraction ++ exponent)) single),
        digits ++ fraction ++ exponent ++ suffix, rest⟩ := by
  have hspan : spanFraction (fraction ++ (exponent ++ (suffix ++ rest))) =
      (fraction, exponent ++ (suffix ++ rest)) := by
    rcases hf with rfl | ⟨ds, rfl, hd⟩
    · have hne := ht.resolve_left (by simp)
      rcases he with rfl | ⟨e, sign, ds, rfl, rfl | rfl, -⟩
      · exact absurd rfl hne
      · rfl
      · rfl
    · have hdr := head?_exponent_append he hs hr
      simp only [List.cons_append, spanFraction, takeWhile_append_of_head? hd hdr,
        dropWhile_append_of_head? hd hdr]
  simp [scanFloat, hspan, spanExponent_of_isExponent he hs hr, spanFloatSuffix_append_rest hs hr,
    hr.takeWhile]

/-- The suffix of a floating literal that was read, and what follows it. -/
theorem scanFloat_eq_ok {digits after : List Char} {lx : Lexeme}
    (h : scanFloat digits after = .ok lx) : ∃ text single suffix,
      lx.kind = .literal (.float text single) ∧ lx.spelling = text.toList ++ suffix ∧
      IsFloatSuffix suffix single ∧ EndsWord lx.rest := by
  simp only [scanFloat] at h
  split at h
  · cases h
  split at h
  · cases h
  next hg =>
  cases h
  exact ⟨_, _, _, rfl, by rw [String.toList_ofList], isFloatSuffix_of_spanFloatSuffix _,
    endsWord_of_takeWhile (by simpa using hg)⟩

theorem startsFloatTail_of_isFloat (hf : IsFraction fraction) (he : IsExponent exponent)
    (ht : fraction ≠ [] ∨ exponent ≠ []) (cs : List Char) :
    startsFloatTail (fraction ++ (exponent ++ cs)) := by
  rcases hf with rfl | ⟨ds, rfl, -⟩
  · rcases he with rfl | ⟨e, sign, ds, rfl, hx, hs, hne, hd⟩
    · simp at ht
    · obtain ⟨d, ds, rfl⟩ := List.exists_cons_of_ne_nil hne
      have hdd := hd d (by simp)
      rcases hs with rfl | rfl | rfl <;> rcases hx with rfl | rfl <;> simp [startsFloatTail, hdd]
  · rfl

theorem scansAs_float {text : String} (h : IsFloat text.toList) (hs : IsFloatSuffix suffix single)
    (hr : EndsWord rest) :
    ScansAs (.literal (.float text single)) (text.toList ++ suffix) rest := by
  obtain ⟨w, hw⟩ : ∃ w, w = text.toList := ⟨_, rfl⟩
  obtain rfl : text = String.ofList w := by rw [hw, String.ofList_toList]
  rw [String.toList_ofList] at h ⊢
  obtain ⟨hd, hf, he, hn, ht⟩ := h
  next digits fraction exponent =>
  have hdot : ∀ c ∈ (fraction ++ (exponent ++ (suffix ++ rest))).head?,
      c = '.' ∨ c = 'e' ∨ c = 'E' := by
    rcases hf with rfl | ⟨ds, rfl, -⟩
    · rcases he with rfl | ⟨e, sign, ds, rfl, hx, -⟩
      · simp at ht
      · rintro c ⟨⟩; exact .inr hx
    · rintro c ⟨⟩; exact .inl rfl
  have hnd : ∀ c ∈ (fraction ++ (exponent ++ (suffix ++ rest))).head?, c.isDigit = false := by
    intro c hc
    rcases hdot c hc with rfl | rfl | rfl <;> rfl
  have hscan : scanNumber (digits ++ (fraction ++ (exponent ++ (suffix ++ rest)))) =
      .ok ⟨.literal (.float (String.ofList (digits ++ fraction ++ exponent)) single),
        digits ++ fraction ++ exponent ++ suffix, rest⟩ := by
    rw [scanNumber_of_isDigit hd]
    · simp only [scanDecimal, takeWhile_append_of_head? hd hnd, dropWhile_append_of_head? hd hnd]
      rw [if_pos (startsFloatTail_of_isFloat hf he ht _), scanFloat_of_isFloat hf he ht hs hr]
    · intro c hc
      rcases hdot c hc with rfl | rfl | rfl <;> decide
  rcases digits with _ | ⟨d, ds⟩
  · -- A number without a digit in front begins with a point and a digit.
    obtain ⟨ds, rfl, hds⟩ := hf.resolve_left (by rintro rfl; simp at hn)
    obtain ⟨d, ds, rfl⟩ : ∃ x xs, ds = x :: xs :=
      List.exists_cons_of_ne_nil (by rintro rfl; simp at hn)
    refine ⟨'.', _, by simp; rfl, ?_⟩
    rw [Lexeme.scan, if_pos (by simp [hds d])]
    simpa using hscan
  · refine ⟨d, _, by simp; rfl, ?_⟩
    rw [scan_of_isDigit (hd d (by simp))]
    simpa using hscan

end Floats

/-! ### Characters -/

section Characters

variable {p : Char → Bool} {q : Char} {ds cs body rest : List Char} {byte : UInt8}

/-- At most `n` characters are taken, and `q` ends them anyhow. -/
theorem takeWhile_take_append {n : Nat} (hd : ∀ c ∈ ds, p c) (hl : ds.length ≤ n)
    (hq : p q = false) (rest : List Char) : ((ds ++ q :: rest).take n).takeWhile p = ds := by
  rw [List.take_append, List.take_of_length_le hl]
  refine takeWhile_append_of_head? hd ?_
  cases n - ds.length with
  | zero => nofun
  | succ m => rintro c ⟨⟩; exact hq

theorem scanEscape_append_right (h : scanEscape cs = .ok (byte, body, '\'' :: rest))
    (rest' : List Char) : scanEscape (body ++ '\'' :: rest') = .ok (byte, body, '\'' :: rest') := by
  unfold scanEscape at h
  split at h
  · cases h
  next c cs =>
  split at h
  · next hc =>
    cases h
    simp [scanEscape, hc]
  next hl =>
  split at h
  · next hc =>
    have ht := takeWhile_take_append (n := 2) all_of_mem_takeWhile
      ((List.takeWhile_sublist _).length_le.trans (List.length_take_le 2 cs))
      (show Radix.octal.isDigit '\'' = false from rfl) rest'
    generalize (cs.take 2).takeWhile Radix.octal.isDigit = ds at h ht
    dsimp only at h
    split at h
    · next hv =>
      split at h
      · next hlt =>
        simp only [Except.ok.injEq, Prod.mk.injEq] at h
        obtain ⟨rfl, rfl, -⟩ := h
        simp only [List.cons_append, scanEscape, hl, hc, ht, hv, if_true, hlt]
        simp
      · cases h
    · cases h
  next ho =>
  split at h
  · next hx =>
    subst hx
    have ht := takeWhile_take_append (n := 2) all_of_mem_takeWhile
      ((List.takeWhile_sublist _).length_le.trans (List.length_take_le 2 cs))
      (show Radix.hex.isDigit '\'' = false from rfl) rest'
    generalize (cs.take 2).takeWhile Radix.hex.isDigit = ds at h ht
    dsimp only at h
    split at h
    · next hv =>
      simp only [Except.ok.injEq, Prod.mk.injEq] at h
      obtain ⟨rfl, rfl, -⟩ := h
      rw [List.cons_append] at ht
      simp only [List.cons_append, scanEscape, hl, ht, hv]
      simp [Radix.isDigit]
    · cases h
  · split at h <;> cases h

/-- What follows the closing quote plays no part in how a character is read. -/
theorem scanCharBody_append_right (h : scanCharBody cs = .ok (byte, body, '\'' :: rest))
    (rest' : List Char) :
    scanCharBody (body ++ '\'' :: rest') = .ok (byte, body, '\'' :: rest') := by
  unfold scanCharBody at h
  split at h
  · cases h
  · cases h
  · next cs =>
    cases he : scanEscape cs with
    | error fault => rw [he] at h; cases h
    | ok r =>
      obtain ⟨b, s, t⟩ := r
      rw [he] at h
      cases h
      rw [List.cons_append, scanCharBody, scanEscape_append_right he]
      rfl
  · cases h
  · next c cs h₁ h₂ h₃ =>
    split at h
    · next hc =>
      cases h
      rw [List.singleton_append, scanCharBody, if_pos hc]
      all_goals assumption
    · cases h

end Characters

/-! ### Names and operators -/

theorem not_isDigit_of_isIdentStart {c : Char} (h : isIdentStart c) : c.isDigit = false := by
  simp only [isIdentStart, Bool.or_eq_true, beq_iff_eq] at h
  rcases h with rfl | h
  · rfl
  · simp [Char.isAlpha, Char.isLower, Char.isUpper, Char.isDigit] at h ⊢
    grind

theorem scansAs_ident {name : String} {rest : List Char} (h : IsName name) (hr : EndsWord rest) :
    ScansAs (.ident name) name.toList rest := by
  obtain ⟨c, cs, hn, hc, hcs⟩ := h
  refine ⟨c, cs ++ rest, by simp [hn], ?_⟩
  have hw : ∀ d ∈ c :: cs, isIdentContinue d :=
    List.forall_mem_cons.mpr ⟨isIdentContinue_of_isIdentStart hc, hcs⟩
  have hne : ∀ d, isIdentStart d = false → c ≠ d := by
    rintro d hd rfl
    rw [hd] at hc
    cases hc
  have hdig : c.isDigit = false := not_isDigit_of_isIdentStart hc
  rw [Lexeme.scan, hdig, if_neg (by simp [hne '.' rfl]), if_neg (hne _ rfl), if_neg (hne _ rfl),
    if_pos hc, Lexeme.name, ← List.cons_append, takeWhile_append_of_head? hw hr,
    dropWhile_append_of_head? hw hr, ← hn, String.ofList_toList]

/-- Whether the character makes a longer operator of the one before it. -/
def Punct.joins : Punct → Char → Bool
  | lt, c => c == '<' || c == '='
  | gt, c => c == '>' || c == '='
  | amp, c => c == '&'
  | pipe, c => c == '|'
  | bang, c => c == '='
  | _, _ => false

theorem Punct.scan?_eq_some_iff {p : Punct} {cs rest : List Char} :
    scan? cs = some (p, rest) ↔
      cs = p.spelling ++ rest ∧ ∀ c ∈ rest.head?, p.joins c = false := by
  constructor
  · intro h
    refine ⟨(spelling_append_of_scan? h).symm, ?_⟩
    unfold scan? at h
    split at h <;> cases h <;> intro c hc <;> try rfl
    all_goals
      obtain ⟨cs, rfl⟩ := List.head?_eq_some_iff.mp hc
      simp_all [joins]
  · rintro ⟨rfl, h⟩
    rcases rest with _ | ⟨c, cs⟩
    · cases p <;> rfl
    · have hc := h c rfl
      cases p <;> simp only [spelling, List.cons_append, List.nil_append] <;> rw [scan?] <;>
        simp_all [joins]

theorem scansAs_punct {p : Punct} {rest : List Char} (h : ∀ c ∈ rest.head?, p.joins c = false) :
    ScansAs (.punct p) p.spelling rest := by
  have hs := Punct.scan?_eq_some_iff.mpr ⟨rfl, h⟩
  obtain ⟨c, cs, hc⟩ := List.exists_cons_of_ne_nil p.spelling_ne_nil
  have hp : (c.isDigit = false ∧ c ≠ '.') ∧ c ≠ '\'' ∧ c ≠ '"' ∧ isIdentStart c = false := by
    cases p <;> cases hc <;> decide
  obtain ⟨⟨hd, hdot⟩, h₁, h₂, h₃⟩ := hp
  refine ⟨c, cs ++ rest, by rw [hc]; rfl, ?_⟩
  rw [hc, List.cons_append] at hs
  simp [Lexeme.scan, hd, hdot, h₁, h₂, h₃, hs]

/-! ### Tokens -/

namespace TokenKind

/-- The text spells the token. -/
inductive SpelledAs : TokenKind → List Char → Prop where
  | ident {name} (h : IsName name) : SpelledAs (.ident name) name.toList
  | int {radix mark digits letters suffix value ty} (marks : Radix.Marks radix mark digits)
    (ne_nil : digits ≠ []) (reads : radix.readFrom 0 digits = .ok value)
    (suffixed : Suffix.ofChars? letters = some suffix)
    (typed : suffix.type? value radix = some ty) :
    SpelledAs (.literal (.int ⟨value, radix, String.ofList digits, ty⟩)) (mark ++ digits ++ letters)
  | float {text suffix single} (h : IsFloat text.toList) (suffixed : IsFloatSuffix suffix single) :
    SpelledAs (.literal (.float text single)) (text.toList ++ suffix)
  | char {byte body} (h : scanCharBody (body ++ ['\'']) = .ok (byte, body, ['\''])) :
    SpelledAs (.literal (.char byte)) ('\'' :: body ++ ['\''])
  | str {raw} (h : (Literal.str raw).WellSpelled) : SpelledAs (.literal (.str raw)) raw.toList
  | punct (p) : SpelledAs (.punct p) p.spelling

/-- Whether the character goes on with the token that `w` spells. A point does where `w` has nothing
but digits. -/
def joins : TokenKind → (w : List Char) → Char → Bool
  | .literal (.int _), w, c => isIdentContinue c || (c == '.' && w.all Char.isDigit)
  | .ident _, _, c | .literal (.float _ _), _, c => isIdentContinue c
  | .literal (.char _), _, _ | .literal (.str _), _, _ => false
  | .punct p, _, c => p.joins c

/-- The token that `w` spells ends before the text. -/
def EndsBefore (k : TokenKind) (w rest : List Char) : Prop := ∀ c ∈ rest.head?, k.joins w c = false

variable {k : TokenKind} {w rest : List Char}

theorem EndsBefore.nil : k.EndsBefore w [] := nofun

theorem EndsBefore.endsWord (hk : ∀ c, isIdentContinue c → k.joins w c) (h : k.EndsBefore w rest) :
    EndsWord rest := fun c hc => eq_false_of_imp (hk c) (h c hc)

end TokenKind

section Tokens

variable {k : TokenKind} {w rest : List Char}

/-- Digits of an integer without a suffix end before a point only where a letter marks the radix. -/
theorem endsBefore_of_joins {radix : Radix} {mark digits letters : List Char} {l : IntLiteral}
    (hm : radix.Marks mark digits) (hd : ∀ d ∈ digits, radix.isDigit d)
    (hl : ∀ c ∈ letters, isSuffixLetter c)
    (h : (TokenKind.literal (.int l)).EndsBefore (mark ++ digits ++ letters) rest) :
    radix.EndsBefore (letters ++ rest) := by
  rcases letters with _ | ⟨c, cs⟩
  · intro c hc
    have hj := h c hc
    simp only [TokenKind.joins, Bool.or_eq_false_iff, List.append_nil] at hj
    refine .inr ⟨hj.1, ?_⟩
    rintro rfl
    cases hm with
    | decimal =>
      rw [List.nil_append, List.all_eq_true.mpr (show ∀ d ∈ digits, d.isDigit from hd)] at hj
      cases hj.2
    | octal =>
      rw [List.all_eq_true.mpr (List.forall_mem_append.mpr
        ⟨by simp, fun d h => isDigit_of_isOctal (hd d h)⟩)] at hj
      cases hj.2
    | hex => exact .inl rfl
    | binary => exact .inr rfl
  · rintro d ⟨⟩
    exact .inl (hl c (by simp))

theorem endsBefore_int {radix : Radix} {mark digits letters : List Char} {suffix : Suffix}
    {l : IntLiteral} (hm : radix.Marks mark digits) (hs : Suffix.ofChars? letters = some suffix)
    (hr : EndsWord rest) (hp : '.' ∈ (letters ++ rest).head? → radix = .hex ∨ radix = .binary) :
    (TokenKind.literal (.int l)).EndsBefore (mark ++ digits ++ letters) rest := by
  intro d hd
  simp only [TokenKind.joins, Bool.or_eq_false_iff]
  refine ⟨hr d hd, ?_⟩
  rw [Bool.eq_false_iff]
  intro hj
  simp only [Bool.and_eq_true, beq_iff_eq, List.all_eq_true] at hj
  obtain ⟨rfl, hall⟩ := hj
  rcases letters with _ | ⟨c, cs⟩
  · cases hm with
    | decimal | octal => rcases hp hd with h | h <;> cases h
    | hex h => rcases h with rfl | rfl <;> cases hall _ (by simp; exact .inr (.inl rfl))
    | binary h => rcases h with rfl | rfl <;> cases hall _ (by simp; exact .inr (.inl rfl))
  · have hc := hall c (by simp)
    have hmem := Suffix.ofChars?_eq_some_iff.mp hs
    have hl := Suffix.isSuffixLetter_of_mem_spellings hmem c (by simp)
    simp only [isSuffixLetter, Bool.or_eq_true, beq_iff_eq] at hl
    rcases hl with ((rfl | rfl) | rfl) | rfl <;> cases hc

/-- A token is read from a text that spells it, before one that does not go on with it. -/
theorem scansAs_of_spelledAs (hs : k.SpelledAs w) (he : k.EndsBefore w rest) :
    ScansAs k w rest := by
  cases hs with
  | ident h => exact scansAs_ident h (he.endsWord fun _ => id)
  | int hm hne hv hs ht =>
    have hr : EndsWord rest := he.endsWord fun _ h => by simp [TokenKind.joins, h]
    have hl := Suffix.isSuffixLetter_of_mem_spellings (Suffix.ofChars?_eq_some_iff.mp hs)
    have hd := Radix.isDigit_of_readFrom hv
    obtain ⟨c, cs, hc, -, hscan⟩ := exists_scan_of_marks hm hne hd (endsBefore_of_joins hm hd hl he)
    refine ⟨c, cs, by rw [← hc]; simp, hscan.trans ?_⟩
    exact scanInteger_eq_ok_iff.mpr ⟨_, _, _, _, _, rfl, hr, hne, hv, hs, ht, rfl⟩
  | float h hs => exact scansAs_float h hs (he.endsWord fun _ => id)
  | @char byte body h =>
    refine ⟨'\'', body ++ '\'' :: rest, by simp, ?_⟩
    simp [Lexeme.scan, scanChar, scanCharBody_append_right h]
  | @str raw h =>
    obtain ⟨body, hb, hs⟩ := h
    have hr : raw = String.ofList ('"' :: body) := by rw [← hb, String.ofList_toList]
    refine ⟨'"', body ++ rest, by simp [hb], ?_⟩
    rw [hb, hr]
    simp [Lexeme.scan, scanString, hs]
  | punct p => exact scansAs_punct he

/-- A token is read from nothing else. -/
theorem spelledAs_of_scansAs (h : ScansAs k w rest) : k.SpelledAs w ∧ k.EndsBefore w rest := by
  obtain ⟨c, cs, he, hl⟩ := h
  have hw := Lexeme.wellSpelled_of_scan hl
  unfold Lexeme.scan at hl
  split at hl
  · cases readsNumber_of_scanNumber hl with
    | integer hsplit hm hp hscan =>
      obtain ⟨letters, suffix, value, ty, rest', rfl, hr, hne, hv, hs, ht, hlx⟩ :=
        scanInteger_eq_ok_iff.mp hscan
      cases hlx
      exact ⟨.int hm hne hv hs ht, endsBefore_int hm hs hr hp⟩
    | floating hsplit hd ht hscan =>
      obtain ⟨text, single, suffix, hk, hsp, hs, hr⟩ := scanFloat_eq_ok hscan
      obtain rfl : k = _ := hk
      obtain rfl : w = _ := hsp
      exact ⟨.float hw hs, hr⟩
  split at hl
  · next hq =>
    unfold scanChar at hl
    split at hl
    · cases hl
    · next hb =>
      cases hl
      exact ⟨.char (scanCharBody_append_right hb []), fun _ _ => rfl⟩
    · cases hl
  split at hl
  · next hq =>
    unfold scanString at hl
    split at hl
    · cases hl
    · next body r hs =>
      cases hl
      have := TokenKind.SpelledAs.str hw
      rw [String.toList_ofList] at this
      exact ⟨this, fun _ _ => rfl⟩
  split at hl
  · next hi =>
    cases hl
    have := TokenKind.SpelledAs.ident hw
    rw [String.toList_ofList] at this
    exact ⟨this, endsWord_dropWhile _⟩
  · split at hl
    · next p r hp =>
      cases hl
      exact ⟨.punct p, (Punct.scan?_eq_some_iff.mp hp).2⟩
    · cases hl

end Tokens

end Bindery
