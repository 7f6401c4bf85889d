import Bindery.Expr.Printer
import Bindery.Proofs.Expr.TokenEnds

/-!
# Reading a printed literal

What the printer writes for a literal spells that literal (`Literal.WellSpelled.spelledAs`), so it
is read back before every text that does not go on with it (`scansAs_literal`). An octal literal
comes back in decimal.
-/

namespace Bindery

/-- The text does not go on a name or a number that stands before it. -/
def Boundary (cs : List Char) : Prop := ∀ c ∈ cs.head?, isIdentContinue c = false ∧ c ≠ '.'

namespace Boundary

variable {rest : List Char}

theorem nil : Boundary [] := nofun

theorem cons {c : Char} {cs : List Char} (h : isIdentContinue c = false ∧ c ≠ '.') :
    Boundary (c :: cs) := by
  rintro d hd
  cases hd
  exact h

theorem endsWord (h : Boundary rest) : EndsWord rest := fun c hc => (h c hc).1

theorem endsBefore_literal (h : Boundary rest) (l : Literal) (w : List Char) :
    (TokenKind.literal l).EndsBefore w rest := by
  intro c hc
  obtain ⟨hi, hp⟩ := h c hc
  cases l <;> simp [TokenKind.joins, hi, hp]

end Boundary

/-! ### Integers -/

namespace Radix

theorem readFrom_append {radix : Radix} {cs ds : List Char} {acc value : Nat}
    (h : radix.readFrom acc cs = .ok value) :
    radix.readFrom acc (cs ++ ds) = radix.readFrom value ds := by
  induction cs generalizing acc with
  | nil => cases h; rfl
  | cons c cs ih =>
    simp only [readFrom, List.cons_append] at h ⊢
    split at h
    · next hc =>
      rw [if_pos hc]
      split at h
      · next hle => rw [if_pos hle]; exact ih h
      · cases h
    · cases h

theorem decimal_digitChar : ∀ d < 10,
    decimal.isDigit (Nat.digitChar d) ∧ digitValue (Nat.digitChar d) = d := by decide

/-- The decimal digits of a number of 64 bits are read as the number. -/
theorem readFrom_toDigits {value : Nat} (h : value ≤ maxU64) :
    decimal.readFrom 0 (Nat.toDigits 10 value) = .ok value := by
  by_cases hlt : value < 10
  · obtain ⟨hd, hv⟩ := decimal_digitChar value hlt
    rw [Nat.toDigits_of_lt_base hlt]
    simp [readFrom, hd, hv, h]
  · obtain ⟨hd, hv⟩ := decimal_digitChar (value % 10) (by omega)
    have he : value / 10 * decimal.base + value % 10 = value := by simp only [base]; omega
    rw [Nat.toDigits_of_base_le (by decide) (by omega),
      readFrom_append (readFrom_toDigits (by omega))]
    simp [readFrom, hd, hv, he, h]
termination_by value

end Radix

theorem toDigits_ne_cons_zero {value : Nat} (h : 0 < value) (cs : List Char) :
    Nat.toDigits 10 value ≠ '0' :: cs := by
  by_cases hlt : value < 10
  · have hne : ∀ d < 10, 0 < d → Nat.digitChar d ≠ '0' := by decide
    rw [Nat.toDigits_of_lt_base hlt]
    exact fun he => hne value hlt h (List.cons.inj he).1
  · obtain ⟨d, ds, hd⟩ :=
      List.exists_cons_of_ne_nil (Nat.toDigits_ne_nil (n := value / 10) (b := 10))
    have hz := toDigits_ne_cons_zero (show 0 < value / 10 by omega) ds
    rw [Nat.toDigits_of_base_le (by decide) (by omega), hd]
    exact fun he => hz (by rw [hd, (List.cons.inj he).1])
termination_by value

/-- Only the digits of zero begin with a zero. -/
theorem eq_nil_of_toDigits_eq_cons {value : Nat} {cs : List Char}
    (h : Nat.toDigits 10 value = '0' :: cs) : cs = [] := by
  rcases Nat.eq_zero_or_pos value with rfl | hp
  · rw [Nat.toDigits_zero] at h
    exact (List.cons.inj h).2.symm
  · exact absurd h (toDigits_ne_cons_zero hp cs)

namespace IntLiteral

/-- The literal as the host has it: one in octal is written in decimal. -/
def host (l : IntLiteral) : IntLiteral :=
  match l.radix with
  | .octal => ⟨l.value, .decimal, String.ofList (Nat.toDigits 10 l.value), l.ty⟩
  | _ => l

theorem chars_host (l : IntLiteral) : l.host.chars = l.chars := by
  rcases l with ⟨value, _ | _ | _ | _, digits, ty⟩ <;> simp [host, chars]

theorem radix_host (l : IntLiteral) : l.host.radix ≠ .octal := by
  rcases l with ⟨value, _ | _ | _ | _, digits, ty⟩ <;> simp [host]

end IntLiteral

/-- The suffix that stands for the type of a literal asks for that type, in every radix. -/
theorem Suffix.ofChars?_suffix {suffix : Suffix} {value : Nat} {radix : Radix} {ty : Ty}
    (h : suffix.type? value radix = some ty) : ∃ s, ofChars? (IntLiteral.suffix ty) = some s ∧
      ∀ radix, s.type? value radix = some ty := by
  cases suffix <;> simp only [type?] at h
  · split at h
    · next hv => cases h; exact ⟨.plain, rfl, fun _ => by simp [type?, hv.2]⟩
    · split at h
      · next hv => cases h; exact ⟨.l, rfl, fun _ => by simp [type?, hv]⟩
      · split at h
        · cases h; exact ⟨.ul, rfl, fun _ => rfl⟩
        · cases h
  · split at h
    · next hv => cases h; exact ⟨.u, rfl, fun _ => by simp [type?, hv]⟩
    · cases h; exact ⟨.ul, rfl, fun _ => rfl⟩
  · split at h
    · next hv => cases hv.1
    · split at h
      · next hv => cases h; exact ⟨.l, rfl, fun _ => by simp [type?, hv]⟩
      · split at h
        · cases h; exact ⟨.ul, rfl, fun _ => rfl⟩
        · cases h
  · cases h
    exact ⟨.ul, rfl, fun _ => rfl⟩

theorem IntLiteral.WellSpelled.host {l : IntLiteral} (h : l.WellSpelled) : l.host.WellSpelled := by
  rcases l with ⟨value, _ | _ | _ | _, digits, ty⟩
  · exact h
  · obtain ⟨suffix, hs⟩ := h.typed
    obtain ⟨s, -, ht⟩ := Suffix.ofChars?_suffix hs
    exact ⟨by simpa [IntLiteral.host] using
        Radix.readFrom_toDigits (Radix.le_of_readFrom h.reads (Nat.zero_le _)),
      by simp [IntLiteral.host, Nat.toDigits_ne_nil],
      fun _ cs hc => eq_nil_of_toDigits_eq_cons (by simpa [IntLiteral.host] using hc), s, ht _⟩
  · exact h
  · exact h

/-- The printer's spelling of an integer literal, which is never octal. -/
theorem IntLiteral.WellSpelled.spelledAs {l : IntLiteral} (h : l.WellSpelled)
    (ho : l.radix ≠ .octal) : (TokenKind.literal (.int l)).SpelledAs l.chars := by
  obtain ⟨value, radix, digits, ty⟩ := l
  obtain ⟨hv, hne, hz, _, hty⟩ := h
  simp only at hv hne hz hty ho
  obtain ⟨mark, hm, hc⟩ : ∃ mark, radix.Marks mark digits.toList ∧
      IntLiteral.chars ⟨value, radix, digits, ty⟩ =
        mark ++ digits.toList ++ IntLiteral.suffix ty := by
    cases radix with
    | octal => exact absurd rfl ho
    | decimal => exact ⟨[], .decimal (hz rfl), rfl⟩
    | hex => exact ⟨['0', 'x'], .hex (.inl rfl), rfl⟩
    | binary => exact ⟨['0', 'b'], .binary (.inl rfl), rfl⟩
  obtain ⟨suffix, hs, ht⟩ := Suffix.ofChars?_suffix hty
  have := TokenKind.SpelledAs.int hm hne hv hs (ht radix)
  rwa [String.ofList_toList, ← hc] at this

/-! ### Literals -/

theorem hexDigit_spec : ∀ d < 16, Radix.hex.isDigit (hexDigit d) ∧ digitValue (hexDigit d) = d := by
  decide

/-- The escape with two hexadecimal digits is read as its byte. -/
theorem scanEscape_hex {n : Nat} (hn : n < 256) (rest : List Char) :
    scanEscape ('x' :: hexDigit (n / 16) :: hexDigit (n % 16) :: rest) =
      .ok (UInt8.ofNat n, ['x', hexDigit (n / 16), hexDigit (n % 16)], rest) := by
  obtain ⟨h₁, v₁⟩ := hexDigit_spec (n / 16) (by omega)
  obtain ⟨h₂, v₂⟩ := hexDigit_spec (n % 16) (by omega)
  have hv : n / 16 * 16 + n % 16 = n := by omega
  have hle₁ : n / 16 ≤ maxU64 := by simp only [maxU64]; omega
  have hle₂ : n ≤ maxU64 := by simp only [maxU64]; omega
  have hr : Radix.hex.readFrom 0 [hexDigit (n / 16), hexDigit (n % 16)] = .ok n := by
    simp [Radix.readFrom, Radix.base, h₁, h₂, v₁, v₂, hv, hle₁, hle₂]
  have ht : ([hexDigit (n / 16), hexDigit (n % 16)]).takeWhile Radix.hex.isDigit =
      [hexDigit (n / 16), hexDigit (n % 16)] := by
    simp [h₁, h₂]
  have hx : letterEscape? 'x' = none := rfl
  simp only [scanEscape, hx, List.take, ht, hr]
  simp [Radix.isDigit]

theorem scanCharBody_charEscape (byte : UInt8) (rest : List Char) :
    scanCharBody (charEscape byte ++ '\'' :: rest) = .ok (byte, charEscape byte, '\'' :: rest) := by
  obtain ⟨n, hn, rfl⟩ : ∃ n < 256, byte = UInt8.ofNat n := ⟨byte.toNat, byte.toNat_lt, by simp⟩
  have htn : (UInt8.ofNat n).toNat = n := by simp; omega
  unfold charEscape
  rw [htn]
  split
  case h_10 n' h₁ h₂ h₃ h₄ h₅ h₆ h₇ h₈ h₉ =>
    split
    · next hp =>
      have hc : (Char.ofNat n).toNat = n := by
        rw [Char.ofNat, dif_pos (.inl (by omega))]
        rfl
      have hne : ∀ c : Char, n ≠ c.toNat → Char.ofNat n ≠ c := by
        rintro c hcn rfl
        exact hcn hc.symm
      rw [List.singleton_append, scanCharBody, hc, if_pos (by omega)]
      · exact hne _ h₃
      · exact hne _ h₁
      · exact hne _ h₂
    · simp [scanCharBody, scanEscape_hex hn, Except.map]
  all_goals rfl

/-- A literal as the host has it. -/
def Literal.host : Literal → Literal
  | int l => int l.host
  | l => l

theorem Literal.ty_host (l : Literal) : l.host.ty = l.ty := by
  rcases l with ⟨value, _ | _ | _ | _, digits, ty⟩ | _ | _ | _ <;> rfl

theorem Literal.WellSpelled.spelledAs {l : Literal} (h : l.WellSpelled) :
    (TokenKind.literal l.host).SpelledAs l.chars := by
  cases l with
  | int l =>
    rw [Literal.chars, ← l.chars_host]
    exact (IntLiteral.WellSpelled.host h).spelledAs l.radix_host
  | float text single =>
    refine .float h ?_
    cases single
    · exact .none
    · exact .single (.inl rfl)
  | char byte => exact .char (scanCharBody_charEscape byte [])
  | str raw => exact .str h

/-- What the printer writes for a literal is read as the host's form of it. -/
theorem scansAs_literal {l : Literal} {rest : List Char} (h : l.WellSpelled) (hb : Boundary rest) :
    ScansAs (.literal l.host) l.chars rest :=
  scansAs_of_spelledAs h.spelledAs (hb.endsBefore_literal _ _)

end Bindery
