import Bindery.Expr.Parser
import Bindery.Proofs.Expr.CursorTokens

/-!
# Offsets

Where tokens and errors lie. Tokens begin and end where characters do, and what lies between them is
blank (`Laid`). The parser reports the end of the text or the start of a token, and it goes through
the tokens from the front (`Located`), so no error lies beyond the text. `offsets_in_text` puts this
together with what is known of the walk over the bytes.
-/

namespace Bindery

open Text

/-! ### Offsets in errors -/

/-- The error reports no offset, the end of the text or the start of one of the tokens. -/
def ParseError.PointsTo (e : ParseError) (stop : Nat) (ts : List Token) : Prop :=
  ∀ pos, e.pos? = some pos → pos = stop ∨ ∃ t ∈ ts, t.start = pos

/-- What is read leaves tokens at the end of `ts`, and a failure points to one of `ts`. -/
def Located {α : Type} (stop : Nat) (ts : List Token) (rest : α → List Token)
    (x : Except ParseError α) : Prop :=
  match x with
  | .ok a => rest a <:+ ts
  | .error e => e.PointsTo stop ts

variable {α β : Type} {stop : Nat} {ts ts' : List Token} {r : α → List Token}
  {q : β → List Token}

namespace Located

theorem of_expected {what : Expectation} {pos : Nat} (h : pos = stop ∨ ∃ t ∈ ts, t.start = pos) :
    Located stop ts r (.error (.expected what pos)) := fun p hp => by
  cases hp
  exact h

theorem mono {x : Except ParseError α} (h : Located stop ts r x) (hs : ts <:+ ts') :
    Located stop ts' r x := by
  cases x with
  | ok a => exact List.IsSuffix.trans h hs
  | error e => exact fun pos hp => (h pos hp).imp_right fun ⟨t, ht, he⟩ => ⟨t, hs.mem ht, he⟩

theorem bind {x : Except ParseError α} {f : α → Except ParseError β} (hx : Located stop ts r x)
    (hf : ∀ a, r a <:+ ts → Located stop (r a) q (f a)) : Located stop ts q (x >>= f) := by
  cases x with
  | ok a => exact (hf a hx).mono hx
  | error e => exact hx

end Located

theorem offsetOf_points (stop : Nat) (ts : List Token) :
    offsetOf stop ts = stop ∨ ∃ t ∈ ts, t.start = offsetOf stop ts := by
  cases ts with
  | nil => exact .inl rfl
  | cons t ts => exact .inr ⟨t, by simp, rfl⟩

theorem suffix_of_eat? {p : Punct} {rest} (h : eat? p ts = some rest) : rest.val <:+ ts := by
  unfold eat? at h
  split at h
  · cases h
  · split at h
    · cases h
      exact List.suffix_cons _ _
    · cases h

theorem located_expect (stop : Nat) (p : Punct) (what : Expectation) (ts : List Token) :
    Located stop ts Subtype.val (expect stop p what ts) := by
  unfold expect
  split
  · next h => exact suffix_of_eat? h
  · exact .of_expected (offsetOf_points stop ts)

theorem suffix_of_castPrefix? {p : Parsed String ts} (h : castPrefix? ts = some p) :
    p.rest <:+ ts := by
  unfold castPrefix? at h
  split at h
  · next rest =>
    split at h
    · cases h
    · cases h
      exact ((List.suffix_cons _ _).trans (List.suffix_cons _ _)).trans (List.suffix_cons _ _)
  · cases h

theorem suffix_spanIdents (ts : List Token) : (spanIdents ts).2 <:+ ts := by
  fun_induction spanIdents ts with
  | case1 name start stop ts ih => exact ih.trans (List.suffix_cons _ _)
  | case2 => exact List.suffix_rfl

theorem suffix_of_sizeofOperand? {p : Parsed Expr ts} (h : sizeofOperand? ts = some p) :
    p.rest <:+ ts := by
  unfold sizeofOperand? at h
  split at h
  · cases h
  · next inner h₁ hinner =>
    split at h
    · cases h
    · next rest h₂ hrest =>
      obtain ⟨operand, -, rfl⟩ := Option.map_eq_some_iff.mp h
      exact ((suffix_of_eat? hrest).trans (suffix_spanIdents inner)).trans (suffix_of_eat? hinner)

mutual

theorem located_parseExpr (stop : Nat) (ts : List Token) :
    Located stop ts Parsed.rest (parseExpr stop ts) := by
  rw [parseExpr]
  refine .bind (located_parseBinary stop 1 ts) fun ⟨cond, r₁, h₁⟩ _ => ?_
  dsimp only
  split
  · exact List.suffix_rfl
  · next r₂ h₂ hq =>
    -- after the question mark the tokens are fewer, and a token of theirs is one of all
    refine Located.mono ?_ (suffix_of_eat? hq)
    refine .bind (located_parseExpr stop r₂) fun ⟨thenExpr, r₃, h₃⟩ _ => ?_
    refine .bind (located_expect stop .colon .colon r₃) fun ⟨r₄, h₄⟩ _ => ?_
    replace h₄ : r₄.length < r₃.length := h₄
    exact .bind (located_parseExpr stop r₄) fun ⟨elseExpr, r₅, h₅⟩ _ => List.suffix_rfl
termination_by (ts.length, 5)

theorem located_parseBinary (stop level : Nat) (ts : List Token) :
    Located stop ts Parsed.rest (parseBinary stop level ts) := by
  rw [parseBinary]
  refine .bind (located_parseCast stop ts) fun ⟨left, r₁, h₁⟩ _ => ?_
  exact .bind (located_parseOperators stop level left r₁) fun ⟨e, r₂, h₂⟩ _ => List.suffix_rfl
termination_by (ts.length, 4)

theorem located_parseOperators (stop level : Nat) (left : Expr) : ∀ ts : List Token,
    Located stop ts ParsedMore.rest (parseOperators stop level left ts)
  | [] => by
    rw [parseOperators]
    exact List.suffix_rfl
  | t :: r₁ => by
    rw [parseOperators]
    split
    · exact List.suffix_rfl
    · next op _ =>
      split
      · exact List.suffix_rfl
      · refine Located.mono ?_ (List.suffix_cons t r₁)
        refine .bind (located_parseBinary stop (op.precedence + 1) r₁) fun ⟨right, r₂, h₂⟩ _ => ?_
        exact .bind (located_parseOperators stop level (.binary op left right) r₂)
          fun ⟨e, r₃, h₃⟩ _ => List.suffix_rfl
termination_by ts => (ts.length, 0)

theorem located_parseCast (stop : Nat) (ts : List Token) :
    Located stop ts Parsed.rest (parseCast stop ts) := by
  rw [parseCast]
  split
  · exact located_parseUnary stop ts
  · next name r₁ h₁ hc =>
    have hr := located_parseCast stop r₁
    split
    · next operand r₂ h₂ hp =>
      rw [hp] at hr
      exact List.IsSuffix.trans hr (suffix_of_castPrefix? hc)
    · -- the fault in the operand is dropped, and the name in brackets stands for itself
      exact suffix_of_castPrefix? hc
termination_by (ts.length, 3)

theorem located_parseUnary (stop : Nat) : ∀ ts : List Token,
    Located stop ts Parsed.rest (parseUnary stop ts)
  | [] => by
    rw [parseUnary]
    exact located_parseAtom stop []
  | t :: r₁ => by
    have ht := List.suffix_cons t r₁
    rw [parseUnary]
    split
    · split
      · next operand r₂ h₂ hs => exact (suffix_of_sizeofOperand? hs).trans ht
      · refine Located.mono ?_ ht
        exact .bind (located_parseUnary stop r₁) fun ⟨operand, r₂, h₂⟩ _ => List.suffix_rfl
    · split
      · refine Located.mono ?_ ht
        exact .bind (located_parseCast stop r₁) fun ⟨operand, r₂, h₂⟩ _ => List.suffix_rfl
      · exact located_parseAtom stop (t :: r₁)
termination_by ts => (ts.length, 2)

theorem located_parseAtom (stop : Nat) : ∀ ts : List Token,
    Located stop ts Parsed.rest (parseAtom stop ts)
  | [] => by
    rw [parseAtom]
    exact .of_expected (.inl rfl)
  | t :: r₁ => by
    have ht := List.suffix_cons t r₁
    rw [parseAtom]
    split
    · exact ht
    · split
      · exact ht
      · next r₂ h₂ hl =>
        have hr := (suffix_of_eat? hl).trans ht
        split
        · next r₃ h₃ hc => exact (suffix_of_eat? hc).trans hr
        · refine Located.mono ?_ hr
          exact .bind (located_parseArgs stop r₂) fun ⟨args, r₃, h₃⟩ _ => List.suffix_rfl
    · split
      · refine Located.mono ?_ ht
        refine .bind (located_parseExpr stop r₁) fun ⟨inner, r₂, h₂⟩ _ => ?_
        exact .bind (located_expect stop .rParen .closeParen r₂) fun ⟨r₃, h₃⟩ _ => List.suffix_rfl
      · exact .of_expected (.inr ⟨t, by simp, rfl⟩)
termination_by ts => (ts.length, 1)

theorem located_parseArgs (stop : Nat) (ts : List Token) :
    Located stop ts Parsed.rest (parseArgs stop ts) := by
  rw [parseArgs]
  refine .bind (located_parseExpr stop ts) fun ⟨arg, r₁, h₁⟩ _ => ?_
  dsimp only
  split
  · next r₂ h₂ hc =>
    refine Located.mono ?_ (suffix_of_eat? hc)
    exact .bind (located_parseArgs stop r₂) fun ⟨args, r₃, h₃⟩ _ => List.suffix_rfl
  · exact .bind (located_expect stop .rParen .closeParenOrComma r₁)
      fun ⟨r₂, h₂⟩ _ => List.suffix_rfl
termination_by (ts.length, 6)

end

theorem located_parseTokens (stop : Nat) (ts : List Token) :
    Located stop ts (fun _ => []) (parseTokens stop ts) := by
  unfold parseTokens
  split
  · exact nofun
  · refine .bind (located_parseExpr stop ts) fun ⟨e, rest, h⟩ _ => ?_
    cases rest with
    | nil => exact List.suffix_rfl
    | cons t rest =>
      intro pos hp
      cases hp
      exact .inr ⟨t, by simp, rfl⟩

/-! ### Offsets of tokens -/

namespace Scanner

/-- The byte is a blank or begins a line continuation, the other bytes of which are blanks. -/
def isTrivia (text : List Char) (pos : Nat) : Bool :=
  holds text isSpace pos || continuationLength text pos != 0

/-- Between the offsets are blanks and line continuations, if anything. -/
structure IsGap (text : List Char) (start stop : Nat) : Prop where
  le : start ≤ stop
  trivia : ∀ i, start ≤ i → i < stop → isTrivia text i = true

/-- From the offset on, the text is made up of the tokens and of what may stand between tokens. -/
inductive Laid (text : List Char) : Nat → List Token → Prop where
  | nil {pos : Nat} (gap : IsGap text pos (byteLength text)) : Laid text pos []
  | cons {pos : Nat} {t : Token} {ts : List Token} (gap : IsGap text pos t.start)
    (start : IsBoundary text t.start) (lt : t.start < t.stop) (stop : IsBoundary text t.stop)
    (rest : Laid text t.stop ts) : Laid text pos (t :: ts)

variable {text cs : List Char} {pos stop i : Nat} {t : Token} {ts : List Token}

theorem IsGap.refl (text : List Char) (pos : Nat) : IsGap text pos pos :=
  ⟨Nat.le_refl _, fun _ hl hh => absurd hh (Nat.not_lt.mpr hl)⟩

theorem IsGap.cons (ht : isTrivia text pos = true) (h : IsGap text (pos + 1) stop) :
    IsGap text pos stop := by
  refine ⟨Nat.le_of_succ_le h.le, fun i hl hh => ?_⟩
  rcases Nat.eq_or_lt_of_le hl with rfl | hl
  · exact ht
  · exact h.trivia i hl hh

theorem isTrivia_of_isSpace {c : Char} (h : At text pos (c :: cs)) (hc : isSpace c = true) :
    isTrivia text pos = true := by
  rw [isTrivia, holds_at h ascii_isSpace, List.head?_cons, Option.any_some, hc, Bool.true_or]

theorem isTrivia_of_continuation (h : At text pos cs) (hc : continuationHead cs ≠ 0) :
    isTrivia text pos = true := by
  rw [isTrivia, continuationLength_at h, bne_iff_ne.mpr hc, Bool.or_true]

theorem isGap_skipSpace (h : At text pos cs) : IsGap text pos (skipSpace pos cs).1 := by
  fun_induction skipSpace pos cs with
  | case1 => exact .refl ..
  | case2 pos cs ih =>
    have hn := h.next (by decide)
    exact .cons (isTrivia_of_continuation h (Nat.succ_ne_zero _)) <|
      .cons (isTrivia_of_isSpace hn rfl) (ih (hn.next (by decide)))
  | case3 pos cs ih =>
    have hr := h.next (by decide)
    have hn := hr.next (by decide)
    exact .cons (isTrivia_of_continuation h (Nat.succ_ne_zero _)) <|
      .cons (isTrivia_of_isSpace hr rfl) <|
      .cons (isTrivia_of_isSpace hn rfl) (ih (hn.next (by decide)))
  | case4 pos c cs hb hb' hs ih =>
    exact .cons (isTrivia_of_isSpace h hs) (ih (h.next (ascii_isSpace c hs)))
  | case5 => exact .refl ..

namespace Laid

theorem of_mem (h : Laid text pos ts) : ∀ t ∈ ts, pos ≤ t.start ∧ t.start < t.stop ∧
    IsBoundary text t.start ∧ IsBoundary text t.stop := by
  induction h with
  | nil => nofun
  | cons gap start lt stop _ ih =>
    intro t ht
    rcases List.mem_cons.mp ht with rfl | ht
    · exact ⟨gap.le, lt, start, stop⟩
    · obtain ⟨hle, hrest⟩ := ih t ht
      have := gap.le
      exact ⟨by omega, hrest⟩

theorem pairwise (h : Laid text pos ts) : ts.Pairwise fun a b => a.start < b.start := by
  induction h with
  | nil => exact .nil
  | cons gap start lt stop rest ih =>
    refine .cons (fun b hb => ?_) ih
    exact Nat.lt_of_lt_of_le lt (rest.of_mem b hb).1

/-- What no token covers may stand between tokens. -/
theorem trivia (h : Laid text pos ts) (hpos : pos ≤ i) (hi : i < byteLength text)
    (hout : ∀ t ∈ ts, i < t.start ∨ t.stop ≤ i) : isTrivia text i = true := by
  induction h with
  | nil gap => exact gap.trivia i hpos hi
  | cons gap start lt stop rest ih =>
    rcases hout _ (List.mem_cons_self ..) with hlt | hle
    · exact gap.trivia i hpos hlt
    · exact ih hle fun t ht => hout t (List.mem_cons_of_mem _ ht)

end Laid

theorem pos?_toError (fault : LexFault) (pos : Nat) : (fault.toError pos).pos? = some pos := by
  cases fault <;> rfl

/-- The tokens lie where they say, and an error lies in the text. -/
theorem laid_tokensFrom {pos : Nat} {cs : List Char} (h : At text pos cs) :
    match tokensFrom pos cs with
    | .ok ts => Laid text pos ts
    | .error e => ∀ p, e.pos? = some p → p ≤ byteLength text := by
  have hgap := isGap_skipSpace h
  have hat := (skipTrivia_at h).2
  have hle := length_skipSpace_le pos cs
  rw [tokensFrom_eq]
  generalize skipSpace pos cs = place at hgap hat hle ⊢
  obtain ⟨start, rest⟩ := place
  cases rest with
  | nil =>
    have hstop : byteLength text = start := (length_bytes text).symm.trans hat.length
    exact .nil (hstop ▸ hgap)
  | cons c rest =>
    dsimp only at hgap hat ⊢
    cases hl : Lexeme.scan c rest with
    | error fault =>
      intro p hp
      rw [pos?_toError] at hp
      cases hp
      exact hat.isBoundary.le
    | ok lx =>
      obtain ⟨hsplit, hne⟩ := Lexeme.scan_split hl
      have hlt := Lexeme.length_rest_lt hl
      have hstart := hat.isBoundary
      rw [← hsplit] at hat
      have hrest := laid_tokensFrom hat.shift
      have hpos : start < start + byteLength lx.spelling :=
        Nat.lt_add_of_pos_right (Nat.pos_of_ne_zero fun h => hne (byteLength_eq_zero_iff.mp h))
      dsimp only
      cases ht : tokensFrom (start + byteLength lx.spelling) lx.rest with
      | error e =>
        rw [ht] at hrest
        exact hrest
      | ok ts =>
        rw [ht] at hrest
        exact .cons hgap hstart hpos hat.shift.isBoundary hrest
termination_by cs.length
decreasing_by exact Nat.lt_of_lt_of_le hlt hle

theorem byteLength_toList (text : String) : byteLength text.toList = text.utf8ByteSize := by
  have hbytes : text.toByteArray.data.toList = bytes text.toList := by
    rw [← String.utf8Encode_toList, List.utf8Encode]
    simp [bytes]
  rw [← length_bytes, ← hbytes]
  rfl

theorem pos_le_of_parse {text : String} {e : ParseError} {pos : Nat}
    (h : Expr.parse text = .error e) (hp : e.pos? = some pos) : pos ≤ text.utf8ByteSize := by
  have hlaid := laid_tokensFrom (At.zero text.toList)
  rw [← byteLength_toList]
  unfold Expr.parse tokenize at h
  cases ht : tokensFrom 0 text.toList with
  | error e' =>
    rw [ht] at h hlaid
    cases h
    exact hlaid pos hp
  | ok ts =>
    rw [ht] at h hlaid
    have hparse := located_parseTokens text.utf8ByteSize ts
    replace h : parseTokens text.utf8ByteSize ts = .error e := h
    rw [h] at hparse
    rcases hparse pos hp with rfl | ⟨t, ht, rfl⟩
    · exact Nat.le_of_eq (byteLength_toList text).symm
    · exact (hlaid.of_mem t ht).2.2.1.le

/-- **Where the lexer cuts and points.** Walking over the bytes of a text ends as reading its
characters does; nothing is cut out on the way that is no slice of the text. The tokens of a text
start one after the other at characters, between them are blanks and line continuations only, and no
error points beyond the end of the text. -/
theorem offsets_in_text (text : String) :
    (∀ result, Runs text.toList 0 result ↔ result = (tokenize text.toList).mapError .error) ∧
    (∀ start stop, ¬ Runs text.toList 0 (.error (.badSlice start stop))) ∧
    (∀ ts, tokenize text.toList = .ok ts →
      ts.Pairwise (fun a b => a.start < b.start) ∧
      (∀ t ∈ ts, t.start < t.stop ∧ IsBoundary text.toList t.start ∧
        IsBoundary text.toList t.stop) ∧
      ∀ i < text.utf8ByteSize, (∀ t ∈ ts, i < t.start ∨ t.stop ≤ i) →
        isTrivia text.toList i = true) ∧
    ∀ e pos, Expr.parse text = .error e → e.pos? = some pos → pos ≤ text.utf8ByteSize := by
  refine ⟨runs_iff text.toList, fun start stop h => ?_, fun ts hts => ?_,
    fun e pos => pos_le_of_parse⟩
  · have hr := (runs_iff _ _).mp h
    cases ht : tokenize text.toList with
    | error e => rw [ht] at hr; cases hr
    | ok ts => rw [ht] at hr; cases hr
  · have hlaid := laid_tokensFrom (At.zero text.toList)
    rw [show tokensFrom 0 text.toList = .ok ts from hts] at hlaid
    refine ⟨hlaid.pairwise, fun t ht => (hlaid.of_mem t ht).2, fun i hi hout => ?_⟩
    rw [← byteLength_toList] at hi
    exact hlaid.trivia (Nat.zero_le i) hi hout

end Scanner

end Bindery
