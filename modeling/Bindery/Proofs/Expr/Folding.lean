import Bindery.Proofs.Expr.Spacing
import Bindery.Proofs.Text.Continuation

/-!
# Folded continuations

Folding looks for backslashes, and the tokenizer takes a text token by token. The two agree on the
continuations between tokens (`Lays.fold`), and no token but a string can hold one. So a text has
the tokens of its folded form when no string goes over a line end: `tokenize_foldContinuations`.
-/

namespace Bindery

open Text (isBlank isInk trimEnd joinLines Solid)

/-- The token is no string that goes over a line end. -/
def TokenKind.Unbroken (k : TokenKind) : Prop :=
  ∀ raw, k = .literal (.str raw) → ¬ ['\\', '\n'] <:+: raw.toList

/-! ### Words -/

theorem isInk_of_isIdentContinue {c : Char} (h : isIdentContinue c) : isInk c := by
  have hr : c.toNat = 95 ∨ 48 ≤ c.toNat ∧ c.toNat ≤ 57 ∨ 65 ≤ c.toNat ∧ c.toNat ≤ 90 ∨
      97 ≤ c.toNat ∧ c.toNat ≤ 122 := by
    simp only [isIdentContinue, Char.isAlphanum, Char.isAlpha, Char.isUpper, Char.isLower,
      Char.isDigit, Bool.or_eq_true, Bool.and_eq_true, beq_iff_eq, decide_eq_true_eq] at h
    rcases h with rfl | (⟨h₁, h₂⟩ | ⟨h₁, h₂⟩) | ⟨h₁, h₂⟩
    · exact .inl rfl
    · exact .inr (.inr (.inl ⟨h₁, h₂⟩))
    · exact .inr (.inr (.inr ⟨h₁, h₂⟩))
    · exact .inr (.inl ⟨h₁, h₂⟩)
  simp only [isInk, Bool.and_eq_true, Bool.not_eq_true', bne_iff_ne]
  constructor
  · simp only [isBlank, Bool.or_eq_false_iff, Bool.and_eq_false_iff, beq_eq_false_iff_ne,
      decide_eq_false_iff_not]
    omega
  · rintro rfl
    revert hr
    decide

theorem isBlank_of_isSpace {c : Char} (h : isSpace c) : isBlank c := by
  rcases isSpace_cases h with rfl | rfl | rfl | rfl | rfl <;> rfl

/-- A line end in a string follows a backslash. -/
theorem continuation_of_mem_spanString? {cs body rest : List Char}
    (h : spanString? cs = some (body, rest)) (hn : '\n' ∈ body) : ['\\', '\n'] <:+: body := by
  fun_induction spanString? cs generalizing body with
  | case1 => cases h
  | case2 => cases h
  | case3 cs => cases h; simp at hn
  | case4 => cases h
  | case5 c cs ih =>
    obtain ⟨⟨b, r⟩, hb, he⟩ := Option.map_eq_some_iff.mp h
    cases he
    simp only [List.mem_cons] at hn
    rcases hn with hn | rfl | hn
    · cases hn
    · exact (List.prefix_append ['\\', '\n'] b).isInfix
    · exact (ih hb hn).trans (List.suffix_append ['\\', c] b).isInfix
  | case6 c cs hl hq hb₁ hb₂ ih =>
    obtain ⟨⟨b, r⟩, hb, he⟩ := Option.map_eq_some_iff.mp h
    cases he
    rcases List.mem_cons.mp hn with rfl | hn
    · exact (hl rfl).elim
    · exact (ih hb hn).trans (List.suffix_cons c b).isInfix

theorem exists_append_of_spanString? {cs body rest : List Char}
    (h : spanString? cs = some (body, rest)) : ∃ inner, body = inner ++ ['"'] := by
  fun_induction spanString? cs generalizing body with
  | case1 => cases h
  | case2 => cases h
  | case3 cs => cases h; exact ⟨[], rfl⟩
  | case4 => cases h
  | case5 c cs ih =>
    obtain ⟨⟨b, r⟩, hb, he⟩ := Option.map_eq_some_iff.mp h
    cases he
    obtain ⟨inner, rfl⟩ := ih hb
    exact ⟨'\\' :: c :: inner, rfl⟩
  | case6 c cs hl hq hb₁ hb₂ ih =>
    obtain ⟨⟨b, r⟩, hb, he⟩ := Option.map_eq_some_iff.mp h
    cases he
    obtain ⟨inner, rfl⟩ := ih hb
    exact ⟨c :: inner, rfl⟩

theorem not_mem_of_isDigit (radix : Radix) {cs : List Char} (h : ∀ c ∈ cs, radix.isDigit c) :
    '\n' ∉ cs := fun hn => by cases radix <;> cases h _ hn

theorem not_mem_of_scanEscape {cs body rest : List Char} {byte : UInt8}
    (h : scanEscape cs = .ok (byte, body, rest)) : '\n' ∉ body := by
  unfold scanEscape at h
  split at h
  · cases h
  next c cs =>
  split at h
  · next hc =>
    cases h
    intro hm
    obtain rfl := List.mem_singleton.mp hm
    cases hc
  split at h
  · next hc =>
    dsimp only at h
    split at h
    · split at h
      · cases h
        exact not_mem_of_isDigit .octal (List.forall_mem_cons.mpr ⟨hc, all_of_mem_takeWhile⟩)
      · cases h
    · cases h
  split at h
  · next hx =>
    dsimp only at h
    split at h
    · cases h
      intro hm
      rcases List.mem_cons.mp hm with hm | hm
      · cases hm
      · exact not_mem_of_isDigit .hex all_of_mem_takeWhile hm
    · cases h
  · split at h <;> cases h

/-- No line end stands in a character literal. -/
theorem not_mem_of_scanCharBody {cs body rest : List Char} {byte : UInt8}
    (h : scanCharBody cs = .ok (byte, body, rest)) : '\n' ∉ body := by
  unfold scanCharBody at h
  split at h
  · cases h
  · cases h
  · next cs =>
    cases he : scanEscape cs with
    | error fault => rw [he] at h; cases h
    | ok r =>
      obtain ⟨b, s, t⟩ := r
      rw [he] at h
      cases h
      intro hm
      rcases List.mem_cons.mp hm with hm | hm
      · cases hm
      · exact not_mem_of_scanEscape he hm
  · cases h
  · next c cs hl _ _ =>
    split at h
    · cases h
      intro hm
      exact hl (List.mem_singleton.mp hm).symm
    · cases h

theorem Radix.Marks.isIdentContinue {radix : Radix} {mark digits : List Char}
    (h : radix.Marks mark digits) : ∀ c ∈ mark, isIdentContinue c := by
  cases h with
  | decimal => nofun
  | octal => exact List.forall_mem_singleton.mpr rfl
  | hex h => rcases h with rfl | rfl <;> exact List.all_eq_true.mp rfl
  | binary h => rcases h with rfl | rfl <;> exact List.all_eq_true.mp rfl

theorem IsFloat.isInk {cs : List Char} (h : IsFloat cs) : ∀ c ∈ cs, isInk c := by
  have digits : ∀ {ds : List Char}, (∀ d ∈ ds, d.isDigit) → ∀ d ∈ ds, Text.isInk d :=
    fun h d hd => isInk_of_isIdentContinue (isIdentContinue_of_isDigit (h d hd))
  obtain ⟨hd, hf, he, -, -⟩ := h
  simp only [List.forall_mem_append]
  refine ⟨⟨digits hd, ?_⟩, ?_⟩
  · rcases hf with rfl | ⟨ds, rfl, hds⟩
    · nofun
    · exact List.forall_mem_cons.mpr ⟨rfl, digits hds⟩
  · rcases he with rfl | ⟨e, sign, ds, rfl, hx, hs, -, hds⟩
    · nofun
    · refine List.forall_mem_cons.mpr ⟨by rcases hx with rfl | rfl <;> rfl, ?_⟩
      refine List.forall_mem_append.mpr ⟨?_, digits hds⟩
      rcases hs with rfl | rfl | rfl <;> exact List.all_eq_true.mp rfl

theorem IsFloatSuffix.isInk {cs : List Char} {single : Bool} (h : IsFloatSuffix cs single) :
    ∀ c ∈ cs, isInk c := by
  cases h with
  | none => nofun
  | single h | long h => rcases h with rfl | rfl <;> exact List.all_eq_true.mp rfl

/-- A token is written without blanks and backslashes, or stands between quotes. -/
theorem TokenKind.SpelledAs.cases_quoted {k : TokenKind} {w : List Char} (h : k.SpelledAs w) :
    (∀ c ∈ w, isInk c) ∨
      ∃ q inner, w = q :: (inner ++ [q]) ∧ isInk q ∧ (k.Unbroken → '\n' ∉ inner) := by
  have cont : ∀ {cs : List Char}, (∀ c ∈ cs, isIdentContinue c) → ∀ c ∈ cs, isInk c :=
    fun h c hc => isInk_of_isIdentContinue (h c hc)
  cases h with
  | ident h =>
    obtain ⟨c, cs, hn, hc, hcs⟩ := h
    rw [hn]
    exact .inl (cont (List.forall_mem_cons.mpr ⟨isIdentContinue_of_isIdentStart hc, hcs⟩))
  | int hm hne hv hs ht =>
    refine .inl (cont ?_)
    have hl := Suffix.isSuffixLetter_of_mem_spellings (Suffix.ofChars?_eq_some_iff.mp hs)
    simp only [List.forall_mem_append]
    exact ⟨⟨hm.isIdentContinue,
      fun c hc => Radix.isIdentContinue_of_isDigit (Radix.isDigit_of_readFrom hv c hc)⟩,
      fun c hc => isIdentContinue_of_isSuffixLetter (hl c hc)⟩
  | float h hs => exact .inl (List.forall_mem_append.mpr ⟨h.isInk, hs.isInk⟩)
  | @char byte body h => exact .inr ⟨'\'', body, rfl, rfl, fun _ => not_mem_of_scanCharBody h⟩
  | @str raw h =>
    obtain ⟨body, hb, hs⟩ := h
    obtain ⟨inner, rfl⟩ := exists_append_of_spanString? (hs [])
    refine .inr ⟨'"', inner, hb, rfl, fun hk hn => hk raw rfl ?_⟩
    rw [hb]
    exact (continuation_of_mem_spanString? (hs []) (List.mem_append_left _ hn)).trans
      (List.suffix_cons _ _).isInfix
  | punct p => left; cases p <;> exact List.all_eq_true.mp rfl

namespace TokenKind.SpelledAs

variable {k : TokenKind} {w : List Char}

theorem solid (h : k.SpelledAs w) (hk : k.Unbroken) : Solid w := by
  rcases h.cases_quoted with h | ⟨q, inner, rfl, hq, hn⟩
  · exact .of_forall h
  · rw [← List.cons_append]
    refine .append_singleton (fun hm => ?_) hq
    rcases List.mem_cons.mp hm with rfl | hm
    · cases hq
    · exact hn hk hm

theorem exists_cons (h : k.SpelledAs w) : ∃ c cs, w = c :: cs ∧ isBlank c = false := by
  obtain ⟨c, cs, he, -⟩ := scansAs_of_spelledAs h .nil
  rw [List.append_nil] at he
  subst he
  rcases h.cases_quoted with h | ⟨q, inner, he, hq, -⟩
  · exact ⟨c, cs, rfl, Text.isBlank_of_isInk (h c (by simp))⟩
  · obtain rfl := (List.cons.inj he).1
    exact ⟨c, cs, rfl, Text.isBlank_of_isInk hq⟩

end TokenKind.SpelledAs

/-! ### Tokens and gaps -/

/-- The text is made up of the tokens, each ending where it is spelled out, and of gaps. -/
inductive Lays : List TokenKind → List Char → Prop where
  | nil : Lays [] []
  | space {c ks cs} (hc : isSpace c) (h : Lays ks cs) : Lays ks (c :: cs)
  | lf {ks cs} (h : Lays ks cs) : Lays ks ('\\' :: '\n' :: cs)
  | crlf {ks cs} (h : Lays ks cs) : Lays ks ('\\' :: '\r' :: '\n' :: cs)
  | token {k w ks cs} (hs : TokenKind.SpelledAs k w) (he : k.EndsBefore w cs) (h : Lays ks cs) :
    Lays (k :: ks) (w ++ cs)

namespace Lays

variable {ks : List TokenKind} {cs : List Char}

theorem lexes (h : Lays ks cs) : Lexes cs ks := by
  induction h with
  | nil => exact .nil
  | space hc _ ih => exact ih.gap (.space hc .nil)
  | lf _ ih => exact ih.gap (.lf .nil)
  | crlf _ ih => exact ih.gap (.crlf .nil)
  | token hs he _ ih => exact ih.token (scansAs_of_spelledAs hs he)

theorem gap {g : List Char} (h : Lays ks cs) (hg : Gap g) : Lays ks (g ++ cs) := by
  induction hg with
  | nil => exact h
  | space hc _ ih => exact .space hc ih
  | lf _ ih => exact .lf ih
  | crlf _ ih => exact .crlf ih

theorem of_tokensFrom {pos : Nat} {cs : List Char} {ts : List Token}
    (h : tokensFrom pos cs = .ok ts) : Lays (ts.map Token.kind) cs := by
  obtain ⟨g, hg, he, -⟩ := exists_gap pos cs
  rw [tokensFrom_eq] at h
  split at h
  · next hs =>
    cases h
    rw [he, hs]
    exact gap .nil hg
  next start c rest hs =>
  rw [hs] at he
  split at h
  · cases h
  next lx hl =>
  have hlt : lx.rest.length < cs.length := by
    rw [he, List.length_append]
    exact (Lexeme.length_rest_lt hl).trans_le (Nat.le_add_left _ _)
  cases ht : tokensFrom (start + Text.byteLength lx.spelling) lx.rest with
  | error e => rw [ht] at h; cases h
  | ok ts' =>
    rw [ht] at h
    cases h
    have hscan : ScansAs lx.kind lx.spelling lx.rest :=
      ⟨c, rest, (Lexeme.scan_split hl).1, hl⟩
    obtain ⟨hsp, hend⟩ := spelledAs_of_scansAs hscan
    rw [he, ← (Lexeme.scan_split hl).1]
    exact (Lays.token hsp hend (of_tokensFrom ht)).gap hg
termination_by cs.length

theorem trimStart (h : Lays ks cs) : Lays ks (Text.trimStart cs) := by
  induction h with
  | nil => exact .nil
  | space hc _ ih =>
    rwa [Text.trimStart_cons_of_blank (isBlank_of_isSpace hc)]
  | lf h => exact .lf h
  | crlf h => exact .crlf h
  | token hs he h =>
    have ht := Lays.token hs he h
    obtain ⟨c, w, rfl, hc⟩ := hs.exists_cons
    rwa [List.cons_append, Text.trimStart_cons_of_not_blank hc]

theorem trimEnd_cons {c : Char} (hc : isSpace c) (h : Lays ks (trimEnd cs)) :
    Lays ks (trimEnd (c :: cs)) := by
  rw [Text.trimEnd_cons]
  split
  · next hn => rwa [hn.1] at h
  · exact .space hc h

/-- Folding keeps the tokens. The second half is what folding does behind a line end, where it drops
the blanks first. -/
theorem fold (h : Lays ks cs) (hk : ∀ k ∈ ks, k.Unbroken) :
    Lays ks (trimEnd (joinLines cs)) ∧ Lays ks (trimEnd (joinLines (Text.trimStart cs))) := by
  induction h with
  | nil =>
    rw [show Text.trimStart [] = [] from rfl, Text.joinLines_nil]
    exact ⟨.nil, .nil⟩
  | @space c ks cs hc _ ih =>
    have hb := isBlank_of_isSpace hc
    rw [Text.trimStart_cons_of_blank hb]
    refine ⟨?_, (ih hk).2⟩
    -- A blank goes with the continuation that follows it, and stays otherwise.
    by_cases h : Text.Continues cs
    · rw [Text.joinLines_cons_of_continues hb h]
      exact (ih hk).1
    · rw [Text.joinLines_cons (Text.ne_backslash_of_isBlank hb) fun _ => h]
      exact trimEnd_cons hc (ih hk).1
  | lf _ ih =>
    rw [Text.trimStart_cons_of_not_blank rfl, Text.joinLines_continuation rfl]
    exact ⟨trimEnd_cons rfl (ih hk).2, trimEnd_cons rfl (ih hk).2⟩
  | crlf _ ih =>
    rw [Text.trimStart_cons_of_not_blank rfl, Text.joinLines_continuation rfl]
    exact ⟨trimEnd_cons rfl (ih hk).2, trimEnd_cons rfl (ih hk).2⟩
  | @token k w ks cs hs he _ ih =>
    obtain ⟨hk, hks⟩ := List.forall_mem_cons.mp hk
    have hsolid := hs.solid hk
    have hend : k.EndsBefore w (trimEnd (joinLines cs)) := by
      intro c hc
      rcases Text.head?_joinLines cs c (Text.head?_trimEnd _ c hc) with hc | rfl
      · exact he c hc
      · exact k.joins_eq_false w (.inl rfl)
    have ht : Lays (k :: ks) (trimEnd (joinLines (w ++ cs))) := by
      rw [hsolid.joinLines_append, hsolid.trimEnd_append]
      exact .token hs hend (ih hks).1
    refine ⟨ht, ?_⟩
    obtain ⟨c, w, rfl, hc⟩ := hs.exists_cons
    rwa [List.cons_append, Text.trimStart_cons_of_not_blank hc]

end Lays

/-- A text and its folded form have the same tokens, and the same tree if any, when no string goes
over a line end. -/
theorem tokenize_foldContinuations {cs : List Char} {ts : List Token} (h : tokenize cs = .ok ts)
    (hs : ∀ t ∈ ts, t.kind.Unbroken) :
    (∃ ts', tokenize (Text.foldContinuations cs) = .ok ts' ∧
      ts'.map Token.kind = ts.map Token.kind) ∧
    ∀ e, Expr.parse (String.ofList (Text.foldContinuations cs)) = .ok e ↔
      Expr.parse (String.ofList cs) = .ok e := by
  have hk : ∀ k ∈ ts.map Token.kind, k.Unbroken := by simpa using hs
  have hlays := ((Lays.of_tokensFrom h).fold hk).1.trimStart
  rw [Text.trimStart_trimEnd] at hlays
  obtain ⟨ts', ht', hk'⟩ := hlays.lexes 0
  refine ⟨⟨ts', ht', hk'⟩, fun e => ?_⟩
  exact parse_congr (by rw [String.toList_ofList]; exact ht') (by rwa [String.toList_ofList]) hk' e

/-- The backslashes between quotes are none of folding's business. -/
theorem tokenize_foldContinuations_char :
    Text.foldContinuations "a \\\n + '\\\\'\\\r\n".toList = "a + '\\\\'".toList ∧
      Expr.parse "a + '\\\\'" = Expr.parse "a \\\n + '\\\\'\\\r\n" := by
  have hf : Text.foldContinuations "a \\\n + '\\\\'\\\r\n".toList = "a + '\\\\'".toList := by
    cbv
  have ht : tokenize "a \\\n + '\\\\'\\\r\n".toList = .ok [⟨.ident "a", 0, 1⟩,
      ⟨.punct .plus, 5, 6⟩, ⟨.literal (.char 0x5c), 7, 11⟩] := by cbv
  have hp : Expr.parse "a \\\n + '\\\\'\\\r\n" =
      .ok (.binary .add (.ident "a") (.literal (.char 0x5c))) := by cbv
  have h := (tokenize_foldContinuations ht (by simp [TokenKind.Unbroken])).2
    (.binary .add (.ident "a") (.literal (.char 0x5c)))
  rw [hf, String.ofList_toList, String.ofList_toList] at h
  exact ⟨hf, (h.mpr hp).trans hp.symm⟩

end Bindery
