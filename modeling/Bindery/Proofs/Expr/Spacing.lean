import Bindery.Proofs.Expr.TokenEnds
import Bindery.Proofs.Text.Slice

/-!
# Blank space between tokens

A gap is a run of blanks and line continuations. The tokenizer skips it whole, and no token goes on
into one, so words that are tokens by themselves stay the same tokens however they are spaced:
`tokenize_joined`.
-/

namespace Bindery

open Text (byteLength)

/-- A run of blanks and line continuations. -/
inductive Gap : List Char → Prop where
  | nil : Gap []
  | space {c g} (hc : isSpace c) (h : Gap g) : Gap (c :: g)
  | lf {g} (h : Gap g) : Gap ('\\' :: '\n' :: g)
  | crlf {g} (h : Gap g) : Gap ('\\' :: '\r' :: '\n' :: g)

theorem isSpace_cases {c : Char} (h : isSpace c) :
    c = ' ' ∨ c = '\t' ∨ c = '\n' ∨ c = '\x0c' ∨ c = '\r' := by
  simpa [isSpace, or_assoc] using h

theorem utf8Size_of_isSpace {c : Char} (h : isSpace c) : c.utf8Size = 1 := by
  rcases isSpace_cases h with rfl | rfl | rfl | rfl | rfl <;> rfl

theorem byteLength_lf (g : List Char) : byteLength ('\\' :: '\n' :: g) = 2 + byteLength g := by
  rw [Text.byteLength_cons, Text.byteLength_cons, ← Nat.add_assoc]
  rfl

theorem byteLength_crlf (g : List Char) :
    byteLength ('\\' :: '\r' :: '\n' :: g) = 3 + byteLength g := by
  rw [Text.byteLength_cons, Text.byteLength_cons, Text.byteLength_cons, ← Nat.add_assoc,
    ← Nat.add_assoc]
  rfl

/-! ### Gaps are skipped -/

section Gaps

variable {g cs rest : List Char} {pos : Nat}

theorem skipSpace_append (h : Gap g) (pos : Nat) (cs : List Char) :
    skipSpace pos (g ++ cs) = skipSpace (pos + byteLength g) cs := by
  induction h generalizing pos with
  | nil => rfl
  | @space c g hc _ ih =>
    have hb : c ≠ '\\' := by rintro rfl; cases hc
    rw [List.cons_append, skipSpace, if_pos hc, ih, Text.byteLength_cons, utf8Size_of_isSpace hc,
      Nat.add_assoc]
    · exact fun _ he => absurd he hb
    · exact fun _ he => absurd he hb
  | lf _ ih => exact (ih (pos + 2)).trans (by rw [byteLength_lf, Nat.add_assoc])
  | crlf _ ih => exact (ih (pos + 3)).trans (by rw [byteLength_crlf, Nat.add_assoc])

theorem tokensFrom_gap (h : Gap g) (pos : Nat) (cs : List Char) :
    tokensFrom pos (g ++ cs) = tokensFrom (pos + byteLength g) cs := by
  rw [tokensFrom_eq, skipSpace_append h, ← tokensFrom_eq]

theorem exists_gap (pos : Nat) (cs : List Char) : ∃ g, Gap g ∧ cs = g ++ (skipSpace pos cs).2 ∧
    (skipSpace pos cs).1 = pos + byteLength g := by
  fun_induction skipSpace pos cs with
  | case1 => exact ⟨[], .nil, rfl, rfl⟩
  | case2 pos cs ih =>
    obtain ⟨g, hg, he, hp⟩ := ih
    exact ⟨_, hg.lf, by rw [List.cons_append, List.cons_append, ← he],
      by rw [hp, byteLength_lf, Nat.add_assoc]⟩
  | case3 pos cs ih =>
    obtain ⟨g, hg, he, hp⟩ := ih
    exact ⟨_, hg.crlf, by rw [List.cons_append, List.cons_append, List.cons_append, ← he],
      by rw [hp, byteLength_crlf, Nat.add_assoc]⟩
  | case4 pos c cs _ _ hc ih =>
    obtain ⟨g, hg, he, hp⟩ := ih
    exact ⟨_, hg.space hc, by rw [List.cons_append, ← he],
      by rw [hp, Text.byteLength_cons, utf8Size_of_isSpace hc, Nat.add_assoc]⟩
  | case5 pos c cs => exact ⟨[], .nil, rfl, rfl⟩

end Gaps

/-! ### No token goes on into a gap -/

section Following

variable {g : List Char}

theorem TokenKind.joins_eq_false {c : Char} (k : TokenKind) (w : List Char)
    (h : isSpace c ∨ c = '\\') : k.joins w c = false := by
  have hc : isIdentContinue c = false ∧ c ≠ '.' ∧ ∀ p : Punct, p.joins c = false := by
    rcases h with h | rfl
    · rcases isSpace_cases h with rfl | rfl | rfl | rfl | rfl <;>
        exact ⟨rfl, by decide, fun p => by cases p <;> rfl⟩
    · exact ⟨rfl, by decide, fun p => by cases p <;> rfl⟩
  obtain ⟨hi, hp, hj⟩ := hc
  match k with
  | .ident _ => exact hi
  | .literal (.int _) => simp [joins, hi, hp]
  | .literal (.float _ _) => exact hi
  | .literal (.char _) => rfl
  | .literal (.str _) => rfl
  | .punct p => exact hj p

theorem Gap.head? (h : Gap g) : ∀ c ∈ g.head?, isSpace c ∨ c = '\\' := by
  cases h with
  | nil => nofun
  | space hc => rintro c ⟨⟩; exact .inl hc
  | lf => rintro c ⟨⟩; exact .inr rfl
  | crlf => rintro c ⟨⟩; exact .inr rfl

theorem Gap.endsBefore (h : Gap g) (cs : List Char) (hn : g ≠ [] ∨ cs = []) (k : TokenKind)
    (w : List Char) : k.EndsBefore w (g ++ cs) := by
  intro c hc
  rcases g with _ | ⟨d, g⟩
  · rw [hn.resolve_left (by simp)] at hc
    cases hc
  · exact k.joins_eq_false w (h.head? c hc)

end Following

/-- The text is tokenized to tokens of these kinds, wherever it starts. -/
def Lexes (cs : List Char) (ks : List TokenKind) : Prop :=
  ∀ pos, ∃ ts, tokensFrom pos cs = .ok ts ∧ ts.map Token.kind = ks

namespace Lexes

variable {cs rest : List Char} {ks : List TokenKind}

theorem nil : Lexes [] [] := fun pos => ⟨[], tokensFrom_nil pos, rfl⟩

theorem gap {g : List Char} (h : Lexes cs ks) (hg : Gap g) : Lexes (g ++ cs) ks := by
  intro pos
  rw [tokensFrom_gap hg]
  exact h _

theorem space (h : Lexes cs ks) : Lexes (' ' :: cs) ks := h.gap (.space rfl .nil)

theorem token {k : TokenKind} {w : List Char} (hw : ScansAs k w rest) (h : Lexes rest ks) :
    Lexes (w ++ rest) (k :: ks) := by
  intro pos
  obtain ⟨ts, ht, hk⟩ := h (pos + byteLength w)
  exact ⟨⟨k, pos, pos + byteLength w⟩ :: ts, by rw [tokensFrom_append hw, ht]; rfl, by simp [hk]⟩

end Lexes

/-! ### Words and gaps -/

/-- The text is the words with gaps after them, and only the last gap may be empty. -/
inductive Spaced : List (List Char) → List Char → Prop where
  | nil : Spaced [] []
  | last {w g} (hg : Gap g) : Spaced [w] (w ++ g)
  | cons {w g ws cs} (hg : Gap g) (hne : g ≠ []) (h : Spaced ws cs) :
    Spaced (w :: ws) (w ++ (g ++ cs))

/-- The text is the words with gaps between them. It may begin and end with a gap too. -/
def Joined (ws : List (List Char)) (cs : List Char) : Prop :=
  ∃ g body, Gap g ∧ cs = g ++ body ∧ Spaced ws body

section Words

variable {k : TokenKind} {ks : List TokenKind} {w cs body : List Char} {ws : List (List Char)}

/-- A word that is tokenized to one token that covers it spells that token. -/
theorem spelledAs_of_tokenize (h : tokenize w = .ok [⟨k, 0, byteLength w⟩]) : k.SpelledAs w := by
  obtain ⟨g, -, he, hp⟩ := exists_gap 0 w
  rw [tokenize, tokensFrom_eq] at h
  rcases hs : skipSpace 0 w with ⟨start, _ | ⟨c, rest⟩⟩
  · rw [hs] at h; cases h
  rw [hs] at h he hp
  simp only at h he hp
  rcases hl : Lexeme.scan c rest with fault | lx
  · rw [hl] at h; cases h
  rw [hl] at h
  rcases ht : tokensFrom (start + byteLength lx.spelling) lx.rest with e | ts
  · simp only [ht] at h; cases h
  simp only [ht, Except.map, Except.ok.injEq, List.cons.injEq, Token.mk.injEq] at h
  obtain ⟨⟨rfl, rfl, hstop⟩, -⟩ := h
  -- The token covers the word, so nothing stands before it or is left behind it.
  obtain rfl : g = [] := Text.byteLength_eq_zero_iff.mp (by omega)
  obtain rfl : w = c :: rest := he
  have hsplit := (Lexeme.scan_split hl).1
  have hr : lx.rest = [] := Text.byteLength_eq_zero_iff.mp (by
    have := congrArg byteLength hsplit
    rw [Text.byteLength_append] at this
    omega)
  rw [hr, List.append_nil] at hsplit
  have hscan : ScansAs lx.kind (c :: rest) [] :=
    ⟨c, rest, List.append_nil _, by rw [hl, ← hsplit, ← hr]⟩
  exact (spelledAs_of_scansAs hscan).1

/-- Words that spell tokens are tokenized to these, each at the place of its word. -/
theorem tokensFrom_spaced (hw : List.Forall₂ TokenKind.SpelledAs ks ws) (h : Spaced ws body)
    {pos : Nat} (hat : Text.At cs pos body) :
    ∃ ts, tokensFrom pos body = .ok ts ∧ ts.map Token.kind = ks ∧
      ts.map (fun t => Text.slice? cs t.start t.stop) = ws.map some := by
  induction h generalizing pos ks with
  | nil =>
    cases hw
    exact ⟨[], tokensFrom_nil pos, rfl, rfl⟩
  | @last w g hg =>
    obtain ⟨k, -, hk, ⟨⟩, rfl⟩ := List.forall₂_cons_right_iff.mp hw
    have hs := scansAs_of_spelledAs hk (hg.endsBefore [] (.inr rfl) k w)
    rw [List.append_nil] at hs
    refine ⟨[⟨k, pos, pos + byteLength w⟩], ?_, rfl, ?_⟩
    · have hgap := tokensFrom_gap hg (pos + byteLength w) []
      rw [List.append_nil, tokensFrom_nil] at hgap
      rw [tokensFrom_append hs, hgap]
      rfl
    · rw [List.map_singleton, hat.slice?]
      rfl
  | @cons w g ws body hg hne _ ih =>
    obtain ⟨k, ks, hk, hws, rfl⟩ := List.forall₂_cons_right_iff.mp hw
    have hs := scansAs_of_spelledAs hk (hg.endsBefore body (.inl hne) k w)
    obtain ⟨ts, ht, hkinds, hslices⟩ := ih hws hat.shift.shift
    refine ⟨⟨k, pos, pos + byteLength w⟩ :: ts, ?_, ?_, ?_⟩
    · rw [tokensFrom_append hs, tokensFrom_gap hg, ht]
      rfl
    · rw [List.map_cons, hkinds]
    · rw [List.map_cons, List.map_cons, hat.slice?, hslices]

theorem tokenize_spelled (hw : List.Forall₂ TokenKind.SpelledAs ks ws) (h : Joined ws cs) :
    ∃ ts, tokenize cs = .ok ts ∧ ts.map Token.kind = ks ∧
      ts.map (fun t => Text.slice? cs t.start t.stop) = ws.map some := by
  obtain ⟨g, body, hg, rfl, hbody⟩ := h
  rw [tokenize, tokensFrom_gap hg]
  exact tokensFrom_spaced hw hbody (Text.At.zero _).shift

/-- Only the kinds of the tokens count for the tree. -/
theorem parse_congr {text text' : String} {ts ts' : List Token}
    (h : tokenize text.toList = .ok ts) (h' : tokenize text'.toList = .ok ts')
    (hk : ts.map Token.kind = ts'.map Token.kind) (e : Expr) :
    Expr.parse text = .ok e ↔ Expr.parse text' = .ok e := by
  rcases ts with _ | ⟨t, ts⟩
  · obtain rfl := List.map_eq_nil_iff.mp hk.symm
    rw [parse_eq_parseTokens h, parse_eq_parseTokens h']
    constructor <;> nofun
  · have hne : ts' ≠ [] := by
      rintro rfl
      cases hk
    rw [parse_eq_ok_iff_derives h (by simp), parse_eq_ok_iff_derives h' hne, hk]

/-- Words that are tokens by themselves stay the same tokens in every text that joins them with
gaps, and all these texts have the same tree, if any. -/
theorem tokenize_joined
    (hw : List.Forall₂ (fun k w => tokenize w = .ok [⟨k, 0, byteLength w⟩]) ks ws)
    (h : Joined ws cs) :
    (∃ ts, tokenize cs = .ok ts ∧ ts.map Token.kind = ks ∧
      ts.map (fun t => Text.slice? cs t.start t.stop) = ws.map some) ∧
    ∀ cs', Joined ws cs' → ∀ e,
      Expr.parse (String.ofList cs) = .ok e ↔ Expr.parse (String.ofList cs') = .ok e := by
  have hs : List.Forall₂ TokenKind.SpelledAs ks ws := hw.imp fun _ _ => spelledAs_of_tokenize
  obtain ⟨ts, ht, hk, hslices⟩ := tokenize_spelled hs h
  refine ⟨⟨ts, ht, hk, hslices⟩, fun cs' h' e => ?_⟩
  obtain ⟨ts', ht', hk', -⟩ := tokenize_spelled hs h'
  exact parse_congr (by rwa [String.toList_ofList]) (by rwa [String.toList_ofList])
    (hk.trans hk'.symm) e

/-- A sum over two lines has the tree that it has on one. -/
theorem tokenize_joined_sum : Expr.parse "1L \\\r\n+\tx" =
    .ok (.binary .add (.literal (.int ⟨1, .decimal, "1", .i64⟩)) (.ident "x")) := by
  have gap : Gap [' '] := .space rfl .nil
  have hw : List.Forall₂ (fun k w => tokenize w = .ok [⟨k, 0, byteLength w⟩])
      [.literal (.int ⟨1, .decimal, "1", .i64⟩), .punct .plus, .ident "x"]
      [['1', 'L'], ['+'], ['x']] :=
    .cons (by cbv) (.cons (by cbv) (.cons (by cbv) .nil))
  have lines : Joined [['1', 'L'], ['+'], ['x']]
      ['1', 'L', ' ', '\\', '\r', '\n', '+', '\t', 'x'] :=
    ⟨[], _, .nil, rfl, .cons (g := [' ', '\\', '\r', '\n']) (.space rfl (.crlf .nil)) (by simp)
      (.cons (g := ['\t']) (.space rfl .nil) (by simp) (.last .nil))⟩
  have line : Joined [['1', 'L'], ['+'], ['x']] [' ', '1', 'L', ' ', '+', ' ', 'x', ' '] :=
    ⟨[' '], _, gap, rfl, .cons gap (by simp) (.cons gap (by simp) (.last gap))⟩
  have hp : Expr.parse " 1L + x " =
      .ok (.binary .add (.literal (.int ⟨1, .decimal, "1", .i64⟩)) (.ident "x")) := by cbv
  exact ((tokenize_joined hw lines).2 _ line _).mpr hp

end Words

end Bindery
