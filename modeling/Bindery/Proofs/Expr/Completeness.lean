import Bindery.Proofs.Expr.Soundness

/-!
# The parser reads what is derived

A resolved derivation fixes what the parser does: `read?_of_derives` gives the tree of the
derivation wherever the tokens after it cannot go on with the phrase. A level of binary operators is
entered with its left operand already read, so what is proved of it is that the parser is left with
the operators that follow, at that level and at every looser one.
-/

namespace Bindery

variable {stop : Nat}

theorem Looser.mono {m n : Nat} {ks : List TokenKind} (h : Looser m ks) (hmn : m ≤ n) :
    Looser n ks :=
  fun k hk op hop => Nat.lt_of_lt_of_le (h k hk op hop) hmn

theorem readOperators?_of_looser {n : Nat} {l : Expr} {ts : List Token}
    (h : Looser n (ts.map Token.kind)) : readOperators? stop n l ts = some (l, ts) := by
  cases ts with
  | nil => exact readOperators?_nil n l
  | cons t ts =>
    rw [readOperators?_cons]
    split
    · rfl
    · next op hop => rw [if_pos (h t.kind (by simp) op hop)]

/-- The tokens do not begin with `p`. -/
def NotBefore (p : Punct) (ks : List TokenKind) : Prop := ks.head? ≠ some (.punct p)

theorem after?_eq_none {p : Punct} {ts : List Token} (h : NotBefore p (ts.map Token.kind)) :
    after? p ts = none := by
  rw [Option.eq_none_iff_forall_ne_some]
  intro rest hr
  exact h (by rw [kinds_of_after? hr]; rfl)

theorem notBefore_nil (p : Punct) : NotBefore p [] := by simp [NotBefore]

theorem notBefore_cons {p : Punct} {k : TokenKind} {ks : List TokenKind} (h : k ≠ .punct p) :
    NotBefore p (k :: ks) := by simpa [NotBefore] using h

theorem looser_cons {n : Nat} {k : TokenKind} {ks : List TokenKind} (h : k.binaryOp? = none) :
    Looser n (k :: ks) := by simp [Looser, h]

/-- The tokens after an expression that is complete: its end, or a closing token. -/
structure Closes (ks : List TokenKind) : Prop where
  paren : NotBefore .lParen ks
  looser : Looser 1 ks
  question : NotBefore .question ks

theorem closes_nil : Closes [] := ⟨notBefore_nil _, by simp [Looser], notBefore_nil _⟩

theorem closes_cons {p : Punct} {ks : List TokenKind}
    (h : p = .colon ∨ p = .comma ∨ p = .rParen) : Closes (.punct p :: ks) := by
  rcases h with rfl | rfl | rfl <;>
    exact ⟨notBefore_cons (by decide), looser_cons rfl, notBefore_cons (by decide)⟩

/-- The parser reads a phrase of the category: `e`, and then `rest` is left. -/
def ReadsAs (stop : Nat) : Category → List Token → Expr → List Token → Prop
  | .expr, ts, e, rest => Closes (rest.map Token.kind) → read? stop .expr ts = some (e, rest)
  | .binary n, ts, e, rest =>
    NotBefore .lParen (rest.map Token.kind) → Looser (n + 1) (rest.map Token.kind) →
      ∀ m ≤ n, read? stop (.binary m) ts = readOperators? stop m e rest
  | .args f, ts, e, rest => read? stop (.args f) ts = some (e, rest)
  | c, ts, e, rest => NotBefore .lParen (rest.map Token.kind) → read? stop c ts = some (e, rest)

/-- An expression is read before a token that closes it. -/
theorem ReadsAs.before {ts r : List Token} {e : Expr} {p : Punct} {ks : List TokenKind}
    (h : ReadsAs stop .expr ts e r) (hr : r.map Token.kind = .punct p :: ks)
    (hp : p = .colon ∨ p = .comma ∨ p = .rParen) : read? stop .expr ts = some (e, r) :=
  h (by rw [hr]; exact closes_cons hp)

/-- A name before a closing token is read as a reference. -/
theorem read?_expr_of_ident {t : Token} {rest : List Token} {name : String}
    (ht : t.kind = .ident name) (hn : name ≠ "sizeof") (hcl : Closes (rest.map Token.kind)) :
    read? stop .expr (t :: rest) = some (.ident name, rest) := by
  have hu : read? stop .unary (t :: rest) = some (.ident name, rest) := by
    rw [read?_unary, ht, if_neg (by simpa using hn)]
    exact read?_name ht (after?_eq_none hcl.paren)
  have hb : read? stop (.binary 1) (t :: rest) = some (.ident name, rest) := by
    rw [read?_binary, read?_cast, castTarget?_eq_none (by rw [ht]; exact nofun)]
    simp only
    rw [hu]
    exact readOperators?_of_looser hcl.looser
  exact read?_single hb (after?_eq_none hcl.question)

/-- A name in parentheses is read as a reference where a cast is not looked for. -/
theorem read?_unary_of_castTarget? {ts rest : List Token} {name : String}
    (h : castTarget? ts = some (name, rest)) :
    read? stop .unary ts = some (.ident name, rest) := by
  obtain ⟨hn, t₁, t₂, t₃, rfl, h₁, h₂, h₃⟩ := castTarget?_eq_some_iff.mp h
  have he : read? stop .expr (t₂ :: t₃ :: rest) = some (.ident name, t₃ :: rest) :=
    read?_expr_of_ident h₂ hn (by rw [List.map_cons, h₃]; exact closes_cons (.inr (.inr rfl)))
  have ha : read? stop .atom (t₁ :: t₂ :: t₃ :: rest) = some (.ident name, rest) :=
    read?_paren (after?_eq_some_iff.mpr ⟨t₁, rfl, h₁⟩) he (after?_eq_some_iff.mpr ⟨t₃, rfl, h₃⟩)
  rw [read?_unary, h₁, if_neg (by simp)]
  exact ha

theorem read?_cast_of_unary {ts rest : List Token} {e : Expr}
    (hc : ¬ CastAhead (ts.map Token.kind)) (h : read? stop .unary ts = some (e, rest)) :
    read? stop .cast ts = some (e, rest) := by
  rw [read?_cast]
  split
  · exact h
  · next name r₁ ht =>
    have hn := (castTarget?_eq_some_iff.mp ht).1
    have hf : read? stop .cast r₁ = none := by
      cases r₁ with
      | nil => exact read?_cast_eq_none (by simp)
      | cons t r =>
        refine read?_cast_eq_none fun u hu => Bool.eq_false_iff.mpr fun hs => hc ?_
        obtain rfl : t = u := by simpa using hu
        exact ⟨name, t.kind, r.map Token.kind, kinds_of_castTarget? ht, hn, hs⟩
    rw [hf, ← h, read?_unary_of_castTarget? ht]

/-- No prefix operator and no `sizeof` stands in front of an atom. -/
theorem read?_unary_of_atom {resolved : Bool} {ts : List Token} {e : Expr} {krest : List TokenKind}
    (h : Derives resolved .atom (ts.map Token.kind) e krest) :
    read? stop .unary ts = read? stop .atom ts := by
  obtain ⟨k, ks, hk, hs, hu⟩ : ∃ k ks, ts.map Token.kind = k :: ks ∧ k ≠ .ident "sizeof" ∧
      k.unaryOp? = none := by
    generalize ts.map Token.kind = kts at h
    cases h with
    | literal | paren => exact ⟨_, _, rfl, by simp, rfl⟩
    | name hn | emptyCall hn | call hn => exact ⟨_, _, rfl, by simpa using hn, rfl⟩
  obtain ⟨t, r, rfl, rfl, -⟩ := List.map_eq_cons_iff.mp hk
  rw [read?_unary, if_neg hs, hu]

/-- Arguments do not begin with the parenthesis that closes them. -/
theorem after?_rParen_of_readArgs? {ts rest : List Token} {es : List Expr}
    (h : readArgs? stop ts = some (es, rest)) : after? .rParen ts = none := by
  rw [Option.eq_none_iff_forall_ne_some]
  intro r hr
  obtain ⟨t, rfl, ht⟩ := after?_eq_some_iff.mp hr
  have hc : read? stop .cast (t :: r) = none := read?_cast_eq_none (by simp [ht]; rfl)
  rw [readArgs?_eq, read?_expr, read?_binary, hc] at h
  cases h

section Kinds

variable {ts : List Token} {ks : List TokenKind} {name : String}

theorem read?_emptyCall_of_kinds
    (h : ts.map Token.kind = .ident name :: .punct .lParen :: .punct .rParen :: ks) :
    ∃ rest, rest.map Token.kind = ks ∧ read? stop .atom ts = some (.call name [], rest) := by
  obtain ⟨t, r, rfl, ht, hr⟩ := List.map_eq_cons_iff.mp h
  obtain ⟨r₂, hl, hr₂⟩ := after?_of_kinds hr
  obtain ⟨rest, hrp, hk⟩ := after?_of_kinds hr₂
  exact ⟨rest, hk, read?_emptyCall ht hl hrp⟩

/-- What is read for the arguments is read for the call. -/
theorem read?_call_of_kinds (h : ts.map Token.kind = .ident name :: .punct .lParen :: ks) :
    ∃ r, r.map Token.kind = ks ∧ ∀ {e rest}, read? stop (.args name) r = some (e, rest) →
      read? stop .atom ts = some (e, rest) := by
  obtain ⟨t, r₁, rfl, ht, hr₁⟩ := List.map_eq_cons_iff.mp h
  obtain ⟨r, hl, hk⟩ := after?_of_kinds hr₁
  refine ⟨r, hk, fun hargs => ?_⟩
  obtain ⟨es, -, hes⟩ := exists_call_of_read?_args hargs
  rw [read?_atom_ident ht, hl]
  simp only
  rw [after?_rParen_of_readArgs? hes]
  exact hargs

theorem read?_sizeofType_of_kinds {words : List String} {e : Expr} (hw : SpellsBaseType words e)
    (h : ts.map Token.kind = .ident "sizeof" :: .punct .lParen ::
      (words.map .ident ++ .punct .rParen :: ks)) :
    ∃ rest, rest.map Token.kind = ks ∧ read? stop .unary ts = some (e, rest) := by
  obtain ⟨t, r, rfl, ht, hr⟩ := List.map_eq_cons_iff.mp h
  obtain ⟨rest, hb, hk⟩ := baseOperand?_of_kinds (spellsBaseType_iff.mp hw) hr
  exact ⟨rest, hk, read?_sizeofType ht hb⟩

theorem read?_prefixed_of_kinds {p : Punct} {op : UnaryOp} (hop : (p, op) ∈ unaryOperators)
    (h : ts.map Token.kind = .punct p :: ks) :
    ∃ r, r.map Token.kind = ks ∧ ∀ {e rest}, read? stop .cast r = some (e, rest) →
      read? stop .unary ts = some (.unary op e, rest) := by
  obtain ⟨t, r, rfl, ht, hk⟩ := List.map_eq_cons_iff.mp h
  have hop := mem_unaryOperators_iff.mp hop
  exact ⟨r, hk, fun he => read?_prefixed (by rw [ht]; exact hop) he⟩

end Kinds

/-- What a resolved derivation says is what the parser reads. -/
theorem read?_of_derives {c : Category} {ks krest : List TokenKind} {e : Expr}
    (h : Derives true c ks e krest) : ∀ {ts : List Token}, ts.map Token.kind = ks →
      ∃ rest, rest.map Token.kind = krest ∧ ReadsAs stop c ts e rest := by
  induction h with
  | single _ ih =>
    intro ts hts
    obtain ⟨rest, rfl, he⟩ := ih hts
    refine ⟨rest, rfl, fun hcl => ?_⟩
    have hb := he hcl.paren (hcl.looser.mono (by omega)) 1 (Nat.le_refl 1)
    rw [readOperators?_of_looser hcl.looser] at hb
    exact read?_single hb (after?_eq_none hcl.question)
  | ternary _ _ _ ihc iht ihf =>
    intro ts hts
    obtain ⟨r₁, hr₁, hc⟩ := ihc hts
    obtain ⟨r₂, hq, hr₂⟩ := after?_of_kinds hr₁
    obtain ⟨r₃, hr₃, ht⟩ := iht hr₂
    obtain ⟨r₄, hcolon, hr₄⟩ := after?_of_kinds hr₃
    obtain ⟨rest, rfl, hf⟩ := ihf hr₄
    refine ⟨rest, rfl, fun hcl => ?_⟩
    have hl : ∀ {n}, Looser n (r₁.map Token.kind) := by rw [hr₁]; exact looser_cons rfl
    have hb := hc (by rw [hr₁]; exact notBefore_cons (by decide)) hl 1 (Nat.le_refl 1)
    rw [readOperators?_of_looser hl] at hb
    exact read?_ternary hb hq (ht.before hr₃ (.inl rfl)) hcolon (hf hcl)
  | tighter _ _ ih =>
    intro ts hts
    obtain ⟨rest, rfl, he⟩ := ih hts
    exact ⟨rest, rfl, fun hp hl m hm => he hp (hl.mono (by omega)) m (by omega)⟩
  | @operator _ _ _ l r n p op _ hop _ ihl ihr =>
    intro ts hts
    obtain ⟨hk, hn⟩ := mem_operatorsAt_iff.mp hop
    obtain ⟨r₀, hr₀, hl⟩ := ihl hts
    obtain ⟨t, r₁, rfl, ht, hr₁⟩ := List.map_eq_cons_iff.mp hr₀
    obtain ⟨rest, rfl, hr⟩ := ihr hr₁
    have hk : t.kind.binaryOp? = some op := by rw [ht]; exact hk
    refine ⟨rest, rfl, fun hp hlo m hm => ?_⟩
    have h₁ := hl (notBefore_cons (by rintro ht; rw [ht] at hk; cases hk))
      (by rintro k' hk' op' hop'; simp_all) m hm
    have h₂ := hr hp (hlo.mono (by omega)) (n + 1) (Nat.le_refl _)
    rw [readOperators?_of_looser hlo] at h₂
    rw [h₁, readOperators?_cons, hk]
    simp only
    rw [if_neg (by omega), hn, h₂]
    rfl
  | operand _ ih =>
    intro ts hts
    obtain ⟨rest, rfl, he⟩ := ih hts
    refine ⟨rest, rfl, fun hp _ m _ => ?_⟩
    rw [read?_binary, he hp]
    rfl
  | cast hn _ ih =>
    intro ts hts
    obtain ⟨r₁, hc, hr₁⟩ := castTarget?_of_kinds hn hts
    obtain ⟨rest, rfl, he⟩ := ih hr₁
    exact ⟨rest, rfl, fun hp => read?_cast_of_castTarget? hc (he hp)⟩
  | uncast hc _ ih =>
    rintro ts rfl
    obtain ⟨rest, rfl, he⟩ := ih rfl
    exact ⟨rest, rfl, fun hp => read?_cast_of_unary (hc rfl) (he hp)⟩
  | sizeofType hw =>
    intro ts hts
    obtain ⟨rest, hr, he⟩ := read?_sizeofType_of_kinds hw hts
    exact ⟨rest, hr, fun _ => he⟩
  | sizeofExpr hc _ ih =>
    intro ts hts
    obtain ⟨t, r, rfl, ht, rfl⟩ := List.map_eq_cons_iff.mp hts
    obtain ⟨rest, rfl, he⟩ := ih rfl
    have hb : baseOperand? r = none := by
      rw [Option.eq_none_iff_forall_ne_some]
      rintro ⟨x, r'⟩ hb
      obtain ⟨words, hw, hk⟩ := kinds_of_baseOperand? hb
      exact hc rfl ⟨words, x, _, hk, spellsBaseType_iff.mpr hw⟩
    exact ⟨rest, rfl, fun hp => read?_sizeofExpr ht hb (he hp)⟩
  | prefixed hop _ ih =>
    intro ts hts
    obtain ⟨r, hr, hread⟩ := read?_prefixed_of_kinds hop hts
    obtain ⟨rest, rfl, he⟩ := ih hr
    exact ⟨rest, rfl, fun hp => hread (he hp)⟩
  | atom hd ih =>
    rintro ts rfl
    obtain ⟨rest, rfl, he⟩ := ih rfl
    exact ⟨rest, rfl, fun hp => (read?_unary_of_atom hd).trans (he hp)⟩
  | literal =>
    intro ts hts
    obtain ⟨t, r, rfl, ht, rfl⟩ := List.map_eq_cons_iff.mp hts
    exact ⟨r, rfl, fun _ => read?_atom_literal ht⟩
  | name hn =>
    intro ts hts
    obtain ⟨t, r, rfl, ht, rfl⟩ := List.map_eq_cons_iff.mp hts
    exact ⟨r, rfl, fun hp => read?_name ht (after?_eq_none hp)⟩
  | emptyCall hn =>
    intro ts hts
    obtain ⟨rest, hr, he⟩ := read?_emptyCall_of_kinds hts
    exact ⟨rest, hr, fun _ => he⟩
  | call hn hd ih =>
    intro ts hts
    obtain ⟨r, hr, hread⟩ := read?_call_of_kinds hts
    obtain ⟨rest, rfl, hargs⟩ := ih hr
    exact ⟨rest, rfl, fun _ => hread hargs⟩
  | paren _ ih =>
    intro ts hts
    obtain ⟨r, hl, hr⟩ := after?_of_kinds hts
    obtain ⟨r₂, hr₂, he⟩ := ih hr
    obtain ⟨rest, hrp, rfl⟩ := after?_of_kinds hr₂
    exact ⟨rest, rfl, fun _ => read?_paren hl (he.before hr₂ (.inr (.inr rfl))) hrp⟩
  | lastArg _ ih =>
    intro ts hts
    obtain ⟨r₁, hr₁, he⟩ := ih hts
    obtain ⟨rest, hrp, rfl⟩ := after?_of_kinds hr₁
    exact ⟨rest, rfl, read?_lastArg (he.before hr₁ (.inr (.inr rfl))) hrp⟩
  | moreArgs _ _ ih ihs =>
    intro ts hts
    obtain ⟨r₁, hr₁, he⟩ := ih hts
    obtain ⟨r₂, hc, hr₂⟩ := after?_of_kinds hr₁
    obtain ⟨rest, rfl, hargs⟩ := ihs hr₂
    exact ⟨rest, rfl, read?_moreArgs (he.before hr₁ (.inr (.inl rfl))) hc hargs⟩

end Bindery
