import Mathlib
import Bindery.Proofs.Expr.Completeness

/-!
# The parser accepts the grammar

The parser takes a cast wherever it can, so it may read on where another derivation would stop: of
`(a) - b` the grammar also has a difference, and the parser takes all of it as one operand. Nothing
is lost by that. After an operand the parser stands before a `Tail`, operators with the operands it
reads after them, and a greedy cast only moves it further along the same tail.
-/

namespace Bindery

variable {stop : Nat}

/-- Nothing that could go on an expression: no operand and no operator. -/
structure Ends (ks : List TokenKind) : Prop where
  operand : ∀ k ∈ ks.head?, k.startsOperand = false
  looser : Looser 1 ks

theorem ends_nil : Ends [] := ⟨by simp, by simp [Looser]⟩

theorem ends_cons {p : Punct} {ks : List TokenKind}
    (h : p = .question ∨ p = .colon ∨ p = .comma ∨ p = .rParen) : Ends (.punct p :: ks) := by
  rcases h with rfl | rfl | rfl | rfl <;> exact ⟨by simp; rfl, looser_cons rfl⟩

/-- Operators and the operands that the parser reads after them, up to `final`. -/
inductive Tail (stop : Nat) (final : List Token) : List Token → Prop where
  | done : Tail stop final final
  | step {t ts e rest op} (hop : t.kind.binaryOp? = some op)
      (hc : read? stop .cast ts = some (e, rest)) (h : Tail stop final rest) :
      Tail stop final (t :: ts)

namespace Tail

variable {final ts : List Token}

theorem notBefore_lParen (h : Tail stop final ts) (hf : Ends (final.map Token.kind)) :
    NotBefore .lParen (ts.map Token.kind) := by
  cases h with
  | done =>
    intro hl
    have := hf.operand (.punct .lParen) hl
    cases this
  | step hop => exact notBefore_cons (by rintro hk; rw [hk] at hop; cases hop)

/-- A cast read at a tail goes along it. -/
theorem read?_cast (h : Tail stop final ts) (hf : Ends (final.map Token.kind)) :
    read? stop .cast ts = none ∨
      ∃ e rest, read? stop .cast ts = some (e, rest) ∧ Tail stop final rest := by
  cases h with
  | done =>
    refine .inl (read?_cast_eq_none fun t ht => hf.operand t.kind ?_)
    rw [List.head?_map, ht]
    rfl
  | @step t ts e rest op hop hc h =>
    by_cases hs : t.kind.startsOperand
    · obtain ⟨op', ho⟩ := unaryOp?_of_binaryOp? hop hs
      exact .inr ⟨_, _, read?_cast_of_unaryOp? ho hc, h⟩
    · exact .inl (read?_cast_eq_none (by simpa using hs))

/-- The operators of a tail are read up to a looser one. -/
theorem readOperators? {n : Nat} (hn : 1 ≤ n) (hf : Ends (final.map Token.kind)) :
    ∀ {ts : List Token} (l : Expr), Tail stop final ts → ∃ e rest,
      readOperators? stop n l ts = some (e, rest) ∧ Tail stop final rest ∧
        Looser n (rest.map Token.kind)
  | _, l, .done =>
    have hlo := hf.looser.mono hn
    ⟨l, final, readOperators?_of_looser hlo, .done, hlo⟩
  | t :: ts, l, @Tail.step _ _ _ _ _ _ op hop hc h => by
    rw [readOperators?_cons, hop]
    simp only
    by_cases hp : op.precedence < n
    · rw [if_pos hp]
      exact ⟨_, _, rfl, .step hop hc h, by simp [Looser, hop, hp]⟩
    · rw [if_neg hp]
      have l₁ := length_lt_of_read? hc
      obtain ⟨x, r₁, hx, h₁, -⟩ := readOperators? (n := op.precedence + 1) (by omega) hf _ h
      have hb : read? stop (.binary (op.precedence + 1)) ts = some (x, r₁) := by
        rw [read?_binary, hc]; exact hx
      have l₂ := length_lt_of_read? hb
      rw [hb]
      exact readOperators? hn hf _ h₁
termination_by ts => ts.length

theorem eq_final (h : Tail stop final ts) (hl : Looser 1 (ts.map Token.kind)) : ts = final := by
  cases h with
  | done => rfl
  | @step t _ _ _ op hop =>
    have hlt := hl t.kind (by simp) op hop
    have hpos := op.precedence_pos
    omega

/-- An operand and its tail are read to the end. -/
theorem read?_binary {e : Expr} {rest : List Token} (h : Tail stop final rest)
    (hf : Ends (final.map Token.kind)) (hc : read? stop .cast ts = some (e, rest)) :
    ∃ e, read? stop (.binary 1) ts = some (e, final) := by
  obtain ⟨x, r, hx, ht, hl⟩ := h.readOperators? (Nat.le_refl 1) hf e
  obtain rfl := ht.eq_final hl
  exact ⟨x, by rw [Bindery.read?_binary, hc]; exact hx⟩

end Tail

/-! ### Two readings that end at the same place -/

theorem baseType?_sizeof_cons (words : List String) : baseType? ("sizeof" :: words) = none := by
  cases words with
  | nil => rfl
  | cons w ws => rfl

/-- Where a base type stands in parentheses, an expression ends where the type does. -/
theorem rest_eq_of_baseOperand? {ts rest rest' : List Token} {o e : Expr}
    (hb : baseOperand? ts = some (o, rest)) (h : read? stop .unary ts = some (e, rest')) :
    rest' = rest := by
  obtain ⟨words, hw, hk⟩ := kinds_of_baseOperand? hb
  cases words with
  | nil => cases hw
  | cons w ws =>
    have hn : w ≠ "sizeof" := by
      rintro rfl
      rw [baseType?_sizeof_cons] at hw
      cases hw
    obtain ⟨t, inner, rfl, ht, hi⟩ := List.map_eq_cons_iff.mp hk
    obtain ⟨u, r, rfl, hu, hr⟩ := List.map_eq_cons_iff.mp hi
    have hcl : Closes (r.map Token.kind) := by
      rw [hr]
      cases ws with
      | nil => exact closes_cons (.inr (.inr rfl))
      | cons => exact ⟨notBefore_cons (by simp), looser_cons rfl, notBefore_cons (by simp)⟩
    rw [read?_unary, ht, if_neg (by simp)] at h
    simp only [TokenKind.unaryOp?, Punct.unaryOp?] at h
    rw [read?_atom_punct ht, if_pos rfl, read?_expr_of_ident hu hn hcl] at h
    obtain ⟨r₃, hr₃, he⟩ := Option.map_eq_some_iff.mp h
    cases he
    obtain ⟨v, rfl, hv⟩ := after?_eq_some_iff.mp hr₃
    obtain ⟨_, _, _⟩ := u
    obtain ⟨_, _, _⟩ := v
    cases hu
    cases hv
    obtain ⟨-, -, -, he⟩ : ∃ x, baseType? [w] = some x ∧ x = o ∧ rest' = rest := by
      simpa [baseOperand?_eq, after?, spanIdents, ht] using hb
    exact he

/-! ### Every derivation is accepted -/

/-- The parser goes through a phrase of the category that lies between `ts` and `rest`. -/
def Accepts (stop : Nat) : Category → List Token → List Token → Prop
  | .expr, ts, rest =>
    Ends (rest.map Token.kind) → NotBefore .question (rest.map Token.kind) →
      ∃ e, read? stop .expr ts = some (e, rest)
  | .binary _, ts, rest | .cast, ts, rest =>
    ∀ {final}, Ends (final.map Token.kind) → Tail stop final rest →
      ∃ e r, read? stop .cast ts = some (e, r) ∧ Tail stop final r
  | .unary, ts, rest =>
    ∀ {final}, Ends (final.map Token.kind) → Tail stop final rest →
      ∃ e r, read? stop .unary ts = some (e, r) ∧ Tail stop final r
  | .atom, ts, rest =>
    NotBefore .lParen (rest.map Token.kind) → ∃ e, read? stop .atom ts = some (e, rest)
  | .args f, ts, rest => ∃ e, read? stop (.args f) ts = some (e, rest)

/-- An expression is read before a token that closes it. -/
theorem Accepts.before {ts r : List Token} {p : Punct} {ks : List TokenKind}
    (h : Accepts stop .expr ts r) (hr : r.map Token.kind = .punct p :: ks)
    (hp : p = .colon ∨ p = .comma ∨ p = .rParen) :
    ∃ e, read? stop .expr ts = some (e, r) := by
  refine h (by rw [hr]; exact ends_cons (.inr hp)) ?_
  rw [hr]
  exact notBefore_cons (by rcases hp with rfl | rfl | rfl <;> decide)

theorem accepts_of_derives {c : Category} {ks krest : List TokenKind} {e : Expr}
    (h : Derives false c ks e krest) : ∀ {ts : List Token}, ts.map Token.kind = ks →
      ∃ rest, rest.map Token.kind = krest ∧ Accepts stop c ts rest := by
  -- The parser need not read the phrase that is derived: where it reads a cast and the derivation a
  -- reference, the operators that follow make up for the difference.
  induction h with
  | single _ ih =>
    intro ts hts
    obtain ⟨rest, rfl, ha⟩ := ih hts
    refine ⟨rest, rfl, fun hf hq => ?_⟩
    obtain ⟨e, r, hc, ht⟩ := ha hf .done
    obtain ⟨x, hx⟩ := ht.read?_binary hf hc
    exact ⟨x, read?_single hx (after?_eq_none hq)⟩
  | ternary _ _ _ ihc iht ihf =>
    intro ts hts
    obtain ⟨r₁, hr₁, hc⟩ := ihc hts
    obtain ⟨r₂, hq, hr₂⟩ := after?_of_kinds hr₁
    obtain ⟨r₃, hr₃, ht⟩ := iht hr₂
    obtain ⟨r₄, hcolon, hr₄⟩ := after?_of_kinds hr₃
    obtain ⟨rest, rfl, hf⟩ := ihf hr₄
    refine ⟨rest, rfl, fun he hnq => ?_⟩
    have he₁ : Ends (r₁.map Token.kind) := by rw [hr₁]; exact ends_cons (.inl rfl)
    obtain ⟨_, _, hc, htail⟩ := hc he₁ .done
    obtain ⟨c, hb⟩ := htail.read?_binary he₁ hc
    obtain ⟨t, ht⟩ := ht.before hr₃ (.inl rfl)
    obtain ⟨f, hf⟩ := hf he hnq
    exact ⟨.ternary c t f, read?_ternary hb hq ht hcolon hf⟩
  | tighter _ _ ih | operand _ ih => exact ih
  | operator _ hop _ ihl ihr =>
    intro ts hts
    obtain ⟨r₀, hr₀, hl⟩ := ihl hts
    obtain ⟨t, r₁, rfl, ht, hr₁⟩ := List.map_eq_cons_iff.mp hr₀
    obtain ⟨rest, rfl, hr⟩ := ihr hr₁
    refine ⟨rest, rfl, fun hf htail => ?_⟩
    obtain ⟨e, r, hc, htail⟩ := hr hf htail
    have hk := (mem_operatorsAt_iff.mp hop).1
    exact hl hf (.step (by rw [ht]; exact hk) hc htail)
  | cast hn _ ih =>
    intro ts hts
    obtain ⟨r₁, hct, hr₁⟩ := castTarget?_of_kinds hn hts
    obtain ⟨rest, rfl, ha⟩ := ih hr₁
    refine ⟨rest, rfl, fun hf ht => ?_⟩
    obtain ⟨e, r, hc, htail⟩ := ha hf ht
    exact ⟨_, r, read?_cast_of_castTarget? hct hc, htail⟩
  | uncast _ _ ih =>
    rintro ts rfl
    obtain ⟨rest, rfl, ha⟩ := ih rfl
    refine ⟨rest, rfl, fun hf ht => ?_⟩
    obtain ⟨e, r, hu, htail⟩ := ha hf ht
    rw [read?_cast]
    split
    · exact ⟨e, r, hu, htail⟩
    · next name r₁ hct =>
      -- The reference ends before a tail; a cast that is read there goes along the tail.
      rw [read?_unary_of_castTarget? hct] at hu
      cases hu
      rcases htail.read?_cast hf with hn | ⟨x, r₂, hx, h₂⟩
      · rw [hn]; exact ⟨_, _, rfl, htail⟩
      · rw [hx]; exact ⟨_, _, rfl, h₂⟩
  | sizeofType hw =>
    intro ts hts
    obtain ⟨rest, hr, he⟩ := read?_sizeofType_of_kinds hw hts
    exact ⟨rest, hr, fun _ htail => ⟨_, rest, he, htail⟩⟩
  | sizeofExpr _ _ ih =>
    intro ts hts
    obtain ⟨t, r, rfl, ht, rfl⟩ := List.map_eq_cons_iff.mp hts
    obtain ⟨rest, rfl, ha⟩ := ih rfl
    refine ⟨rest, rfl, fun hf ht' => ?_⟩
    obtain ⟨e, r', hu, htail⟩ := ha hf ht'
    cases hb : baseOperand? r with
    | none => exact ⟨.sizeofExpr e, r', read?_sizeofExpr ht hb hu, htail⟩
    | some o =>
      -- The type is read in place of the expression, and both end at the same token.
      obtain rfl := rest_eq_of_baseOperand? hb hu
      exact ⟨o.1, _, read?_sizeofType ht hb, htail⟩
  | prefixed hop _ ih =>
    intro ts hts
    obtain ⟨r, hr, hread⟩ := read?_prefixed_of_kinds hop hts
    obtain ⟨rest, rfl, ha⟩ := ih hr
    refine ⟨rest, rfl, fun hf htail => ?_⟩
    obtain ⟨e, r', hc, htail⟩ := ha hf htail
    exact ⟨_, _, hread hc, htail⟩
  | atom hd ih =>
    rintro ts rfl
    obtain ⟨rest, rfl, ha⟩ := ih rfl
    refine ⟨rest, rfl, fun hf ht => ?_⟩
    obtain ⟨e, he⟩ := ha (ht.notBefore_lParen hf)
    exact ⟨e, rest, (read?_unary_of_atom hd).trans he, ht⟩
  | literal =>
    intro ts hts
    obtain ⟨t, r, rfl, ht, rfl⟩ := List.map_eq_cons_iff.mp hts
    exact ⟨r, rfl, fun _ => ⟨_, read?_atom_literal ht⟩⟩
  | name hn =>
    intro ts hts
    obtain ⟨t, r, rfl, ht, rfl⟩ := List.map_eq_cons_iff.mp hts
    exact ⟨r, rfl, fun hp => ⟨_, read?_name ht (after?_eq_none hp)⟩⟩
  | emptyCall hn =>
    intro ts hts
    obtain ⟨rest, hr, he⟩ := read?_emptyCall_of_kinds hts
    exact ⟨rest, hr, fun _ => ⟨_, he⟩⟩
  | call hn hd ih =>
    intro ts hts
    obtain ⟨r, hr, hread⟩ := read?_call_of_kinds hts
    obtain ⟨rest, rfl, e, hargs⟩ := ih hr
    exact ⟨rest, rfl, fun _ => ⟨e, hread hargs⟩⟩
  | paren _ ih =>
    intro ts hts
    obtain ⟨r, hl, hr⟩ := after?_of_kinds hts
    obtain ⟨r₂, hr₂, ha⟩ := ih hr
    obtain ⟨rest, hrp, rfl⟩ := after?_of_kinds hr₂
    obtain ⟨e, he⟩ := ha.before hr₂ (.inr (.inr rfl))
    exact ⟨rest, rfl, fun _ => ⟨e, read?_paren hl he hrp⟩⟩
  | lastArg _ ih =>
    intro ts hts
    obtain ⟨r₁, hr₁, ha⟩ := ih hts
    obtain ⟨rest, hrp, rfl⟩ := after?_of_kinds hr₁
    obtain ⟨e, he⟩ := ha.before hr₁ (.inr (.inr rfl))
    exact ⟨rest, rfl, _, read?_lastArg he hrp⟩
  | moreArgs _ _ ih ihs =>
    intro ts hts
    obtain ⟨r₁, hr₁, ha⟩ := ih hts
    obtain ⟨r₂, hc, hr₂⟩ := after?_of_kinds hr₁
    obtain ⟨rest, rfl, x, hargs⟩ := ihs hr₂
    obtain ⟨e, he⟩ := ha.before hr₁ (.inr (.inl rfl))
    obtain ⟨es, rfl, -⟩ := exists_call_of_read?_args hargs
    exact ⟨rest, rfl, _, read?_moreArgs he hc hargs⟩

/-! ### The parser on a whole text -/

theorem parseTokens_eq_ok_iff {tokens : List Token} {e : Expr} (hne : tokens ≠ []) :
    parseTokens stop tokens = .ok e ↔ read? stop .expr tokens = some (e, []) := by
  have hn : tokens.isEmpty = false := by simpa using hne
  simp only [parseTokens, hn, read?]
  rcases parseExpr stop tokens with _ | ⟨x, _ | ⟨t, rest⟩, _⟩ <;>
    simp [bind, Except.bind, pure, Except.pure, throw, throwThe, MonadExceptOf.throw]

theorem parse_eq_parseTokens {text : String} {tokens : List Token}
    (ht : tokenize text.toList = .ok tokens) :
    Expr.parse text = parseTokens text.utf8ByteSize tokens := by
  simp [Expr.parse, ht, bind, Except.bind]

/-- A text is parsed to `e` exactly when its tokens have the resolved derivation of `e`. -/
theorem parse_eq_ok_iff_derives {text : String} {tokens : List Token} {e : Expr}
    (ht : tokenize text.toList = .ok tokens) (hne : tokens ≠ []) :
    Expr.parse text = .ok e ↔ Derives true .expr (tokens.map Token.kind) e [] := by
  rw [parse_eq_parseTokens ht, parseTokens_eq_ok_iff hne]
  constructor
  · intro h
    exact derives_of_expr h viable_nil
  · intro h
    obtain ⟨rest, hr, he⟩ := read?_of_derives h rfl
    obtain rfl := List.map_eq_nil_iff.mp hr
    exact he closes_nil

/-- A text whose tokens have any derivation is parsed. -/
theorem exists_parse_of_derives {text : String} {tokens : List Token} {e : Expr}
    (ht : tokenize text.toList = .ok tokens) (hne : tokens ≠ [])
    (h : Derives false .expr (tokens.map Token.kind) e []) : ∃ e, Expr.parse text = .ok e := by
  obtain ⟨rest, hr, ha⟩ : ∃ rest : List Token, rest.map Token.kind = [] ∧
      Accepts text.utf8ByteSize .expr tokens rest := accepts_of_derives h rfl
  obtain rfl := List.map_eq_nil_iff.mp hr
  obtain ⟨x, hx⟩ := ha ends_nil (notBefore_nil _)
  exact ⟨x, by rw [parse_eq_parseTokens ht, parseTokens_eq_ok_iff hne, hx]⟩

/-- The parser accepts a text exactly when its tokens derive from the grammar, and the tree that it
returns is the one whose derivation is resolved. -/
theorem parse_accepts_iff_derives {text : String} {tokens : List Token}
    (ht : tokenize text.toList = .ok tokens) (hne : tokens ≠ []) :
    ((∃ e, Expr.parse text = .ok e) ↔ ∃ e, Derives false .expr (tokens.map Token.kind) e []) ∧
      (∀ e, Expr.parse text = .ok e ↔ Derives true .expr (tokens.map Token.kind) e []) ∧
      ∀ e, Expr.parse text = .ok e → Derives false .expr (tokens.map Token.kind) e [] := by
  have hd : ∀ e, Expr.parse text = .ok e → Derives false .expr (tokens.map Token.kind) e [] :=
    fun e he => ((parse_eq_ok_iff_derives ht hne).mp he).unresolved
  refine ⟨⟨fun ⟨e, he⟩ => ⟨e, hd e he⟩, fun ⟨e, he⟩ => exists_parse_of_derives ht hne he⟩,
    fun e => parse_eq_ok_iff_derives ht hne, hd⟩

/-- `(a) - b` has a derivation as a difference, and the resolved one is a cast. Of `a + b * c` a sum
is derived and nothing else. -/
theorem parse_cast_of_negation :
    tokenize "(a) - b".toList = .ok [⟨.punct .lParen, 0, 1⟩, ⟨.ident "a", 1, 2⟩,
        ⟨.punct .rParen, 2, 3⟩, ⟨.punct .minus, 4, 5⟩, ⟨.ident "b", 6, 7⟩] ∧
      Derives true .expr [.punct .lParen, .ident "a", .punct .rParen, .punct .minus, .ident "b"]
        (.cast "a" (.unary .neg (.ident "b"))) [] ∧
      Derives false .expr [.punct .lParen, .ident "a", .punct .rParen, .punct .minus, .ident "b"]
        (.binary .sub (.ident "a") (.ident "b")) [] ∧
      tokenize "a + b * c".toList = .ok [⟨.ident "a", 0, 1⟩, ⟨.punct .plus, 2, 3⟩,
        ⟨.ident "b", 4, 5⟩, ⟨.punct .star, 6, 7⟩, ⟨.ident "c", 8, 9⟩] ∧
      ∀ e, Derives true .expr [.ident "a", .punct .plus, .ident "b", .punct .star, .ident "c"] e
        [] ↔ e = .binary .add (.ident "a") (.binary .mul (.ident "b") (.ident "c")) := by
  have ht : tokenize "(a) - b".toList = .ok [⟨.punct .lParen, 0, 1⟩, ⟨.ident "a", 1, 2⟩,
      ⟨.punct .rParen, 2, 3⟩, ⟨.punct .minus, 4, 5⟩, ⟨.ident "b", 6, 7⟩] := by cbv
  have hp : Expr.parse "(a) - b" = .ok (.cast "a" (.unary .neg (.ident "b"))) := by cbv
  have name : ∀ {n : String} {rest : List TokenKind}, n ≠ "sizeof" →
      Derives false .cast (.ident n :: rest) (.ident n) rest :=
    fun hn => .uncast (fun h => absurd h Bool.false_ne_true) (.atom (.name hn))
  have left : Derives false (.binary 9)
      [.punct .lParen, .ident "a", .punct .rParen, .punct .minus, .ident "b"]
      (.ident "a") [.punct .minus, .ident "b"] := by
    refine .looser (m := 11) (.operand (.uncast (fun h => absurd h Bool.false_ne_true) (.atom
      (.paren (.single (.looser (m := 11) (.operand (name (by decide))) ?_ ?_))))))
      ?_ ?_ <;> decide
  have right : Derives false (.binary 10) [.ident "b"] (.ident "b") [] :=
    .looser (m := 11) (.operand (name (by decide))) (by decide) (by decide)
  have difference : Derives false (.binary 9)
      [.punct .lParen, .ident "a", .punct .rParen, .punct .minus, .ident "b"]
      (.binary .sub (.ident "a") (.ident "b")) [] := .operator left (by decide) right
  have ht' : tokenize "a + b * c".toList = .ok [⟨.ident "a", 0, 1⟩, ⟨.punct .plus, 2, 3⟩,
      ⟨.ident "b", 4, 5⟩, ⟨.punct .star, 6, 7⟩, ⟨.ident "c", 8, 9⟩] := by cbv
  have hp' : Expr.parse "a + b * c" =
      .ok (.binary .add (.ident "a") (.binary .mul (.ident "b") (.ident "c"))) := by cbv
  refine ⟨ht, ((parse_accepts_iff_derives ht (by simp)).2.1 _).mp hp,
    .single (difference.looser (by decide) (by decide)), ht', fun e => ?_⟩
  have hd := (parse_accepts_iff_derives ht' (by simp)).2.1 e
  rw [hp'] at hd
  exact hd.symm.trans ⟨fun h => (Except.ok.inj h).symm, fun h => congrArg _ h.symm⟩

end Bindery
