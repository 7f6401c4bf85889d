import Bindery.Proofs.Expr.Reader

/-!
# The parser derives what it reads

`Viable`: where the tokens begin like an operand, the parser does read a cast from them. A parse
that goes through leaves nothing but viable tokens at every point: an operand is followed by an
operator, by `?`, `:`, `,` or `)`, or by the end, and only `+` and `-` of these begin like an
operand, which the parser has then read. So a name in parentheses whose cast was given up is one
before a token that cannot start an operand, and the derivation behind the parse is a resolved one.
-/

namespace Bindery

variable {stop : Nat} {ts rest : List Token} {e : Expr}

theorem length_lt_of_outcome {α : Type} {x : Except ParseError (Parsed α ts)} {a : α}
    (h : outcome x = some (a, rest)) : rest.length < ts.length := by
  rcases x with _ | ⟨_, _, hlt⟩
  · cases h
  · cases h; exact hlt

theorem length_lt_of_readArgs? {es : List Expr} (h : readArgs? stop ts = some (es, rest)) :
    rest.length < ts.length := length_lt_of_outcome h

theorem length_lt_of_read? {c : Category} (h : read? stop c ts = some (e, rest)) :
    rest.length < ts.length := by
  cases c with
  | args f =>
    obtain ⟨es, -, hes⟩ := exists_call_of_read?_args h
    exact length_lt_of_readArgs? hes
  | expr | binary _ | cast | unary | atom => exact length_lt_of_outcome h

theorem kinds_of_after? {p : Punct} (h : after? p ts = some rest) :
    ts.map Token.kind = .punct p :: rest.map Token.kind := by
  obtain ⟨t, rfl, ht⟩ := after?_eq_some_iff.mp h
  simp [ht]

theorem length_lt_of_after? {p : Punct} (h : after? p ts = some rest) :
    rest.length < ts.length := by
  obtain ⟨t, rfl, -⟩ := after?_eq_some_iff.mp h
  simp

theorem length_lt_of_castTarget? {name : String} (h : castTarget? ts = some (name, rest)) :
    rest.length < ts.length := by
  obtain ⟨-, t₁, t₂, t₃, rfl, -⟩ := castTarget?_eq_some_iff.mp h
  simp only [List.length_cons]
  omega

theorem kinds_of_castTarget? {name : String} (h : castTarget? ts = some (name, rest)) :
    ts.map Token.kind =
      .punct .lParen :: .ident name :: .punct .rParen :: rest.map Token.kind := by
  obtain ⟨-, t₁, t₂, t₃, rfl, h₁, h₂, h₃⟩ := castTarget?_eq_some_iff.mp h
  simp [h₁, h₂, h₃]

theorem kinds_spanIdents (ts : List Token) :
    ts.map Token.kind = (spanIdents ts).1.map .ident ++ (spanIdents ts).2.map Token.kind := by
  fun_induction spanIdents ts with
  | case1 name _ _ ts ih => simp [ih]
  | case2 => simp

theorem baseOperand?_eq (ts : List Token) :
    baseOperand? ts = (after? .lParen ts).bind fun inner =>
      (after? .rParen (spanIdents inner).2).bind fun rest =>
        (baseType? (spanIdents inner).1).map fun e => (e, rest) := by
  unfold baseOperand? sizeofOperand?
  cases hl : eat? .lParen ts with
  | none => simp [after?_of_eat?_eq_none hl]
  | some inner =>
    simp only [after?_of_eat?_eq_some hl, Option.bind_some]
    cases hr : eat? .rParen (spanIdents inner.val).2 with
    | none => simp [after?_of_eat?_eq_none hr]
    | some rest => simp [after?_of_eat?_eq_some hr, Function.comp_def]

theorem kinds_of_baseOperand? (h : baseOperand? ts = some (e, rest)) :
    ∃ words, baseType? words = some e ∧ ts.map Token.kind =
      .punct .lParen :: (words.map .ident ++ .punct .rParen :: rest.map Token.kind) := by
  rw [baseOperand?_eq] at h
  obtain ⟨inner, hl, h⟩ := Option.bind_eq_some_iff.mp h
  obtain ⟨r, hr, h⟩ := Option.bind_eq_some_iff.mp h
  obtain ⟨x, hx, he⟩ := Option.map_eq_some_iff.mp h
  cases he
  exact ⟨_, hx, by rw [kinds_of_after? hl, kinds_spanIdents inner, kinds_of_after? hr]⟩

/-! ### What the kinds of the tokens decide -/

theorem after?_of_kinds {p : Punct} {ks : List TokenKind} (h : ts.map Token.kind = .punct p :: ks) :
    ∃ rest, after? p ts = some rest ∧ rest.map Token.kind = ks := by
  obtain ⟨t, rest, rfl, ht, hr⟩ := List.map_eq_cons_iff.mp h
  exact ⟨rest, after?_eq_some_iff.mpr ⟨t, rfl, ht⟩, hr⟩

theorem castTarget?_of_kinds {name : String} {ks : List TokenKind} (hn : name ≠ "sizeof")
    (h : ts.map Token.kind = .punct .lParen :: .ident name :: .punct .rParen :: ks) :
    ∃ rest, castTarget? ts = some (name, rest) ∧ rest.map Token.kind = ks := by
  obtain ⟨t₁, r₁, rfl, h₁, h⟩ := List.map_eq_cons_iff.mp h
  obtain ⟨t₂, r₂, rfl, h₂, h⟩ := List.map_eq_cons_iff.mp h
  obtain ⟨t₃, r₃, rfl, h₃, h⟩ := List.map_eq_cons_iff.mp h
  exact ⟨r₃, castTarget?_eq_some_iff.mpr ⟨hn, t₁, t₂, t₃, rfl, h₁, h₂, h₃⟩, h⟩

theorem spanIdents_of_kinds {words : List String} {p : Punct} {ks : List TokenKind}
    (h : ts.map Token.kind = words.map .ident ++ .punct p :: ks) :
    (spanIdents ts).1 = words ∧ (spanIdents ts).2.map Token.kind = .punct p :: ks := by
  induction words generalizing ts with
  | nil =>
    obtain ⟨⟨_, _, _⟩, r, rfl, rfl, -⟩ := List.map_eq_cons_iff.mp h
    exact ⟨rfl, h⟩
  | cons word words ih =>
    obtain ⟨⟨_, _, _⟩, r, rfl, rfl, hr⟩ := List.map_eq_cons_iff.mp h
    simp [spanIdents, ih hr]

theorem baseOperand?_of_kinds {words : List String} {ks : List TokenKind}
    (hw : baseType? words = some e)
    (h : ts.map Token.kind = .punct .lParen :: (words.map .ident ++ .punct .rParen :: ks)) :
    ∃ rest, baseOperand? ts = some (e, rest) ∧ rest.map Token.kind = ks := by
  obtain ⟨inner, hl, hi⟩ := after?_of_kinds h
  obtain ⟨h₁, h₂⟩ := spanIdents_of_kinds hi
  obtain ⟨rest, hr, hk⟩ := after?_of_kinds h₂
  exact ⟨rest, by simp [baseOperand?_eq, hl, hr, h₁, hw], hk⟩

/-! ### What is left can be read on -/

/-- Where the tokens begin like an operand, a cast can be read from them. -/
def Viable (stop : Nat) (ts : List Token) : Prop :=
  ∀ t ∈ ts.head?, t.kind.startsOperand → (read? stop .cast ts).isSome

theorem viable_nil : Viable stop [] := by simp [Viable]

theorem viable_of_after? {p : Punct} (h : after? p ts = some rest)
    (hp : (TokenKind.punct p).startsOperand = false) : Viable stop ts := by
  obtain ⟨t, rfl, ht⟩ := after?_eq_some_iff.mp h
  intro u hu hs
  obtain rfl : t = u := by simpa using hu
  rw [ht, hp] at hs
  cases hs

theorem castTarget?_eq_none {t : Token} (h : t.kind ≠ .punct .lParen) :
    castTarget? (t :: ts) = none := by
  rw [Option.eq_none_iff_forall_ne_some]
  rintro ⟨name, rest⟩ hc
  obtain ⟨-, t₁, t₂, t₃, heq, h₁, -⟩ := castTarget?_eq_some_iff.mp hc
  cases heq
  exact h h₁

/-- Nothing is read as a cast where no operand starts. -/
theorem read?_cast_eq_none (h : ∀ t ∈ ts.head?, t.kind.startsOperand = false) :
    read? stop .cast ts = none := by
  cases ts with
  | nil => rw [read?_cast]; exact read?_unary_nil
  | cons t ts =>
    have ht := h t (by simp)
    match hk : t.kind with
    | .ident _ | .literal _ => rw [hk] at ht; cases ht
    | .punct p =>
      have hs : ¬ (p = .lParen ∨ ∃ op, (p, op) ∈ unaryOperators) := by
        rw [← startsOperand_punct_iff, ← hk, ht]
        decide
      obtain ⟨hl, hu⟩ := not_or.mp hs
      have hu : p.unaryOp? = none := Option.eq_none_iff_forall_ne_some.mpr fun op hop =>
        hu ⟨op, mem_unaryOperators_iff.mpr hop⟩
      rw [read?_cast, castTarget?_eq_none (by simpa [hk] using hl)]
      simp only
      rw [read?_unary, hk, if_neg (by simp), TokenKind.unaryOp?, hu]
      simp only
      rw [read?_atom_punct hk, if_neg hl]

/-- A prefix operator before a cast makes a cast. -/
theorem read?_cast_of_unaryOp? {t : Token} {op : UnaryOp} (hop : t.kind.unaryOp? = some op)
    (h : read? stop .cast ts = some (e, rest)) :
    read? stop .cast (t :: ts) = some (.unary op e, rest) := by
  rw [read?_cast, castTarget?_eq_none (by rintro hk; rw [hk] at hop; cases hop)]
  exact read?_prefixed hop h

/-- The binary operators that begin like an operand are prefix operators too. -/
theorem unaryOp?_of_binaryOp? {k : TokenKind} {op : BinaryOp} (hop : k.binaryOp? = some op)
    (hs : k.startsOperand) : ∃ op', k.unaryOp? = some op' := by
  obtain ⟨p, rfl, -⟩ := exists_mem_operatorsAt hop
  rcases startsOperand_punct_iff.mp hs with rfl | ⟨op', ho⟩
  · cases hop
  · exact ⟨op', mem_unaryOperators_iff.mp ho⟩

/-- An operator that an operand follows leaves the tokens viable. -/
theorem viable_of_binaryOp? {t : Token} {op : BinaryOp} (hop : t.kind.binaryOp? = some op)
    (h : read? stop .cast ts = some (e, rest)) : Viable stop (t :: ts) := by
  intro u hu hs
  obtain rfl : t = u := by simpa using hu
  obtain ⟨op', ho⟩ := unaryOp?_of_binaryOp? hop hs
  rw [read?_cast_of_unaryOp? ho h]
  rfl

/-- Operators were read on from viable tokens if they were read up to viable ones. -/
theorem viable_of_readOperators? {n : Nat} {l : Expr}
    (h : readOperators? stop n l ts = some (e, rest)) (hv : Viable stop rest) : Viable stop ts := by
  cases ts with
  | nil => exact viable_nil
  | cons t ts =>
    rw [readOperators?_cons] at h
    split at h
    · cases h; exact hv
    · next op hop =>
      split at h
      · cases h; exact hv
      · obtain ⟨⟨right, r⟩, hr, -⟩ := Option.bind_eq_some_iff.mp h
        rw [read?_binary] at hr
        obtain ⟨⟨x, r'⟩, hx, -⟩ := Option.bind_eq_some_iff.mp hr
        exact viable_of_binaryOp? hop hx

/-- The tokens do not begin with an operator of level `n` or tighter. -/
def Looser (n : Nat) (ts : List TokenKind) : Prop :=
  ∀ k ∈ ts.head?, ∀ op, k.binaryOp? = some op → op.precedence < n

theorem BinaryOp.precedence_pos (op : BinaryOp) : 1 ≤ op.precedence := by cases op <;> decide

theorem BinaryOp.precedence_lt (op : BinaryOp) : op.precedence < 11 := by
  cases op <;> decide

theorem looser_of_readOperators? {n : Nat} {l : Expr} :
    ∀ {ts : List Token}, readOperators? stop n l ts = some (e, rest) →
      Looser n (rest.map Token.kind)
  | [], h => by
    rw [readOperators?_nil] at h
    cases h
    simp [Looser]
  | t :: ts, h => by
    rw [readOperators?_cons] at h
    split at h
    · next hop => cases h; simp [Looser, hop]
    · next op hop =>
      split at h
      · next hlt => cases h; simp [Looser, hop, hlt]
      · obtain ⟨⟨right, r⟩, hr, h⟩ := Option.bind_eq_some_iff.mp h
        have := length_lt_of_read? hr
        exact looser_of_readOperators? h
termination_by ts => ts.length

theorem looser_of_read?_binary {n : Nat} (h : read? stop (.binary n) ts = some (e, rest)) :
    Looser n (rest.map Token.kind) := by
  rw [read?_binary] at h
  obtain ⟨⟨l, r⟩, -, h⟩ := Option.bind_eq_some_iff.mp h
  exact looser_of_readOperators? h

/-! ### The derivation of what was read -/

theorem not_baseTypeAhead (h : baseOperand? ts = none) : ¬ BaseTypeAhead (ts.map Token.kind) := by
  rintro ⟨words, e, ks, hk, hw⟩
  obtain ⟨rest, hr, -⟩ := baseOperand?_of_kinds (spellsBaseType_iff.mp hw) hk
  rw [h] at hr
  cases hr

/-- A cast that was given up before viable tokens is no cast. -/
theorem not_castAhead {name : String} (h : castTarget? ts = some (name, rest))
    (hf : read? stop .cast rest = none) (hv : Viable stop rest) :
    ¬ CastAhead (ts.map Token.kind) := by
  rintro ⟨n, k, ks, hk, -, hs⟩
  rw [kinds_of_castTarget? h] at hk
  simp only [List.cons.injEq, true_and] at hk
  cases rest with
  | nil => simp at hk
  | cons t r =>
    have := hv t (by simp) (by simp_all)
    rw [hf] at this
    cases this

theorem not_castAhead_of_castTarget?_eq_none (h : castTarget? ts = none) :
    ¬ CastAhead (ts.map Token.kind) := by
  rintro ⟨n, k, ks, hk, hn, -⟩
  obtain ⟨rest, hr, -⟩ := castTarget?_of_kinds hn hk
  rw [h] at hr
  cases hr

theorem Derives.nameInParens {resolved : Bool} {name : String} {ks : List TokenKind}
    (hn : name ≠ "sizeof") : Derives resolved .unary
      (.punct .lParen :: .ident name :: .punct .rParen :: ks) (.ident name) ks := by
  have hc : ¬ CastAhead (.ident name :: .punct .rParen :: ks) := by
    rintro ⟨_, _, _, heq, -⟩
    cases heq
  have h : Derives resolved (.binary 11) (.ident name :: .punct .rParen :: ks) (.ident name)
      (.punct .rParen :: ks) := .operand (.uncast (fun _ => hc) (.atom (.name hn)))
  exact .atom (.paren (.single (h.looser (by omega) (Nat.le_refl 11))))

mutual

theorem derives_of_expr {ts rest : List Token} {e : Expr} (h : read? stop .expr ts = some (e, rest))
    (hv : Viable stop rest) :
    Derives true .expr (ts.map Token.kind) e (rest.map Token.kind) := by
  rw [read?_expr] at h
  obtain ⟨⟨c, r₁⟩, hc, h⟩ := Option.bind_eq_some_iff.mp h
  dsimp only at h
  split at h
  · cases h
    exact .single (derives_of_binary (by omega) hc hv)
  · next r₂ hq =>
    obtain ⟨⟨t, r₃⟩, ht, h⟩ := Option.bind_eq_some_iff.mp h
    obtain ⟨r₄, hcolon, h⟩ := Option.bind_eq_some_iff.mp h
    obtain ⟨⟨f, r₅⟩, hf, he⟩ := Option.map_eq_some_iff.mp h
    cases he
    have l₁ := length_lt_of_read? hc
    have l₂ := length_lt_of_after? hq
    have l₃ := length_lt_of_read? ht
    have l₄ : r₄.length < r₃.length := length_lt_of_after? hcolon
    have dc := derives_of_binary (by omega) hc (viable_of_after? hq rfl)
    have dt := derives_of_expr ht (viable_of_after? hcolon rfl)
    rw [kinds_of_after? hq] at dc
    rw [kinds_of_after? hcolon] at dt
    exact .ternary dc dt (derives_of_expr hf hv)
termination_by (ts.length, 5)

theorem derives_of_binary {ts rest : List Token} {e : Expr} {n : Nat} (hn : n ≤ 11)
    (h : read? stop (.binary n) ts = some (e, rest)) (hv : Viable stop rest) :
    Derives true (.binary n) (ts.map Token.kind) e (rest.map Token.kind) := by
  rw [read?_binary] at h
  obtain ⟨⟨l, r⟩, hl, h⟩ := Option.bind_eq_some_iff.mp h
  have := length_lt_of_read? hl
  have dl := derives_of_cast hl (viable_of_readOperators? h hv)
  exact derives_of_operators hn (Nat.le_refl 11) hv (.operand dl)
    (fun _ _ op _ => Nat.lt_succ_of_lt op.precedence_lt) h
termination_by (ts.length, 4)

/-- The operators of a chain: what was read so far is of a level that the next operator may
follow. -/
theorem derives_of_operators {rest : List Token} {e : Expr} {ks : List TokenKind} {m n : Nat}
    (hn : n ≤ m) (hm : m ≤ 11) (hv : Viable stop rest) : ∀ {ts : List Token} {l : Expr},
      Derives true (.binary m) ks l (ts.map Token.kind) → Looser (m + 1) (ts.map Token.kind) →
      readOperators? stop n l ts = some (e, rest) →
      Derives true (.binary n) ks e (rest.map Token.kind)
  | [], l, hl, _, h => by
    rw [readOperators?_nil] at h
    cases h
    exact hl.looser hn hm
  | t :: ts, l, hl, hlt, h => by
    rw [readOperators?_cons] at h
    split at h
    · cases h; exact hl.looser hn hm
    · next op hop =>
      split at h
      · cases h; exact hl.looser hn hm
      · next hp =>
        obtain ⟨⟨right, r⟩, hr, h⟩ := Option.bind_eq_some_iff.mp h
        have := length_lt_of_read? hr
        have hpm : op.precedence ≤ m := Nat.le_of_lt_succ (hlt t.kind (by simp) op hop)
        have dr := derives_of_binary op.precedence_lt hr (viable_of_readOperators? h hv)
        obtain ⟨p, hk, hp⟩ := exists_mem_operatorsAt hop
        rw [List.map_cons, hk] at hl
        have dl := Derives.operator (hl.looser hpm hm) hp dr
        exact derives_of_operators (by omega) (by omega) hv dl (looser_of_read?_binary hr) h
termination_by ts => (ts.length, 0)

theorem derives_of_cast {ts rest : List Token} {e : Expr} (h : read? stop .cast ts = some (e, rest))
    (hv : Viable stop rest) :
    Derives true .cast (ts.map Token.kind) e (rest.map Token.kind) := by
  rw [read?_cast] at h
  split at h
  · next hc =>
    exact .uncast (fun _ => not_castAhead_of_castTarget?_eq_none hc) (derives_of_unary hv h)
  · next name r₁ hc =>
    have hk := kinds_of_castTarget? hc
    have hn := (castTarget?_eq_some_iff.mp hc).1
    have := length_lt_of_castTarget? hc
    split at h
    · next he =>
      cases h
      rw [hk]
      exact .cast hn (derives_of_cast he hv)
    · next hf =>
      cases h
      refine .uncast (fun _ => not_castAhead hc hf hv) ?_
      rw [hk]
      exact .nameInParens hn
termination_by (ts.length, 3)

theorem derives_of_unary {rest : List Token} {e : Expr} (hv : Viable stop rest) :
    ∀ {ts : List Token}, read? stop .unary ts = some (e, rest) →
      Derives true .unary (ts.map Token.kind) e (rest.map Token.kind)
  | [], h => by rw [read?_unary_nil] at h; cases h
  | t :: ts, h => by
    rw [read?_unary] at h
    rw [List.map_cons]
    split at h
    · next hs =>
      rw [hs]
      split at h
      · next hb =>
        cases h
        obtain ⟨words, hw, hk⟩ := kinds_of_baseOperand? hb
        rw [hk]
        exact .sizeofType (spellsBaseType_iff.mpr hw)
      · next hb =>
        obtain ⟨⟨o, r⟩, ho, he⟩ := Option.map_eq_some_iff.mp h
        cases he
        exact .sizeofExpr (fun _ => not_baseTypeAhead hb) (derives_of_unary hv ho)
    · next hs =>
      split at h
      · next op hop =>
        obtain ⟨⟨o, r⟩, ho, he⟩ := Option.map_eq_some_iff.mp h
        cases he
        obtain ⟨p, hk, hp⟩ := exists_mem_unaryOperators hop
        rw [hk]
        exact .prefixed hp (derives_of_cast ho hv)
      · exact .atom (derives_of_atom hs h hv)
termination_by ts => (ts.length, 2)

theorem derives_of_atom {ts rest : List Token} {e : Expr} {t : Token}
    (hs : t.kind ≠ .ident "sizeof") (h : read? stop .atom (t :: ts) = some (e, rest))
    (hv : Viable stop rest) :
    Derives true .atom ((t :: ts).map Token.kind) e (rest.map Token.kind) := by
  rw [List.map_cons]
  match hk : t.kind with
  | .literal l =>
    rw [read?_atom_literal hk] at h
    cases h
    exact .literal
  | .ident name =>
    rw [read?_atom_ident hk] at h
    have hn : name ≠ "sizeof" := fun hn => hs (by rw [hk, hn])
    split at h
    · cases h; exact .name hn
    · next r₂ hl =>
      have := length_lt_of_after? hl
      rw [kinds_of_after? hl]
      split at h
      · next hr =>
        cases h
        rw [kinds_of_after? hr]
        exact .emptyCall hn
      · exact .call hn (derives_of_args h hv)
  | .punct p =>
    rw [read?_atom_punct hk] at h
    split at h
    · next hp =>
      obtain ⟨⟨o, r₂⟩, ho, h⟩ := Option.bind_eq_some_iff.mp h
      obtain ⟨r₃, hr, he⟩ := Option.map_eq_some_iff.mp h
      cases he
      have d := derives_of_expr ho (viable_of_after? hr rfl)
      rw [kinds_of_after? hr] at d
      rw [hp]
      exact .paren d
    · cases h
termination_by (ts.length + 1, 1)

theorem derives_of_args {ts rest : List Token} {e : Expr} {f : String}
    (h : read? stop (.args f) ts = some (e, rest)) (hv : Viable stop rest) :
    Derives true (.args f) (ts.map Token.kind) e (rest.map Token.kind) := by
  obtain ⟨es, rfl, hes⟩ := exists_call_of_read?_args h
  rw [readArgs?_eq] at hes
  obtain ⟨⟨a, r₁⟩, ha, hes⟩ := Option.bind_eq_some_iff.mp hes
  have l₁ := length_lt_of_read? ha
  dsimp only at hes
  split at hes
  · next r₂ hc =>
    obtain ⟨⟨as, r₃⟩, has, he⟩ := Option.map_eq_some_iff.mp hes
    cases he
    have l₂ := length_lt_of_after? hc
    have d := derives_of_expr ha (viable_of_after? hc rfl)
    rw [kinds_of_after? hc] at d
    exact .moreArgs d (derives_of_args (by rw [read?, has]; rfl) hv)
  · obtain ⟨r₂, hr, he⟩ := Option.map_eq_some_iff.mp hes
    cases he
    have d := derives_of_expr ha (viable_of_after? hr rfl)
    rw [kinds_of_after? hr] at d
    exact .lastArg d
termination_by (ts.length, 6)

end

end Bindery
