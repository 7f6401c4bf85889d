import Bindery.Expr.Parser

/-!
# The grammar of expressions

`Derives resolved c ts e rest`: the tokens `ts` begin with a phrase of the category `c`, its tree is
`e`, and `rest` comes after it. The grammar reads a name in parentheses as a cast or as a reference,
and `sizeof` of such a name as a type or as an expression; where `resolved` holds, what follows
decides. A cast is taken wherever a token follows that can start an operand, and a base type
wherever the words spell one.

The grammar has its words from tables of its own: `operatorsAt`, `unaryOperators` and
`SpellsBaseType`. That the parser goes by the same words is a lemma about each of them
(`mem_operatorsAt_iff`, `mem_unaryOperators_iff`, `spellsBaseType_iff`).
-/

namespace Bindery

/-! ### The words of the grammar -/

/-- The binary operators of a level. Level 1 is the loosest. -/
def operatorsAt : (level : Nat) → List (Punct × BinaryOp)
  | 1 => [(.pipePipe, .or)]
  | 2 => [(.ampAmp, .and)]
  | 3 => [(.pipe, .bitOr)]
  | 4 => [(.caret, .bitXor)]
  | 5 => [(.amp, .bitAnd)]
  | 6 => [(.eqEq, .eq), (.notEq, .ne)]
  | 7 => [(.lt, .lt), (.ltEq, .le), (.gt, .gt), (.gtEq, .ge)]
  | 8 => [(.shl, .shl), (.shr, .shr)]
  | 9 => [(.plus, .add), (.minus, .sub)]
  | 10 => [(.star, .mul), (.slash, .div), (.percent, .mod)]
  | _ => []

/-- The operators that stand in front of an operand. -/
def unaryOperators : List (Punct × UnaryOp) :=
  [(.plus, .plus), (.minus, .neg), (.bang, .not), (.tilde, .bitNot)]

/-- Whether an operand can start with this token. -/
def TokenKind.startsOperand : TokenKind → Bool
  | ident _ | literal _ => true
  | punct .lParen | punct .plus | punct .minus | punct .bang | punct .tilde => true
  | punct _ => false

/-- The words of an integer type that `signed` or `unsigned` may stand in front of, and the type
when it is signed. -/
def integerWords : List (List String × Ty) :=
  [(["short"], .i16), (["short", "int"], .i16), (["int"], .i32), (["long"], .i64),
    (["long", "int"], .i64), (["long", "long"], .i64), (["long", "long", "int"], .i64)]

/-- What may follow `signed` or `unsigned`. Without them, `char` is no integer type but a byte. -/
def signedWords : List (List String × Ty) := ([], .i32) :: (["char"], .i8) :: integerWords

/-- The words spell a base type, and the tree is `sizeof` of it. -/
inductive SpellsBaseType : List String → Expr → Prop where
  | tag {keyword tag} (h : keyword ∈ ["struct", "union", "enum"]) :
    SpellsBaseType [keyword, tag] (.sizeofTag tag)
  | name {name ty} (h : Ty.ofName? name = some ty) : SpellsBaseType [name] (.sizeofType ty)
  | integer {words ty} (h : (words, ty) ∈ integerWords) : SpellsBaseType words (.sizeofType ty)
  | signed {words ty} (h : (words, ty) ∈ signedWords) :
    SpellsBaseType ("signed" :: words) (.sizeofType ty)
  | unsigned {words ty} (h : (words, ty) ∈ signedWords) :
    SpellsBaseType ("unsigned" :: words) (.sizeofType ty.toUnsigned)

/-! ### Phrases -/

/-- The phrases of the grammar. -/
inductive Category where
  | expr
  /-- Operands joined by binary operators of this level or a tighter one; at level 11 by none. -/
  | binary (level : Nat)
  /-- An operand with casts in front. -/
  | cast
  /-- An operand with prefix operators or `sizeof` in front. -/
  | unary
  | atom
  /-- The arguments in a call of `callee`, at least one, up to the closing parenthesis. The tree is
  the call. -/
  | args (callee : String)
deriving DecidableEq

/-- A name in parentheses before a token that can start an operand. -/
def CastAhead (ts : List TokenKind) : Prop :=
  ∃ name k rest, ts = .punct .lParen :: .ident name :: .punct .rParen :: k :: rest ∧
    name ≠ "sizeof" ∧ k.startsOperand

/-- Words in parentheses that spell a base type. -/
def BaseTypeAhead (ts : List TokenKind) : Prop :=
  ∃ words e rest, ts = .punct .lParen :: (words.map .ident ++ .punct .rParen :: rest) ∧
    SpellsBaseType words e

/-- The phrases at the head of a list of tokens. -/
inductive Derives (resolved : Bool) :
    Category → List TokenKind → Expr → List TokenKind → Prop where
  | single {ts rest e} (h : Derives resolved (.binary 1) ts e rest) :
      Derives resolved .expr ts e rest
  | ternary {ts r₁ r₂ rest c t f}
      (hc : Derives resolved (.binary 1) ts c (.punct .question :: r₁))
      (ht : Derives resolved .expr r₁ t (.punct .colon :: r₂))
      (hf : Derives resolved .expr r₂ f rest) : Derives resolved .expr ts (.ternary c t f) rest
  | tighter {ts rest e n} (hn : n < 11) (h : Derives resolved (.binary (n + 1)) ts e rest) :
      Derives resolved (.binary n) ts e rest
  | operator {ts r₁ rest l r n p op} (hl : Derives resolved (.binary n) ts l (.punct p :: r₁))
      (hp : (p, op) ∈ operatorsAt n) (hr : Derives resolved (.binary (n + 1)) r₁ r rest) :
      Derives resolved (.binary n) ts (.binary op l r) rest
  | operand {ts rest e} (h : Derives resolved .cast ts e rest) :
      Derives resolved (.binary 11) ts e rest
  | cast {ts rest e name} (hn : name ≠ "sizeof") (h : Derives resolved .cast ts e rest) :
      Derives resolved .cast (.punct .lParen :: .ident name :: .punct .rParen :: ts)
        (.cast name e) rest
  | uncast {ts rest e} (hc : resolved → ¬ CastAhead ts) (h : Derives resolved .unary ts e rest) :
      Derives resolved .cast ts e rest
  | sizeofType {rest e words} (h : SpellsBaseType words e) :
      Derives resolved .unary
        (.ident "sizeof" :: .punct .lParen :: (words.map .ident ++ .punct .rParen :: rest)) e rest
  | sizeofExpr {ts rest e} (hc : resolved → ¬ BaseTypeAhead ts)
      (h : Derives resolved .unary ts e rest) :
      Derives resolved .unary (.ident "sizeof" :: ts) (.sizeofExpr e) rest
  | prefixed {ts rest e p op} (hp : (p, op) ∈ unaryOperators)
      (h : Derives resolved .cast ts e rest) :
      Derives resolved .unary (.punct p :: ts) (.unary op e) rest
  | atom {ts rest e} (h : Derives resolved .atom ts e rest) : Derives resolved .unary ts e rest
  | literal {rest l} : Derives resolved .atom (.literal l :: rest) (.literal l) rest
  | name {rest name} (hn : name ≠ "sizeof") :
      Derives resolved .atom (.ident name :: rest) (.ident name) rest
  | emptyCall {rest f} (hn : f ≠ "sizeof") :
      Derives resolved .atom (.ident f :: .punct .lParen :: .punct .rParen :: rest) (.call f [])
        rest
  | call {ts rest e f} (hn : f ≠ "sizeof") (h : Derives resolved (.args f) ts e rest) :
      Derives resolved .atom (.ident f :: .punct .lParen :: ts) e rest
  | paren {ts rest e} (h : Derives resolved .expr ts e (.punct .rParen :: rest)) :
      Derives resolved .atom (.punct .lParen :: ts) e rest
  | lastArg {ts rest e f} (h : Derives resolved .expr ts e (.punct .rParen :: rest)) :
      Derives resolved (.args f) ts (.call f [e]) rest
  | moreArgs {ts r₁ rest e es f} (h : Derives resolved .expr ts e (.punct .comma :: r₁))
      (hs : Derives resolved (.args f) r₁ (.call f es) rest) :
      Derives resolved (.args f) ts (.call f (e :: es)) rest

/-! ### The words of the parser -/

/-- The parser's operators and their precedences are those of the levels. -/
theorem mem_operatorsAt_iff {n : Nat} {p : Punct} {op : BinaryOp} :
    (p, op) ∈ operatorsAt n ↔ p.binaryOp? = some op ∧ op.precedence = n := by
  constructor
  · intro h
    have hlevels : ∀ m < 11, ∀ x ∈ operatorsAt m,
        x.1.binaryOp? = some x.2 ∧ x.2.precedence = m := by decide
    rcases Nat.lt_or_ge n 11 with hn | hn
    · exact hlevels n hn _ h
    · unfold operatorsAt at h
      split at h <;> first | omega | cases h
  · rintro ⟨hp, rfl⟩
    cases p <;> cases hp <;> decide

theorem exists_mem_operatorsAt {k : TokenKind} {op : BinaryOp} (h : k.binaryOp? = some op) :
    ∃ p, k = .punct p ∧ (p, op) ∈ operatorsAt op.precedence := by
  cases k with
  | punct p => exact ⟨p, rfl, mem_operatorsAt_iff.mpr ⟨h, rfl⟩⟩
  | ident | literal => cases h

/-- The parser's prefix operators are those of the grammar. -/
theorem mem_unaryOperators_iff {p : Punct} {op : UnaryOp} :
    (p, op) ∈ unaryOperators ↔ p.unaryOp? = some op := by
  cases p <;> cases op <;> decide

theorem exists_mem_unaryOperators {k : TokenKind} {op : UnaryOp} (h : k.unaryOp? = some op) :
    ∃ p, k = .punct p ∧ (p, op) ∈ unaryOperators := by
  cases k with
  | punct p => exact ⟨p, rfl, mem_unaryOperators_iff.mpr h⟩
  | ident | literal => cases h

theorem startsOperand_punct_iff {p : Punct} :
    (TokenKind.punct p).startsOperand ↔ p = .lParen ∨ ∃ op, (p, op) ∈ unaryOperators := by
  simp only [mem_unaryOperators_iff]
  cases p <;> simp [TokenKind.startsOperand, Punct.unaryOp?]

/-- A single word is a base type when the type table has it. -/
theorem baseType?_singleton (name : String) :
    baseType? [name] = (Ty.ofName? name).map .sizeofType := by
  unfold baseType?
  split
  case h_4 he => cases he; rfl
  case h_5 he => cases he; rfl
  case h_6 =>
    unfold typeOfWords?
    split
    case h_11 he => exact absurd rfl (he name)
    all_goals next he => cases he <;> rfl
  all_goals next he => cases he

/-- What the parser takes after `signed` or `unsigned`. -/
theorem exists_of_typeOfWords? {signed : Bool} {words : List String} {ty : Ty}
    (h : typeOfWords? (some signed) words = some ty) : ∃ ty', (words, ty') ∈ signedWords ∧
      (signed = true → ty' = ty) ∧ (signed = false → ty'.toUnsigned = ty.toUnsigned) := by
  unfold typeOfWords? at h
  split at h
  case h_2 =>
    cases h
    exact ⟨.i8, by simp [signedWords], by cases signed <;> decide⟩
  case h_10 | h_11 => cases h
  all_goals
    cases h
    exact ⟨_, by simp [signedWords, integerWords], fun _ => rfl, fun _ => rfl⟩

theorem spells_of_typeOfWords? {words : List String} {ty : Ty}
    (h : typeOfWords? none words = some ty) : SpellsBaseType words (.sizeofType ty) := by
  unfold typeOfWords? at h
  split at h
  case h_1 | h_11 => cases h
  case h_2 | h_10 => exact .name h
  all_goals
    cases h
    exact .integer (by simp [integerWords])

/-- The words that the parser takes for a base type are those that spell one. -/
theorem spellsBaseType_iff {words : List String} {e : Expr} :
    SpellsBaseType words e ↔ baseType? words = some e := by
  constructor
  · intro h
    cases h with
    | name h => rw [baseType?_singleton, h]; rfl
    | tag h =>
      simp only [List.mem_cons, List.not_mem_nil, or_false] at h
      rcases h with rfl | rfl | rfl <;> rfl
    | integer h =>
      simp only [integerWords, List.mem_cons, List.not_mem_nil, or_false, Prod.mk.injEq] at h
      rcases h with ⟨rfl, rfl⟩ | ⟨rfl, rfl⟩ | ⟨rfl, rfl⟩ | ⟨rfl, rfl⟩ | ⟨rfl, rfl⟩ | ⟨rfl, rfl⟩ |
        ⟨rfl, rfl⟩ <;> rfl
    | signed h | unsigned h =>
      simp only [signedWords, integerWords, List.mem_cons, List.not_mem_nil, or_false,
        Prod.mk.injEq] at h
      rcases h with ⟨rfl, rfl⟩ | ⟨rfl, rfl⟩ | ⟨rfl, rfl⟩ | ⟨rfl, rfl⟩ | ⟨rfl, rfl⟩ | ⟨rfl, rfl⟩ |
        ⟨rfl, rfl⟩ | ⟨rfl, rfl⟩ | ⟨rfl, rfl⟩ <;> rfl
  · intro h
    unfold baseType? at h
    split at h
    · cases h; exact .tag (by simp)
    · cases h; exact .tag (by simp)
    · cases h; exact .tag (by simp)
    · obtain ⟨ty, hty, rfl⟩ := Option.map_eq_some_iff.mp h
      obtain ⟨ty', hm, -, hu⟩ := exists_of_typeOfWords? hty
      exact hu rfl ▸ .unsigned hm
    · obtain ⟨ty, hty, rfl⟩ := Option.map_eq_some_iff.mp h
      obtain ⟨ty', hm, hs, -⟩ := exists_of_typeOfWords? hty
      exact .signed (hs rfl ▸ hm)
    · obtain ⟨ty, hty, rfl⟩ := Option.map_eq_some_iff.mp h
      exact spells_of_typeOfWords? hty
/-! ### Derivations -/

namespace Derives

variable {resolved : Bool} {c : Category} {ts rest : List TokenKind} {e : Expr}

/-- A resolved derivation is one of the grammar. -/
theorem unresolved (h : Derives resolved c ts e rest) : Derives false c ts e rest := by
  induction h with
  | single _ ih => exact .single ih
  | ternary _ _ _ ihc iht ihf => exact .ternary ihc iht ihf
  | tighter hn _ ih => exact .tighter hn ih
  | operator _ hp _ ihl ihr => exact .operator ihl hp ihr
  | operand _ ih => exact .operand ih
  | cast hn _ ih => exact .cast hn ih
  | uncast _ _ ih => exact .uncast (fun h => absurd h Bool.false_ne_true) ih
  | sizeofType h => exact .sizeofType h
  | sizeofExpr _ _ ih => exact .sizeofExpr (fun h => absurd h Bool.false_ne_true) ih
  | prefixed hp _ ih => exact .prefixed hp ih
  | atom _ ih => exact .atom ih
  | literal => exact .literal
  | name hn => exact .name hn
  | emptyCall hn => exact .emptyCall hn
  | call hn _ ih => exact .call hn ih
  | paren _ ih => exact .paren ih
  | lastArg _ ih => exact .lastArg ih
  | moreArgs _ _ ih ihs => exact .moreArgs ih ihs

/-- What a tighter level derives, a looser one does. -/
theorem looser {m n : Nat} (h : Derives resolved (.binary m) ts e rest) (hn : n ≤ m)
    (hm : m ≤ 11) : Derives resolved (.binary n) ts e rest := by
  induction m with
  | zero => exact Nat.le_zero.mp hn ▸ h
  | succ m ih =>
    rcases Nat.eq_or_lt_of_le hn with rfl | hlt
    · exact h
    · exact ih (.tighter (by omega) h) (by omega) (by omega)

/-- Every phrase begins with a token that an operand can start with. -/
theorem startsOperand (h : Derives resolved c ts e rest) : ∀ k ∈ ts.head?, k.startsOperand := by
  induction h with
  | single _ ih | ternary _ _ _ ih | tighter _ _ ih | operator _ _ _ ih | operand _ ih
  | uncast _ _ ih | atom _ ih | lastArg _ ih | moreArgs _ _ ih => exact ih
  | cast | sizeofType | sizeofExpr | literal | name | emptyCall | call | paren => simp; rfl
  | prefixed hp => simpa using startsOperand_punct_iff.mpr (.inr ⟨_, hp⟩)

end Derives

/-- The tokens that an operand can start with are those that an operand of the grammar starts
with. -/
theorem startsOperand_iff_derives {k : TokenKind} :
    k.startsOperand ↔ ∃ ts e rest, Derives false .cast (k :: ts) e rest := by
  have name : ∀ rest, Derives false .cast (.ident "x" :: rest) (.ident "x") rest := fun rest =>
    .uncast nofun (.atom (.name (by decide)))
  constructor
  · intro h
    match k with
    | .literal l => exact ⟨[], _, [], .uncast nofun (.atom .literal)⟩
    | .ident n =>
      by_cases hn : n = "sizeof"
      · subst hn
        exact ⟨[.ident "x"], _, [], .uncast nofun (.sizeofExpr nofun (.atom (.name (by decide))))⟩
      · exact ⟨[], _, [], .uncast nofun (.atom (.name hn))⟩
    | .punct p =>
      rcases startsOperand_punct_iff.mp h with rfl | ⟨op, hp⟩
      · have hx : Derives false (.binary 1) [.ident "x", .punct .rParen] (.ident "x")
            [.punct .rParen] := .looser (m := 11) (.operand (name _)) (by decide) (by decide)
        exact ⟨_, _, [], .uncast nofun (.atom (.paren (.single hx)))⟩
      · exact ⟨_, _, [], .uncast nofun (.prefixed hp (name []))⟩
  · rintro ⟨ts, e, rest, h⟩
    exact h.startsOperand k rfl

end Bindery
