import Bindery.Proofs.Expr.Grammar

/-!
# What the parser reads

`read? stop c ts` is what the parser takes from the head of `ts` for a phrase of the category `c`,
with the reasons for a failure left out. The equations below are the parser's own, one for each
category; everything else about the parser is proved from them.
-/

namespace Bindery

/-- The value read and the tokens left, if there is a value. -/
def outcome {α : Type} {ts : List Token} (x : Except ParseError (Parsed α ts)) :
    Option (α × List Token) :=
  match x with
  | .ok p => some (p.value, p.rest)
  | .error _ => none

@[simp] theorem outcome_ok {α : Type} {ts : List Token} (p : Parsed α ts) :
    outcome (.ok p) = some (p.value, p.rest) := rfl

@[simp] theorem outcome_error {α : Type} {ts : List Token} (e : ParseError) :
    outcome (.error e : Except ParseError (Parsed α ts)) = none := rfl

/-- The tokens after `p`, which has to be the first. -/
def after? (p : Punct) : List Token → Option (List Token)
  | [] => none
  | t :: ts => if t.kind = .punct p then some ts else none

theorem after?_eq_some_iff {p : Punct} {ts rest : List Token} :
    after? p ts = some rest ↔ ∃ t, ts = t :: rest ∧ t.kind = .punct p := by
  cases ts with
  | nil => simp [after?]
  | cons t ts =>
    simp only [after?, Option.ite_none_right_eq_some, Option.some.injEq, List.cons.injEq]
    constructor
    · rintro ⟨ht, rfl⟩
      exact ⟨t, ⟨rfl, rfl⟩, ht⟩
    · rintro ⟨_, ⟨rfl, rfl⟩, ht⟩
      exact ⟨ht, rfl⟩

theorem eat?_map_val (p : Punct) (ts : List Token) : (eat? p ts).map Subtype.val = after? p ts := by
  cases ts with
  | nil => rfl
  | cons t ts => by_cases h : t.kind = .punct p <;> simp [eat?, after?, h]

theorem after?_of_eat?_eq_none {p : Punct} {ts : List Token} (h : eat? p ts = none) :
    after? p ts = none := by
  rw [← eat?_map_val, h]; rfl

theorem after?_of_eat?_eq_some {p : Punct} {ts : List Token} {r} (h : eat? p ts = some r) :
    after? p ts = some r.val := by
  rw [← eat?_map_val, h]; rfl

/-- The operand that a base type in parentheses stands for, and the tokens after it. -/
def baseOperand? (ts : List Token) : Option (Expr × List Token) :=
  (sizeofOperand? ts).map fun p => (p.value, p.rest)

/-- The arguments of a call, and the tokens after the closing parenthesis. -/
def readArgs? (stop : Nat) (ts : List Token) : Option (List Expr × List Token) :=
  outcome (parseArgs stop ts)

/-- The operators and operands after `left`. -/
def readOperators? (stop level : Nat) (left : Expr) (ts : List Token) :
    Option (Expr × List Token) :=
  (parseOperators stop level left ts).toOption.map fun p => (p.value, p.rest)

/-- A phrase of the category at the head of the tokens, and the tokens after it. -/
def read? (stop : Nat) : Category → List Token → Option (Expr × List Token)
  | .expr, ts => outcome (parseExpr stop ts)
  | .binary level, ts => outcome (parseBinary stop level ts)
  | .cast, ts => outcome (parseCast stop ts)
  | .unary, ts => outcome (parseUnary stop ts)
  | .atom, ts => outcome (parseAtom stop ts)
  | .args callee, ts => (readArgs? stop ts).map fun (es, rest) => (.call callee es, rest)

variable {stop : Nat}

theorem read?_expr (ts : List Token) :
    read? stop .expr ts = (read? stop (.binary 1) ts).bind fun (c, r₁) =>
      match after? .question r₁ with
      | none => some (c, r₁)
      | some r₂ => (read? stop .expr r₂).bind fun (t, r₃) =>
        (after? .colon r₃).bind fun r₄ => (read? stop .expr r₄).map fun (f, r₅) =>
          (.ternary c t f, r₅) := by
  simp only [read?]
  rw [parseExpr]
  rcases parseBinary stop 1 ts with _ | ⟨c, r₁, _⟩
  · rfl
  simp only [bind, Except.bind, outcome_ok, Option.bind_some]
  cases hq : eat? .question r₁ with
  | none => simp [after?_of_eat?_eq_none hq, pure, Except.pure]
  | some r₂ =>
    simp only [after?_of_eat?_eq_some hq]
    rcases parseExpr stop r₂.val with _ | ⟨t, r₃, _⟩
    · rfl
    simp only [outcome_ok, Option.bind_some, expect]
    cases hc : eat? .colon r₃ with
    | none => simp [after?_of_eat?_eq_none hc]
    | some r₄ =>
      simp only [after?_of_eat?_eq_some hc, Option.bind_some]
      rcases parseExpr stop r₄.val with _ | ⟨f, r₅, _⟩ <;> rfl

theorem read?_binary (level : Nat) (ts : List Token) :
    read? stop (.binary level) ts =
      (read? stop .cast ts).bind fun (l, r₁) => readOperators? stop level l r₁ := by
  simp only [read?]
  rw [parseBinary]
  rcases parseCast stop ts with _ | ⟨l, r₁, _⟩
  · rfl
  simp only [bind, Except.bind, outcome_ok, Option.bind_some, readOperators?]
  rcases parseOperators stop level l r₁ with _ | ⟨e, r₂, _⟩ <;> rfl

theorem readOperators?_nil (level : Nat) (left : Expr) :
    readOperators? stop level left [] = some (left, []) := by
  rw [readOperators?, parseOperators]; rfl

theorem readOperators?_cons (level : Nat) (left : Expr) (t : Token) (ts : List Token) :
    readOperators? stop level left (t :: ts) =
      match t.kind.binaryOp? with
      | none => some (left, t :: ts)
      | some op =>
        if op.precedence < level then some (left, t :: ts)
        else (read? stop (.binary (op.precedence + 1)) ts).bind fun (right, r) =>
          readOperators? stop level (.binary op left right) r := by
  rw [readOperators?, parseOperators]
  cases t.kind.binaryOp? with
  | none => rfl
  | some op =>
    by_cases h : op.precedence < level
    · simp only [h, ↓reduceIte]; rfl
    · simp only [h, ↓reduceIte, read?]
      rcases parseBinary stop (op.precedence + 1) ts with _ | ⟨right, r, _⟩
      · rfl
      simp only [bind, Except.bind, outcome_ok, Option.bind_some, readOperators?]
      rcases parseOperators stop level (.binary op left right) r with _ | ⟨e, r₃, _⟩ <;> rfl

/-- The name in parentheses at the head of the tokens, and the tokens after it. -/
def castTarget? (ts : List Token) : Option (String × List Token) :=
  (castPrefix? ts).map fun p => (p.value, p.rest)

theorem castTarget?_eq_some_iff {ts rest : List Token} {name : String} :
    castTarget? ts = some (name, rest) ↔ name ≠ "sizeof" ∧ ∃ t₁ t₂ t₃, ts = t₁ :: t₂ :: t₃ :: rest ∧
      t₁.kind = .punct .lParen ∧ t₂.kind = .ident name ∧ t₃.kind = .punct .rParen := by
  constructor
  · intro h
    unfold castTarget? castPrefix? at h
    split at h
    · split at h
      · cases h
      · next hn =>
        cases h
        exact ⟨hn, _, _, _, rfl, rfl, rfl, rfl⟩
    · cases h
  · rintro ⟨hn, ⟨_, _, _⟩, ⟨_, _, _⟩, ⟨_, _, _⟩, rfl, rfl, rfl, rfl⟩
    simp [castTarget?, castPrefix?, hn]

theorem read?_cast (ts : List Token) :
    read? stop .cast ts =
      match castTarget? ts with
      | none => read? stop .unary ts
      | some (name, r₁) =>
        match read? stop .cast r₁ with
        | some (e, r₂) => some (.cast name e, r₂)
        | none => some (.ident name, r₁) := by
  simp only [read?]
  rw [parseCast, castTarget?]
  rcases castPrefix? ts with _ | ⟨name, r₁, _⟩
  · rfl
  simp only [Option.map_some]
  rcases parseCast stop r₁ with _ | ⟨e, r₂, _⟩ <;> rfl

theorem read?_unary (t : Token) (ts : List Token) :
    read? stop .unary (t :: ts) =
      if t.kind = .ident "sizeof" then
        match baseOperand? ts with
        | some (e, r) => some (e, r)
        | none => (read? stop .unary ts).map fun (e, r) => (.sizeofExpr e, r)
      else match t.kind.unaryOp? with
        | some op => (read? stop .cast ts).map fun (e, r) => (.unary op e, r)
        | none => read? stop .atom (t :: ts) := by
  simp only [read?]
  rw [parseUnary, baseOperand?]
  split
  · rcases sizeofOperand? ts with _ | ⟨e, r, _⟩
    · rcases parseUnary stop ts with _ | ⟨e, r, _⟩ <;> rfl
    · rfl
  · cases t.kind.unaryOp? with
    | none => rfl
    | some op => rcases parseCast stop ts with _ | ⟨e, r, _⟩ <;> rfl

theorem read?_unary_nil : read? stop .unary [] = none := by
  simp only [read?]
  rw [parseUnary, parseAtom]
  rfl

theorem read?_atom_literal {t : Token} {ts : List Token} {l : Literal} (h : t.kind = .literal l) :
    read? stop .atom (t :: ts) = some (.literal l, ts) := by
  simp only [read?]
  rw [parseAtom]
  split <;> simp_all

theorem read?_atom_ident {t : Token} {ts : List Token} {name : String} (h : t.kind = .ident name) :
    read? stop .atom (t :: ts) =
      match after? .lParen ts with
      | none => some (.ident name, ts)
      | some r₂ => match after? .rParen r₂ with
        | some r₃ => some (.call name [], r₃)
        | none => read? stop (.args name) r₂ := by
  simp only [read?]
  rw [parseAtom]
  split
  · simp_all
  · next n hk =>
    obtain rfl : n = name := by simpa [h] using hk.symm
    cases hl : eat? .lParen ts with
    | none => simp [after?_of_eat?_eq_none hl]
    | some r₂ =>
      simp only [after?_of_eat?_eq_some hl]
      cases hr : eat? .rParen r₂.val with
      | some r₃ => simp [after?_of_eat?_eq_some hr]
      | none =>
        simp only [after?_of_eat?_eq_none hr, readArgs?]
        rcases parseArgs stop r₂.val with _ | ⟨es, r₃, _⟩ <;> rfl
  · simp_all

theorem read?_atom_punct {t : Token} {ts : List Token} {p : Punct} (h : t.kind = .punct p) :
    read? stop .atom (t :: ts) =
      if p = .lParen then
        (read? stop .expr ts).bind fun (e, r₂) => (after? .rParen r₂).map fun r₃ => (e, r₃)
      else none := by
  simp only [read?]
  rw [parseAtom]
  split
  · simp_all
  · simp_all
  · next q hk =>
    obtain rfl : q = p := by simpa [h] using hk.symm
    split
    · rcases parseExpr stop ts with _ | ⟨e, r₂, _⟩
      · rfl
      simp only [bind, Except.bind, outcome_ok, Option.bind_some, expect]
      cases hr : eat? .rParen r₂ with
      | none => simp [after?_of_eat?_eq_none hr]
      | some r₃ => simp [after?_of_eat?_eq_some hr, pure, Except.pure]
    · rfl

theorem readArgs?_eq (ts : List Token) :
    readArgs? stop ts = (read? stop .expr ts).bind fun (e, r₁) =>
      match after? .comma r₁ with
      | some r₂ => (readArgs? stop r₂).map fun (es, r₃) => (e :: es, r₃)
      | none => (after? .rParen r₁).map fun r₂ => ([e], r₂) := by
  simp only [readArgs?, read?]
  rw [parseArgs]
  rcases parseExpr stop ts with _ | ⟨e, r₁, _⟩
  · rfl
  simp only [bind, Except.bind, outcome_ok, Option.bind_some]
  cases hc : eat? .comma r₁ with
  | some r₂ =>
    simp only [after?_of_eat?_eq_some hc]
    rcases parseArgs stop r₂.val with _ | ⟨es, r₃, _⟩ <;> rfl
  | none =>
    simp only [after?_of_eat?_eq_none hc, expect]
    cases hr : eat? .rParen r₁ with
    | none => simp [after?_of_eat?_eq_none hr]
    | some r₂ => simp [after?_of_eat?_eq_some hr, pure, Except.pure]

/-! ### One reading for each production -/

section Productions

variable {ts r r₁ r₂ r₃ rest : List Token} {t : Token} {c e x y : Expr} {name : String}

theorem read?_single (h : read? stop (.binary 1) ts = some (e, rest))
    (hq : after? .question rest = none) : read? stop .expr ts = some (e, rest) := by
  rw [read?_expr, h, Option.bind_some]
  simp only
  rw [hq]

theorem read?_ternary (hc : read? stop (.binary 1) ts = some (c, r))
    (hq : after? .question r = some r₁) (hx : read? stop .expr r₁ = some (x, r₂))
    (hcolon : after? .colon r₂ = some r₃) (hy : read? stop .expr r₃ = some (y, rest)) :
    read? stop .expr ts = some (.ternary c x y, rest) := by
  rw [read?_expr, hc, Option.bind_some]
  simp only
  rw [hq]
  simp only
  rw [hx, Option.bind_some]
  simp only
  rw [hcolon, Option.bind_some, hy]
  rfl

theorem read?_cast_of_castTarget? (hc : castTarget? ts = some (name, r))
    (h : read? stop .cast r = some (e, rest)) :
    read? stop .cast ts = some (.cast name e, rest) := by
  rw [read?_cast, hc]
  simp only
  rw [h]

theorem read?_sizeofType (ht : t.kind = .ident "sizeof") (h : baseOperand? ts = some (e, rest)) :
    read? stop .unary (t :: ts) = some (e, rest) := by
  rw [read?_unary, if_pos ht, h]

theorem read?_sizeofExpr (ht : t.kind = .ident "sizeof") (hb : baseOperand? ts = none)
    (h : read? stop .unary ts = some (e, rest)) :
    read? stop .unary (t :: ts) = some (.sizeofExpr e, rest) := by
  rw [read?_unary, if_pos ht, hb]
  simp only
  rw [h]
  rfl

theorem read?_prefixed {op : UnaryOp} (hop : t.kind.unaryOp? = some op)
    (h : read? stop .cast ts = some (e, rest)) :
    read? stop .unary (t :: ts) = some (.unary op e, rest) := by
  rw [read?_unary, if_neg (by rintro ht; rw [ht] at hop; cases hop), hop]
  simp only
  rw [h]
  rfl

theorem read?_name (ht : t.kind = .ident name) (h : after? .lParen ts = none) :
    read? stop .atom (t :: ts) = some (.ident name, ts) := by
  rw [read?_atom_ident ht, h]

theorem read?_emptyCall (ht : t.kind = .ident name) (hl : after? .lParen ts = some r)
    (hr : after? .rParen r = some rest) :
    read? stop .atom (t :: ts) = some (.call name [], rest) := by
  rw [read?_atom_ident ht, hl]
  simp only
  rw [hr]

theorem read?_paren (hl : after? .lParen ts = some r) (h : read? stop .expr r = some (e, r₁))
    (hr : after? .rParen r₁ = some rest) : read? stop .atom ts = some (e, rest) := by
  obtain ⟨t, rfl, ht⟩ := after?_eq_some_iff.mp hl
  rw [read?_atom_punct ht, if_pos rfl, h, Option.bind_some]
  simp only
  rw [hr]
  rfl

theorem read?_lastArg (h : read? stop .expr ts = some (e, r)) (hr : after? .rParen r = some rest) :
    read? stop (.args name) ts = some (.call name [e], rest) := by
  have hc : after? .comma r = none := by
    obtain ⟨t, rfl, ht⟩ := after?_eq_some_iff.mp hr
    simp [after?, ht]
  rw [read?, readArgs?_eq, h]
  simp [hc, hr]

theorem read?_moreArgs {es : List Expr} (h : read? stop .expr ts = some (e, r))
    (hc : after? .comma r = some r₁)
    (hs : read? stop (.args name) r₁ = some (.call name es, rest)) :
    read? stop (.args name) ts = some (.call name (e :: es), rest) := by
  obtain ⟨⟨_, _⟩, hes, he⟩ := Option.map_eq_some_iff.mp hs
  cases he
  rw [read?, readArgs?_eq, h]
  simp [hc, hes]

/-- What is read for arguments is a call. -/
theorem exists_call_of_read?_args (h : read? stop (.args name) ts = some (e, rest)) :
    ∃ es, e = .call name es ∧ readArgs? stop ts = some (es, rest) := by
  obtain ⟨⟨es, _⟩, hes, he⟩ := Option.map_eq_some_iff.mp h
  cases he
  exact ⟨es, rfl, hes⟩

end Productions

end Bindery
