import Mathlib
import Bindery.Proofs.Expr.Stability

/-!
# The parentheses of a tree

`opens` counts the parentheses that open right before each token. However a tree without `sizeof` is
derived, none of these counts is below the one that the precedences in the tree ask for
(`spends_of_derives`). What the printer writes has as many tokens, and no parenthesis too many
before the first of them (`Expr.exists_counts_kinds`).
-/

namespace Bindery

/-- How many parentheses open right before each token that is none. There are `k` already. -/
def opens : (k : Nat) → List TokenKind → List Nat
  | _, [] => []
  | k, .punct .lParen :: ts => opens (k + 1) ts
  | _, .punct .rParen :: ts => opens 0 ts
  | k, _ :: ts => k :: opens 0 ts

/-- The counts with `k` more parentheses before the first token. -/
def raise (k : Nat) (l : List Nat) : List Nat := l.modifyHead (k + ·)

section Raise

variable {i k : Nat} {l l' : List Nat}

@[simp] theorem raise_nil (k : Nat) : raise k [] = [] := rfl

@[simp] theorem raise_cons (k n : Nat) (l : List Nat) : raise k (n :: l) = (k + n) :: l := rfl

@[simp] theorem raise_zero (l : List Nat) : raise 0 l = l := by cases l <;> simp

theorem raise_raise (i k : Nat) (l : List Nat) : raise i (raise k l) = raise (i + k) l := by
  cases l <;> simp [Nat.add_assoc]

theorem raise_append (h : l ≠ []) (k : Nat) (l' : List Nat) :
    raise k (l ++ l') = raise k l ++ l' := by
  cases l
  · exact absurd rfl h
  · rfl

theorem raise_ne_nil (h : l ≠ []) (k : Nat) : raise k l ≠ [] := by
  cases l
  · exact absurd rfl h
  · simp

@[simp] theorem length_raise (k : Nat) (l : List Nat) : (raise k l).length = l.length := by
  cases l <;> rfl

/-- The counts of `l` are at least those of `l'`, token by token. -/
abbrev Covers (l l' : List Nat) : Prop := List.Forall₂ (· ≤ ·) l' l

theorem Covers.raise (h : Covers l l') (hik : i ≤ k) : Covers (raise k l) (raise i l') := by
  cases h with
  | nil => exact .nil
  | cons hn h => exact .cons (Nat.add_le_add hik hn) h

theorem Covers.lower (h : Covers l (Bindery.raise k l')) (hik : i ≤ k) :
    Covers l (Bindery.raise i l') := by
  cases l' with
  | nil => exact h
  | cons n l' =>
    cases h with
    | cons hn h => exact .cons ((Nat.add_le_add_right hik n).trans hn) h

theorem Covers.append {m m' : List Nat} (h : Covers l l') (hm : Covers m m') :
    Covers (l ++ m) (l' ++ m') := List.rel_append h hm

end Raise

/-! ### Phrases -/

/-- The tokens have these counts wherever they stand, and nothing is left open behind them. -/
structure Counts (ks : List TokenKind) (l : List Nat) : Prop where
  ne_nil : l ≠ []
  opens_append : ∀ k rest, opens k (ks ++ rest) = raise k l ++ opens 0 rest

namespace Counts

variable {t : TokenKind} {ks ks' : List TokenKind} {l l' : List Nat}

theorem token (h₁ : t ≠ .punct .lParen) (h₂ : t ≠ .punct .rParen) : Counts [t] [0] := by
  refine ⟨by simp, fun k rest => ?_⟩
  rw [List.singleton_append, opens]
  · rfl
  · exact h₁
  · exact h₂

theorem append (h : Counts ks l) (h' : Counts ks' l') : Counts (ks ++ ks') (l ++ l') := by
  refine ⟨by simp [h.ne_nil], fun k rest => ?_⟩
  rw [List.append_assoc, h.opens_append, h'.opens_append, raise_zero, raise_append h.ne_nil,
    List.append_assoc]

theorem cons (h₁ : t ≠ .punct .lParen) (h₂ : t ≠ .punct .rParen) (h : Counts ks l) :
    Counts (t :: ks) (0 :: l) := (token h₁ h₂).append h

theorem paren (h : Counts ks l) :
    Counts (.punct .lParen :: (ks ++ [.punct .rParen])) (raise 1 l) := by
  refine ⟨raise_ne_nil h.ne_nil 1, fun k rest => ?_⟩
  rw [List.cons_append, opens, List.append_assoc, h.opens_append, raise_raise]
  rfl

theorem wrapped (h : Counts ks l) (wrap : Bool) :
    Counts (Expr.wrappedKinds wrap ks) (raise wrap.toNat l) := by
  cases wrap
  · simpa [Expr.wrappedKinds] using h
  · exact h.paren

theorem emptyCall (f : String) :
    Counts [.ident f, .punct .lParen, .punct .rParen] [0] := ⟨by simp, fun _ _ => rfl⟩

theorem tokens_ne_nil (h : Counts ks l) : ks ≠ [] := by
  rintro rfl
  have := h.opens_append 0 []
  rw [raise_zero] at this
  exact h.ne_nil (List.append_eq_nil_iff.mp this.symm).1

theorem unique (h : Counts ks l) (h' : Counts ks l') : l = l' := by
  have := (h.opens_append 0 []).symm.trans (h'.opens_append 0 [])
  simpa [opens] using this

end Counts

theorem ne_paren_of_binaryOp? {p : Punct} {op : BinaryOp} (h : p.binaryOp? = some op) :
    TokenKind.punct p ≠ .punct .lParen ∧ TokenKind.punct p ≠ .punct .rParen := by
  constructor <;> rintro ⟨⟩ <;> cases h

theorem BinaryOp.punct_ne_paren (op : BinaryOp) : op.punct ≠ .lParen ∧ op.punct ≠ .rParen := by
  cases op <;> decide

theorem ne_paren_of_unaryOp? {p : Punct} {op : UnaryOp} (h : p.unaryOp? = some op) :
    TokenKind.punct p ≠ .punct .lParen ∧ TokenKind.punct p ≠ .punct .rParen := by
  constructor <;> rintro ⟨⟩ <;> cases h

namespace Expr

/-- Whether the expression binds looser than this level. -/
def loose (e : Expr) (level : Nat) : Bool := e.precedence < level

mutual

/-- How many parentheses have to open before each token of the expression: one for each operand that
binds looser than its place, and those of casts and calls. -/
def needs : Expr → List Nat
  | literal _ | ident _ | sizeofType _ | sizeofTag _ | sizeofExpr _ => [0]
  | call _ args => 0 :: raise 1 (argsNeeds args)
  | unary _ operand => 0 :: raise (operand.loose unaryPrecedence).toNat operand.needs
  | cast _ operand => 1 :: raise (operand.loose unaryPrecedence).toNat operand.needs
  | binary op left right =>
    raise (left.loose op.precedence).toNat left.needs ++
      0 :: raise (right.loose (op.precedence + 1)).toNat right.needs
  | ternary cond thenExpr elseExpr =>
    raise (cond.loose 1).toNat cond.needs ++ 0 :: (thenExpr.needs ++ 0 :: elseExpr.needs)

/-- The same for the arguments of a call and the commas between them. -/
def argsNeeds : List Expr → List Nat
  | [] => []
  | [e] => e.needs
  | e :: es => e.needs ++ 0 :: argsNeeds es

end

end Expr

/-! ### Derivations -/

namespace Expr

theorem loose_mono {e : Expr} {m n : Nat} (h : m ≤ n) :
    (e.loose m).toNat ≤ (e.loose n).toNat := by
  unfold loose
  by_cases hm : e.precedence < m
  · simp [hm, hm.trans_le h]
  · simp [hm]

theorem raise_loose {e : Expr} {n : Nat} (h : n ≤ e.precedence) (l : List Nat) :
    raise (e.loose n).toNat l = l := by
  rw [loose, decide_eq_false (Nat.not_lt.mpr h)]
  exact raise_zero l

theorem argsNeeds_cons (e : Expr) {es : List Expr} (h : es ≠ []) :
    argsNeeds (e :: es) = e.needs ++ 0 :: argsNeeds es := by
  cases es
  · exact absurd rfl h
  · rw [argsNeeds]
    simp

end Expr

/-- The tokens between `ts` and `rest` have the parentheses that the tree needs at the level. -/
def Spends (n : Nat) (ts : List TokenKind) (e : Expr) (rest : List TokenKind) : Prop :=
  ∃ ks l, ts = ks ++ rest ∧ Counts ks l ∧ Covers l (raise (e.loose n).toNat e.needs)

namespace Spends

variable {m n : Nat} {ts rest : List TokenKind} {l : List Nat} {e : Expr}

theorem looser (h : Spends n ts e rest) (hm : m ≤ n) : Spends m ts e rest := by
  obtain ⟨ks, l, hts, hc, hl⟩ := h
  exact ⟨ks, l, hts, hc, hl.lower (Expr.loose_mono hm)⟩

/-- Where the tree needs no parentheses around it. -/
theorem bare (ks : List TokenKind) (hn : n ≤ e.precedence) (hts : ts = ks ++ rest)
    (hc : Counts ks l) (hl : Covers l e.needs) : Spends n ts e rest :=
  ⟨ks, l, hts, hc, by rwa [Expr.raise_loose hn]⟩

theorem whole (h : Spends 0 ts e rest) :
    ∃ ks l, ts = ks ++ rest ∧ Counts ks l ∧ Covers l e.needs := by
  obtain ⟨ks, l, hts, hc, hl⟩ := h
  rw [Expr.raise_loose (Nat.zero_le _)] at hl
  exact ⟨ks, l, hts, hc, hl⟩

end Spends

/-- The same of a phrase of the category. In the tokens of arguments, the parenthesis that closes
them is left out. -/
def Category.Spends : Category → List TokenKind → Expr → List TokenKind → Prop
  | expr => Bindery.Spends 0
  | binary n => Bindery.Spends n
  | cast | unary => Bindery.Spends Expr.unaryPrecedence
  | atom => Bindery.Spends Expr.atomPrecedence
  | args f => fun ts e rest => ∃ es ks l, es ≠ [] ∧ e = .call f es ∧
      ts = ks ++ .punct .rParen :: rest ∧ Counts ks l ∧ Covers l (Expr.argsNeeds es)

/-- Whatever derives a tree has at least the parentheses that the tree needs. -/
theorem spends_of_derives {resolved : Bool} {c : Category} {ts rest : List TokenKind} {e : Expr}
    (h : Derives resolved c ts e rest) (hs : Expr.SizeofFree e) : c.Spends ts e rest := by
  induction h with
  | single _ ih => exact (ih hs).looser (Nat.zero_le 1)
  | ternary _ _ _ ihc iht ihf =>
    obtain ⟨ks₁, l₁, rfl, hc₁, hl₁⟩ := ihc (hs.child (by simp [Expr.children]))
    obtain ⟨ks₂, l₂, rfl, hc₂, hl₂⟩ := (iht (hs.child (by simp [Expr.children]))).whole
    obtain ⟨ks₃, l₃, rfl, hc₃, hl₃⟩ := (ihf (hs.child (by simp [Expr.children]))).whole
    refine .bare (ks₁ ++ .punct .question :: (ks₂ ++ .punct .colon :: ks₃)) (Nat.zero_le _)
      (by simp) (hc₁.append ((hc₂.append (hc₃.cons (by simp) (by simp))).cons (by simp) (by simp)))
      ?_
    rw [Expr.needs]
    exact hl₁.append (.cons (Nat.le_refl 0) (hl₂.append (.cons (Nat.le_refl 0) hl₃)))
  | tighter hn _ ih => exact (ih hs).looser (Nat.le_succ _)
  | operator _ hop _ ihl ihr =>
    obtain ⟨ks₁, l₁, rfl, hc₁, hl₁⟩ := ihl (hs.child (by simp [Expr.children]))
    obtain ⟨ks₂, l₂, rfl, hc₂, hl₂⟩ := ihr (hs.child (by simp [Expr.children]))
    obtain ⟨hp, rfl⟩ := mem_operatorsAt_iff.mp hop
    obtain ⟨hk₁, hk₂⟩ := ne_paren_of_binaryOp? hp
    refine .bare (ks₁ ++ _ :: ks₂) (Nat.le_refl _) (by simp)
      (hc₁.append (hc₂.cons hk₁ hk₂)) ?_
    rw [Expr.needs]
    exact hl₁.append (.cons (Nat.le_refl 0) hl₂)
  | operand _ ih => exact ih hs
  | @cast ts rest e name hn _ ih =>
    obtain ⟨ks, l, rfl, hc, hl⟩ := ih (hs.child (by simp [Expr.children]))
    have ht : Counts [.ident name] [0] := .token (by simp) (by simp)
    refine .bare _ (Nat.le_refl _) (by simp) (ht.paren.append hc) ?_
    rw [Expr.needs]
    exact .cons (Nat.le_refl 1) hl
  | uncast _ _ ih => exact ih hs
  | sizeofType hw =>
    rcases hw.tag_or_type with ⟨_, -, rfl⟩ | ⟨_, -, rfl⟩ <;> cases hs.here
  | sizeofExpr => cases hs.here
  | prefixed hop _ ih =>
    obtain ⟨ks, l, rfl, hc, hl⟩ := ih (hs.child (by simp [Expr.children]))
    obtain ⟨hk₁, hk₂⟩ := ne_paren_of_unaryOp? (mem_unaryOperators_iff.mp hop)
    refine .bare _ (Nat.le_refl _) (List.cons_append ..).symm (hc.cons hk₁ hk₂) ?_
    rw [Expr.needs]
    exact .cons (Nat.le_refl 0) hl
  | atom _ ih => exact (ih hs).looser (by decide)
  | @literal rest l =>
    refine .bare [.literal l] (Nat.le_refl _) rfl (.token (by simp) (by simp)) ?_
    rw [Expr.needs]
    exact .cons (Nat.le_refl 0) .nil
  | @name rest n _ =>
    refine .bare [.ident n] (Nat.le_refl _) rfl (.token (by simp) (by simp)) ?_
    rw [Expr.needs]
    exact .cons (Nat.le_refl 0) .nil
  | @emptyCall rest f _ =>
    refine .bare _ (Nat.le_refl _) rfl (.emptyCall f) ?_
    rw [Expr.needs]
    exact .cons (Nat.le_refl 0) .nil
  | @call ts rest e f _ _ ih =>
    obtain ⟨es, ks, l, -, rfl, rfl, hc, hl⟩ := ih hs
    refine .bare (.ident f :: .punct .lParen :: (ks ++ [.punct .rParen])) (Nat.le_refl _)
      (by simp) (hc.paren.cons (by simp) (by simp)) ?_
    rw [Expr.needs]
    exact .cons (Nat.le_refl 0) (hl.raise (Nat.le_refl 1))
  | paren _ ih =>
    -- One pair is all that an operand can need around it.
    obtain ⟨ks, l, rfl, hc, hl⟩ := (ih hs).whole
    exact ⟨_, _, by simp, hc.paren, hl.raise (Bool.toNat_le _)⟩
  | @lastArg ts rest e f _ ih =>
    obtain ⟨ks, l, rfl, hc, hl⟩ := (ih (hs.child (by simp [Expr.children]))).whole
    exact ⟨[e], ks, l, by simp, rfl, rfl, hc, by rwa [Expr.argsNeeds]⟩
  | @moreArgs ts r₁ rest e es f _ _ ih ihs =>
    have hes : Expr.SizeofFree (.call f es) :=
      .node rfl fun a ha => hs.child (List.mem_cons_of_mem _ ha)
    obtain ⟨ks₁, l₁, rfl, hc₁, hl₁⟩ := (ih (hs.child (by simp [Expr.children]))).whole
    obtain ⟨es', ks₂, l₂, hne, heq, rfl, hc₂, hl₂⟩ := ihs hes
    cases heq
    refine ⟨e :: es, ks₁ ++ .punct .comma :: ks₂, _, by simp, rfl, by simp,
      hc₁.append (hc₂.cons (by simp) (by simp)), ?_⟩
    rw [Expr.argsNeeds_cons e hne]
    exact hl₁.append (.cons (Nat.le_refl 0) hl₂)

/-! ### What the printer writes -/

/-- The lists have the same first entry and are as long as each other. -/
inductive Aligned : List Nat → List Nat → Prop where
  | mk (n) {l l'} (h : l.length = l'.length) : Aligned (n :: l) (n :: l')

namespace Aligned

variable {l l' m m' : List Nat}

theorem length (h : Aligned l l') : l.length = l'.length := by
  obtain ⟨_, h⟩ := h
  simp [h]

theorem ne_nil (h : Aligned l l') : l ≠ [] := by
  obtain ⟨_, _⟩ := h
  simp

theorem raise (h : Aligned l l') (k : Nat) : Aligned (raise k l) (raise k l') := by
  obtain ⟨n, h⟩ := h
  exact .mk (k + n) h

theorem append (h : Aligned l l') (hm : m.length = m'.length) : Aligned (l ++ m) (l' ++ m') := by
  obtain ⟨n, h⟩ := h
  exact .mk n (by simp [h, hm])

theorem spaced (h : Aligned l l') (hm : Aligned m m') : Aligned (l ++ 0 :: m) (l' ++ 0 :: m') :=
  h.append (by simp [hm.length])

end Aligned

namespace Expr

theorem argsKinds_cons (e : Expr) {es : List Expr} (h : es ≠ []) :
    argsKinds (e :: es) = e.kinds ++ .punct .comma :: argsKinds es := by
  cases es
  · exact absurd rfl h
  · rw [argsKinds]
    simp

theorem argsChars_cons (e : Expr) {es : List Expr} (h : es ≠ []) :
    argsChars (e :: es) = e.chars ++ ',' :: ' ' :: argsChars es := by
  cases es
  · exact absurd rfl h
  · rw [argsChars]
    simp

theorem exists_counts_argsKinds : ∀ {args : List Expr}, args ≠ [] →
    (∀ a ∈ args, ∃ l, Counts a.kinds l ∧ Aligned a.needs l) →
    ∃ l, Counts (argsKinds args) l ∧ Aligned (argsNeeds args) l
  | [], h, _ => absurd rfl h
  | [e], _, h => by
    rw [argsKinds, argsNeeds]
    exact h e (by simp)
  | e :: e' :: es, _, h => by
    obtain ⟨l, hc, hl⟩ := h e (by simp)
    obtain ⟨l', hc', hl'⟩ := exists_counts_argsKinds (List.cons_ne_nil e' es)
      fun a ha => h a (List.mem_cons_of_mem _ ha)
    rw [argsKinds_cons e (by simp), argsNeeds_cons e (by simp)]
    exact ⟨_, hc.append (hc'.cons (by simp) (by simp)), hl.append (by simp [hl'.length])⟩

/-- The printer writes as many tokens as the tree has, and before the first of them no parenthesis
that is not needed. -/
theorem exists_counts_kinds {e : Expr} (h : SizeofFree e) :
    ∃ l, Counts e.kinds l ∧ Aligned e.needs l := by
  induction h with
  | @node e hs _ ih =>
    cases e with
    | literal l =>
      rw [kinds, needs]
      exact ⟨_, .token (by simp) (by simp), .mk 0 rfl⟩
    | ident name =>
      rw [kinds, needs]
      exact ⟨_, .token (by simp) (by simp), .mk 0 rfl⟩
    | call callee args =>
      rw [kinds, needs]
      rcases args with _ | ⟨a, as⟩
      · rw [argsKinds, argsNeeds]
        exact ⟨_, .emptyCall callee, .mk 0 rfl⟩
      · obtain ⟨l, hc, hl⟩ := exists_counts_argsKinds (List.cons_ne_nil a as) ih
        exact ⟨_, hc.paren.cons (by simp) (by simp), .mk 0 (by simp [hl.length])⟩
    | unary op operand =>
      obtain ⟨l, hc, hl⟩ := ih operand (by simp [children])
      rw [kinds, needs]
      exact ⟨_, (hc.wrapped _).cons (by cases op <;> decide) (by cases op <;> decide),
        .mk 0 (by simp [hl.length])⟩
    | cast target operand =>
      obtain ⟨l, hc, hl⟩ := ih operand (by simp [children])
      have ht : Counts [.ident (Ty.ofName target).spelling] [0] := .token (by simp) (by simp)
      rw [kinds, needs]
      exact ⟨_, ht.paren.append (hc.wrapped _), .mk 1 (by simp [hl.length])⟩
    | sizeofType | sizeofTag | sizeofExpr => cases hs
    | binary op left right =>
      obtain ⟨l, hc, hl⟩ := ih left (by simp [children])
      obtain ⟨r, hcr, hr⟩ := ih right (by simp [children])
      rw [kinds, needs]
      exact ⟨_, (hc.wrapped _).append ((hcr.wrapped _).cons (by cases op <;> decide)
        (by cases op <;> decide)), (hl.raise _).append (by simp [hr.length])⟩
    | ternary cond thenExpr elseExpr =>
      obtain ⟨l, hc, hl⟩ := ih cond (by simp [children])
      obtain ⟨l₂, hc₂, hl₂⟩ := ih thenExpr (by simp [children])
      obtain ⟨l₃, hc₃, hl₃⟩ := ih elseExpr (by simp [children])
      rw [kinds, needs]
      have hw : decide (cond.precedence ≤ ternaryPrecedence) = cond.loose 1 := by
        simp [loose, ternaryPrecedence]
      rw [hw]
      exact ⟨_, (hc.wrapped _).append ((hc₂.append (hc₃.cons (by simp) (by simp))).cons (by simp)
        (by simp)), (hl.raise _).append (by simp [hl₂.length, hl₃.length])⟩

/-! ### The host form -/

theorem loose_hostForm (e : Expr) (n : Nat) : e.hostForm.loose n = e.loose n := by
  rw [loose, loose, precedence_hostForm]

theorem isSizeof_hostForm {e : Expr} (h : e.isSizeof = false) : e.hostForm.isSizeof = false := by
  cases e with
  | sizeofType | sizeofTag | sizeofExpr => cases h
  | _ => rw [hostForm]; rfl

theorem children_hostForm {e : Expr} (h : e.isSizeof = false) :
    e.hostForm.children = e.children.map hostForm := by
  cases e with
  | sizeofType | sizeofTag | sizeofExpr => cases h
  | call callee args => rw [hostForm, hostForms_eq_map]; rfl
  | _ => rw [hostForm]; rfl

theorem SizeofFree.hostForm {e : Expr} (h : SizeofFree e) : SizeofFree e.hostForm := by
  induction h with
  | node hs _ ih =>
    refine .node (isSizeof_hostForm hs) ?_
    rw [children_hostForm hs]
    exact List.forall_mem_map.mpr ih

theorem argsNeeds_map {f : Expr → Expr} : ∀ {args : List Expr},
    (∀ a ∈ args, (f a).needs = a.needs) → argsNeeds (args.map f) = argsNeeds args
  | [], _ => rfl
  | [e], h => by simpa [argsNeeds] using h e (by simp)
  | e :: e' :: es, h => by
    have hs := argsNeeds_map fun a ha => h a (List.mem_cons_of_mem _ ha)
    rw [List.map_cons, argsNeeds_cons _ (by simp), argsNeeds_cons _ (by simp), h e (by simp), hs]

theorem needs_hostForm {e : Expr} (h : SizeofFree e) : e.hostForm.needs = e.needs := by
  induction h with
  | @node e hs _ ih =>
    cases e with
    | literal l => rw [hostForm, needs, needs]
    | ident name => rw [hostForm]
    | call callee args =>
      have hargs : argsNeeds (args.map hostForm) = argsNeeds args := argsNeeds_map ih
      rw [hostForm, hostForms_eq_map, needs, needs, hargs]
    | unary op operand =>
      rw [hostForm, needs, needs, loose_hostForm, ih operand (by simp [children])]
    | cast target operand =>
      rw [hostForm, needs, needs, loose_hostForm, ih operand (by simp [children])]
    | sizeofType | sizeofTag | sizeofExpr => cases hs
    | binary op left right =>
      rw [hostForm, needs, needs, loose_hostForm, loose_hostForm, ih left (by simp [children]),
        ih right (by simp [children])]
    | ternary cond thenExpr elseExpr =>
      rw [hostForm, needs, needs, loose_hostForm, ih cond (by simp [children]),
        ih thenExpr (by simp [children]), ih elseExpr (by simp [children])]

end Expr

end Bindery
