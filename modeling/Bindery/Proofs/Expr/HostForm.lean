import Bindery.Proofs.Expr.HostText

/-!
# Reading host text back

`Expr.hostForm` is the tree that comes back when a tree is printed and parsed again. Literals in
octal come back in decimal and cast targets under their host names. The operand of `sizeof` comes
back as a base type where it is printed as a name that the type table has, and otherwise as a
reference.

The tokens of a tree derive its host form (`readsBack_hostForm`): parentheses stand where the
grammar needs them, and what they hold is never a name alone, which would be a cast.
-/

namespace Bindery

namespace Expr

/-- What `sizeof` of a name in parentheses is read as. -/
def sizeofName (name : String) : Expr :=
  match Ty.ofName? name with
  | some ty => sizeofType ty
  | none => sizeofExpr (ident name)

mutual

/-- The tree that the host text of the expression is read as. -/
def hostForm : Expr → Expr
  | literal l => literal l.host
  | ident name => ident name
  | call callee args => call callee (hostForms args)
  | unary op operand => unary op operand.hostForm
  | cast target operand => cast (Ty.ofName target).spelling operand.hostForm
  | sizeofType ty => sizeofType ty
  | sizeofTag tag => sizeofName tag
  | sizeofExpr (literal l) => sizeofName l.ty.sizeofSpelling
  | sizeofExpr (ident name) => sizeofName name
  | sizeofExpr operand => sizeofExpr operand.hostForm
  | binary op left right => binary op left.hostForm right.hostForm
  | ternary cond thenExpr elseExpr => ternary cond.hostForm thenExpr.hostForm elseExpr.hostForm

/-- The trees of the arguments of a call. -/
def hostForms : List Expr → List Expr
  | [] => []
  | e :: es => e.hostForm :: hostForms es

end

theorem hostForms_eq_map : ∀ es : List Expr, hostForms es = es.map hostForm
  | [] => by rw [hostForms]; rfl
  | e :: es => by rw [hostForms, hostForms_eq_map es]; rfl

/-! ### The first tokens of a tree -/

/-- The tokens begin with a bracket, an operator or a literal, or with a name before a bracket or an
operator that does not close. -/
def OpensPhrase (ks : List TokenKind) : Prop :=
  (∃ k ks', ks = k :: ks' ∧ ∀ name, k ≠ .ident name) ∨
    ∃ name p ks', ks = .ident name :: .punct p :: ks' ∧ p ≠ .rParen

/-- An operand before an operator opens a phrase, also when it is a name. -/
theorem opensPhrase_operand {l : Expr} {p : Punct} (hp : p ≠ .rParen)
    (h : (∃ name, l = ident name) ∨ OpensPhrase l.kinds) (wrap : Bool) (ks : List TokenKind) :
    OpensPhrase (wrappedKinds wrap l.kinds ++ .punct p :: ks) := by
  cases wrap with
  | false =>
    rcases h with ⟨name, rfl⟩ | ⟨k, ks', hk, hn⟩ | ⟨name, q, ks', hk, hq⟩
    · exact .inr ⟨name, p, ks, by simp [wrappedKinds, kinds], hp⟩
    · exact .inl ⟨k, _, by simp [wrappedKinds, hk]; rfl, hn⟩
    · exact .inr ⟨name, q, _, by simp [wrappedKinds, hk]; rfl, hq⟩
  | true => exact .inl ⟨.punct .lParen, _, by simp [wrappedKinds]; rfl, fun _ => by simp⟩

theorem kinds_cases : ∀ e : Expr, (∃ name, e = ident name) ∨ OpensPhrase e.kinds
  | literal l => .inr (.inl ⟨_, _, by rw [kinds], fun _ => by simp⟩)
  | ident name => .inl ⟨name, rfl⟩
  | call callee args => .inr (.inr ⟨_, .lParen, _, by rw [kinds], by decide⟩)
  | unary op operand => .inr (.inl ⟨_, _, by rw [kinds], fun _ => by simp⟩)
  | cast target operand => .inr (.inl ⟨_, _, by rw [kinds], fun _ => by simp⟩)
  | sizeofType ty => .inr (.inr ⟨_, .lParen, _, by rw [kinds]; rfl, by decide⟩)
  | sizeofTag tag => .inr (.inr ⟨_, .lParen, _, by rw [kinds]; rfl, by decide⟩)
  | sizeofExpr operand => .inr (.inr ⟨_, .lParen, _, by rw [kinds]; rfl, by decide⟩)
  | binary op left right => by
    rw [kinds]
    exact .inr (opensPhrase_operand (by cases op <;> decide) (kinds_cases left) _ _)
  | ternary cond thenExpr elseExpr => by
    rw [kinds]
    exact .inr (opensPhrase_operand (by decide) (kinds_cases cond) _ _)

/-- In parentheses, a tree that is no name alone does not look like a cast. -/
theorem not_castAhead_kinds {e : Expr} (he : ∀ name, e ≠ ident name) (rest : List TokenKind) :
    ¬ CastAhead (.punct .lParen :: (e.kinds ++ .punct .rParen :: rest)) := by
  rintro ⟨name, k, r, heq, -⟩
  have h := (List.cons.inj heq).2
  rcases e.kinds_cases with ⟨n, rfl⟩ | ⟨k', ks, hk, hn⟩ | ⟨n, p, ks, hk, hp⟩
  · exact he n rfl
  · rw [hk] at h
    exact hn name (List.cons.inj h).1
  · rw [hk] at h
    have := (List.cons.inj (List.cons.inj h).2).1
    exact hp (by simpa using this)

/-- In parentheses, a tree that is no name alone does not spell a base type. -/
theorem not_baseTypeAhead_kinds {e : Expr} (he : ∀ name, e ≠ ident name) (rest : List TokenKind) :
    ¬ BaseTypeAhead (.punct .lParen :: (e.kinds ++ .punct .rParen :: rest)) := by
  rintro ⟨words, _, r, heq, hw⟩
  have h := (List.cons.inj heq).2
  rcases words with _ | ⟨w, ws⟩
  · cases spellsBaseType_iff.mp hw
  rcases e.kinds_cases with ⟨n, rfl⟩ | ⟨k', ks, hk, hn⟩ | ⟨n, p, ks, hk, hp⟩
  · exact he n rfl
  · rw [hk] at h
    exact hn w (List.cons.inj h).1
  · rw [hk] at h
    have h := (List.cons.inj h).2
    rcases ws with _ | ⟨w', ws⟩
    · exact hp (by simpa using (List.cons.inj h).1)
    · cases (List.cons.inj h).1

/-! ### The derivation of the host form -/

/-- The phrase that the printer writes for a tree. -/
def category : Expr → Category
  | literal _ | ident _ | call .. => .atom
  | cast .. => .cast
  | unary .. | sizeofType _ | sizeofTag _ | sizeofExpr _ => .unary
  | binary op .. => .binary op.precedence
  | ternary .. => .expr

/-- What is printed for the tree is derived to `e'`, whatever follows. -/
def ReadsBack (e e' : Expr) : Prop :=
  ∀ rest, Derives true e.category (e.kinds ++ rest) e' rest

namespace ReadsBack

variable {e e' : Expr}

/-- Without parentheses as an operand of a prefix operator. -/
theorem cast (h : ReadsBack e e') (hp : unaryPrecedence ≤ e.precedence) (rest : List TokenKind) :
    Derives true .cast (e.kinds ++ rest) e' rest := by
  have hd := h rest
  have hne : ∀ {k : TokenKind} {ks : List TokenKind}, k ≠ .punct .lParen →
      ¬ CastAhead (k :: ks) := by
    rintro k ks hk ⟨_, _, _, heq, -⟩
    exact hk (List.cons.inj heq).1
  cases e with
  | literal l | ident name | call callee args =>
    refine .uncast (fun _ => ?_) (.atom hd)
    rw [kinds]
    exact hne (by simp)
  | unary op operand =>
    refine .uncast (fun _ => ?_) hd
    rw [kinds]
    exact hne (by cases op <;> decide)
  | sizeofType ty | sizeofTag tag | sizeofExpr operand =>
    refine .uncast (fun _ => ?_) hd
    rw [kinds]
    exact hne (by simp)
  | cast target operand => exact hd
  | binary op left right =>
    have := op.precedence_lt
    simp only [precedence, unaryPrecedence] at hp
    omega
  | ternary => simp [precedence, unaryPrecedence, ternaryPrecedence] at hp

/-- Without parentheses as an operand of a binary operator. -/
theorem binary (h : ReadsBack e e') {n : Nat} (hn : n ≤ 11) (hp : n ≤ e.precedence)
    (h₁ : 1 ≤ n) (rest : List TokenKind) :
    Derives true (.binary n) (e.kinds ++ rest) e' rest := by
  by_cases hu : unaryPrecedence ≤ e.precedence
  · exact .looser (.operand (h.cast hu rest)) hn (Nat.le_refl 11)
  · have hd := h rest
    cases e with
    | binary op left right => exact hd.looser hp (Nat.le_of_lt op.precedence_lt)
    | ternary =>
      simp only [precedence, ternaryPrecedence] at hp
      omega
    | _ => exact absurd (by simp [precedence, unaryPrecedence, atomPrecedence]) hu

/-- A whole expression. -/
theorem expr (h : ReadsBack e e') (rest : List TokenKind) :
    Derives true .expr (e.kinds ++ rest) e' rest := by
  have hd := h rest
  cases e with
  | ternary => exact hd
  | binary op left right =>
    exact .single (h.binary (by omega) op.precedence_pos (Nat.le_refl 1) rest)
  | _ => exact .single (h.binary (by omega) (by simp [precedence, unaryPrecedence, atomPrecedence])
      (Nat.le_refl 1) rest)

/-- In parentheses. -/
theorem paren (h : ReadsBack e e') (rest : List TokenKind) :
    Derives true .atom (.punct .lParen :: (e.kinds ++ .punct .rParen :: rest)) e' rest :=
  .paren (h.expr _)

/-- An operand of a prefix operator, in parentheses where it binds looser or would join its sign. -/
theorem operand (h : ReadsBack e e') {wrap : Bool}
    (hw : wrap = false → unaryPrecedence ≤ e.precedence) (hn : wrap → ∀ name, e ≠ ident name)
    (rest : List TokenKind) : Derives true .cast (wrappedKinds wrap e.kinds ++ rest) e' rest := by
  cases wrap with
  | false => exact h.cast (hw rfl) rest
  | true =>
    have hd := Derives.uncast (fun _ => not_castAhead_kinds (hn rfl) rest) (.atom (h.paren rest))
    simpa [wrappedKinds] using hd

/-- An operand of a binary operator, in parentheses where it binds looser. -/
theorem binaryOperand (h : ReadsBack e e') {n : Nat} {wrap : Bool} (h₁ : 1 ≤ n) (hn : n ≤ 11)
    (hw : wrap = decide (e.precedence < n)) (rest : List TokenKind) :
    Derives true (.binary n) (wrappedKinds wrap e.kinds ++ rest) e' rest := by
  subst hw
  by_cases hlt : e.precedence < n
  · rw [decide_eq_true hlt]
    have hd : Derives true .cast (wrappedKinds true e.kinds ++ rest) e' rest := by
      refine h.operand (fun hw => by cases hw) ?_ rest
      rintro - name rfl
      simp only [precedence, atomPrecedence] at hlt
      omega
    exact .looser (.operand hd) hn (Nat.le_refl 11)
  · rw [decide_eq_false hlt]
    exact h.binary hn (by omega) h₁ rest

end ReadsBack

/-- The tree can be read back: `sizeof` of a tag that is itself called `sizeof` cannot. -/
abbrev Rereadable : Expr → Prop := Every fun e => HasReadableWords e ∧ e ≠ sizeofTag "sizeof"

/-- A name that the type table has is a base type. -/
theorem derives_sizeofType {name : String} {ty : Ty} (h : Ty.ofName? name = some ty)
    (rest : List TokenKind) :
    Derives true .unary (sizeofKinds [.ident name] ++ rest) (sizeofType ty) rest := by
  exact @Derives.sizeofType true rest _ [name] (.name h)

theorem derives_sizeofName {name : String} (hn : name ≠ "sizeof") (rest : List TokenKind) :
    Derives true .unary (sizeofKinds [.ident name] ++ rest) (sizeofName name) rest := by
  rw [sizeofName]
  cases ht : Ty.ofName? name with
  | some ty => exact derives_sizeofType ht rest
  | none =>
    have hb := baseType?_singleton name
    rw [ht] at hb
    refine .sizeofExpr (fun _ => ?_) (.nameInParens hn)
    rintro ⟨words, _, r, heq, hw⟩
    have hw := spellsBaseType_iff.mp hw
    rcases words with _ | ⟨w, _ | ⟨w', ws⟩⟩
    · cases hw
    · cases heq
      rw [hb] at hw
      cases hw
    · cases heq

theorem derives_sizeof {e e' : Expr} (h : ReadsBack e e') (he : ∀ name, e ≠ ident name)
    (rest : List TokenKind) :
    Derives true .unary (sizeofKinds e.kinds ++ rest) (sizeofExpr e') rest := by
  have hd := Derives.sizeofExpr (fun _ => not_baseTypeAhead_kinds he rest) (.atom (h.paren rest))
  simpa [sizeofKinds] using hd

theorem derives_args (callee : String) (rest : List TokenKind) : ∀ {args : List Expr}, args ≠ [] →
    (∀ a ∈ args, ReadsBack a a.hostForm) →
      Derives true (.args callee) (argsKinds args ++ .punct .rParen :: rest)
        (.call callee (hostForms args)) rest
  | [], h, _ => absurd rfl h
  | [e], _, h => by
    simpa [argsKinds, hostForms] using Derives.lastArg (f := callee) ((h e (by simp)).expr _)
  | e :: e' :: es, _, h => by
    have hs := derives_args callee rest (List.cons_ne_nil e' es)
      fun a ha => h a (List.mem_cons_of_mem _ ha)
    simpa [argsKinds, hostForms] using Derives.moreArgs ((h e (by simp)).expr _) hs

theorem spelling_ofName_ne_sizeof {name : String} (h : name ≠ "sizeof") :
    (Ty.ofName name).spelling ≠ "sizeof" := by
  rw [Ty.ofName]
  cases hn : Ty.ofName? name with
  | none => exact h
  | some ty =>
    have hb := Ty.isBase_of_ofName? hn
    rw [Option.getD_some]
    cases ty <;> first | decide | cases hb

theorem sizeofSpelling_ne_sizeof {ty : Ty} (h : ∀ name, ty ≠ .named name) :
    ty.sizeofSpelling ≠ "sizeof" := by
  cases ty <;> first | exact absurd rfl (h _) | decide

/-- A tree is read back in its host form. -/
theorem readsBack_hostForm {e : Expr} (h : Rereadable e) : ReadsBack e e.hostForm := by
  induction h with
  | @node e h hc ih =>
    obtain ⟨h, ht⟩ := h
    intro rest
    cases e with
    | literal l =>
      rw [kinds, hostForm]
      exact .literal
    | ident name =>
      rw [kinds, hostForm]
      exact .name h.2
    | call callee args =>
      rw [kinds, hostForm]
      cases args with
      | nil =>
        rw [argsKinds, hostForms]
        exact .emptyCall h.2
      | cons a as =>
        have hd := derives_args callee rest (List.cons_ne_nil a as) ih
        simpa [category] using Derives.call h.2 hd
    | unary op operand =>
      rw [kinds, hostForm]
      have hop := mem_unaryOperators_iff.mpr op.unaryOp?_punct
      refine .prefixed hop ((ih operand (by simp [children])).operand ?_ ?_ rest)
      · intro hw
        simp only [Bool.or_eq_false_iff, decide_eq_false_iff_not] at hw
        omega
      · rintro hw name rfl
        cases op <;> simp [precedence, unaryPrecedence, atomPrecedence, sameSign] at hw
    | cast target operand =>
      rw [kinds, hostForm]
      refine .cast (spelling_ofName_ne_sizeof h.2)
        ((ih operand (by simp [children])).operand ?_ ?_ rest)
      · intro hw
        simp only [decide_eq_false_iff_not] at hw
        omega
      · rintro hw name rfl
        simp [precedence, unaryPrecedence, atomPrecedence] at hw
    | sizeofType ty =>
      rw [kinds, hostForm]
      exact derives_sizeofType (Ty.ofName?_spelling h) rest
    | sizeofTag tag =>
      rw [kinds, hostForm]
      exact derives_sizeofName (by rintro rfl; exact ht rfl) rest
    | sizeofExpr operand =>
      have ho := ih operand (by simp [children])
      have hw := (hc operand (by simp [children])).here.1
      rw [kinds]
      cases operand with
      | literal l =>
        rw [hostForm]
        have hs := sizeofSpelling_ne_sizeof (Literal.WellSpelled.ty_ne_named hw)
        exact derives_sizeofName hs rest
      | ident name =>
        rw [hostForm]
        simp only [literalTy?, kinds]
        exact derives_sizeofName hw.2 rest
      | _ =>
        rw [hostForm] <;> try simp
        exact derives_sizeof ho (by simp) rest
    | binary op left right =>
      rw [kinds, hostForm]
      have hw : decide (right.precedence ≤ op.precedence) =
          decide (right.precedence < op.precedence + 1) :=
        decide_eq_decide.mpr Nat.lt_succ_iff.symm
      have hr := (ih right (by simp [children])).binaryOperand (by omega)
        (by have := op.precedence_lt; omega) hw rest
      have hl := (ih left (by simp [children])).binaryOperand op.precedence_pos
        (Nat.le_of_lt op.precedence_lt) rfl
        (.punct op.punct :: (wrappedKinds (right.precedence ≤ op.precedence) right.kinds ++ rest))
      have hop := mem_operatorsAt_iff.mpr ⟨op.binaryOp?_punct, rfl⟩
      simpa [category] using Derives.operator hl hop hr
    | ternary cond thenExpr elseExpr =>
      rw [kinds, hostForm]
      have hf := (ih elseExpr (by simp [children])).expr rest
      have ht := (ih thenExpr (by simp [children])).expr
        (.punct .colon :: (elseExpr.kinds ++ rest))
      have hw : decide (cond.precedence ≤ ternaryPrecedence) = decide (cond.precedence < 1) := by
        simp [ternaryPrecedence]
      have hc := (ih cond (by simp [children])).binaryOperand (Nat.le_refl 1) (by omega) hw
        (.punct .question :: (thenExpr.kinds ++ .punct .colon :: (elseExpr.kinds ++ rest)))
      simpa [category] using Derives.ternary hc ht hf

theorem kinds_ne_nil (e : Expr) : e.kinds ≠ [] := by
  rcases e.kinds_cases with ⟨_, rfl⟩ | ⟨_, _, h, -⟩ | ⟨_, _, _, h, -⟩
  · simp [kinds]
  · simp [h]
  · simp [h]

/-- The text of a tree is parsed to its host form. -/
theorem parse_render_of_rereadable {e : Expr} (h : Rereadable e) :
    Expr.parse e.render = .ok e.hostForm := by
  obtain ⟨tokens, ht, hk⟩ := tokenize_render (h.imp fun _ => And.left)
  have hne : tokens ≠ [] := by
    rintro rfl
    exact e.kinds_ne_nil hk.symm
  rw [parse_eq_ok_iff_derives ht hne, hk]
  simpa using (readsBack_hostForm h).expr []

/-! ### Trees without `sizeof` -/

def isSizeof : Expr → Bool
  | sizeofType _ | sizeofTag _ | sizeofExpr _ => true
  | _ => false

/-- There is no `sizeof` in the tree. -/
abbrev SizeofFree : Expr → Prop := Every fun e => e.isSizeof = false

theorem SizeofFree.rereadable {e : Expr} (h : SizeofFree e) (hr : Readable e) : Rereadable e := by
  refine (hr.and h).imp fun e he => ⟨he.1, ?_⟩
  rintro rfl
  cases he.2

/-- A parsed tree without `sizeof` is printed as a text of its host form: nothing changes but
octal literals, which come back in decimal, and the names of cast targets. -/
theorem parse_render_of_parse {text : String} {e : Expr} (h : Expr.parse text = .ok e)
    (hs : SizeofFree e) : Expr.parse e.render = .ok e.hostForm :=
  parse_render_of_rereadable (hs.rereadable (readable_of_parse h))

/-- `(uint32_t)017 - -(x << 2)` comes back with a host type and a decimal literal. -/
theorem parse_render_of_octal_in_cast :
    Expr.parse "(uint32_t)017 - -(x << 2)" = .ok (binary .sub
        (cast "uint32_t" (literal (.int ⟨15, .octal, "17", .i32⟩)))
        (unary .neg (binary .shl (ident "x") (literal (.int ⟨2, .decimal, "2", .i32⟩))))) ∧
      Expr.parse "(uint)15 - -(x << 2)" = .ok (binary .sub
        (cast "uint" (literal (.int ⟨15, .decimal, "15", .i32⟩)))
        (unary .neg (binary .shl (ident "x") (literal (.int ⟨2, .decimal, "2", .i32⟩))))) := by
  have hp : Expr.parse "(uint32_t)017 - -(x << 2)" = .ok (binary .sub
      (cast "uint32_t" (literal (.int ⟨15, .octal, "17", .i32⟩)))
      (unary .neg (binary .shl (ident "x") (literal (.int ⟨2, .decimal, "2", .i32⟩))))) := by cbv
  have hs : SizeofFree (binary .sub (cast "uint32_t" (literal (.int ⟨15, .octal, "17", .i32⟩)))
      (unary .neg (binary .shl (ident "x") (literal (.int ⟨2, .decimal, "2", .i32⟩))))) := by
    have leaf : ∀ {e : Expr}, e.isSizeof = false → e.children = [] → SizeofFree e :=
      fun h hc => .node h (by simp [hc])
    refine .node rfl (List.forall_mem_cons.mpr ⟨.node rfl ?_, List.forall_mem_singleton.mpr
      (.node rfl (List.forall_mem_singleton.mpr (.node rfl ?_)))⟩)
    · exact List.forall_mem_singleton.mpr (leaf rfl rfl)
    · exact List.forall_mem_cons.mpr
        ⟨leaf rfl rfl, List.forall_mem_singleton.mpr (leaf rfl rfl)⟩
  have hr := parse_render_of_parse hp hs
  refine ⟨hp, ?_⟩
  have ht : (binary .sub (cast "uint32_t" (literal (.int ⟨15, .octal, "17", .i32⟩)))
      (unary .neg (binary .shl (ident "x") (literal (.int ⟨2, .decimal, "2", .i32⟩))))).render =
      "(uint)15 - -(x << 2)" := by cbv
  rw [ht] at hr
  exact hr

end Expr

end Bindery
