import Bindery.Expr.Constant
import Bindery.Expr.Typing
import Bindery.Proofs.Expr.HostForm

/-!
# What a second rewriting keeps

A tree is rewritten stably when its text is parsed to a tree of the same type, constness and text.
The type is always kept. The rest depends on `sizeof`, whose operand is printed as a name where it
is a tag, a literal or a name: `rewritesStably_iff` is the exact condition. A tag or a name has to
be its own host spelling, and a tag must not be `sizeof`, which no `sizeof` takes without a keyword.
A name that the type table has comes back as a type, which is a constant where the tag was none, and
`string`, the spelling of a string literal's type, comes back as a reference, which is none where
the literal was one.
-/

namespace Bindery

namespace Expr

/-- The text of the tree is parsed, to a tree with the same type and constness in every environment,
and with the same text. -/
def RewritesStably (e : Expr) : Prop :=
  ∃ e', Expr.parse e.render = .ok e' ∧
    (∀ env, e'.type? env = e.type? env ∧ e'.isConstant env = e.isConstant env) ∧
      e'.render = e.render

/-! ### The type -/

theorem type?_sizeofName (name : String) (env : MacroEnv) :
    (sizeofName name).type? env = some .i32 := by
  unfold sizeofName
  split <;> rfl

theorem type?_hostForm (env : MacroEnv) : ∀ e : Expr, e.hostForm.type? env = e.type? env
  | literal l => by simp [hostForm, type?, l.ty_host]
  | ident name => rfl
  | call callee args => by rw [hostForm]; rfl
  | unary op operand => by
    rw [hostForm]
    cases op <;> simp [type?, type?_hostForm env operand]
  | cast target operand => by simp [hostForm, type?, Ty.ofName_spelling_ofName]
  | sizeofType ty => rfl
  | sizeofTag tag => by rw [hostForm, type?_sizeofName]; rfl
  | sizeofExpr operand => by
    cases operand <;> simp [hostForm, type?, type?_sizeofName]
  | binary op left right => by
    simp [hostForm, type?, type?_hostForm env left, type?_hostForm env right]
  | ternary cond thenExpr elseExpr => by
    simp [hostForm, type?, type?_hostForm env elseExpr]

/-! ### The constness -/

/-- The names that the constness of the tree depends on. -/
def references : Expr → List String
  | ident name => [name]
  | unary _ operand | cast _ operand => operand.references
  | binary _ left right => left.references ++ right.references
  | ternary cond thenExpr elseExpr =>
    cond.references ++ thenExpr.references ++ elseExpr.references
  | _ => []

theorem references_sizeofName (name : String) : (sizeofName name).references = [] := by
  unfold sizeofName
  split <;> rfl

theorem references_hostForm : ∀ e : Expr, e.hostForm.references = e.references
  | literal l => rfl
  | ident name => rfl
  | call callee args => by rw [hostForm]; rfl
  | unary op operand => by simp [hostForm, references, references_hostForm operand]
  | cast target operand => by simp [hostForm, references, references_hostForm operand]
  | sizeofType ty => rfl
  | sizeofTag tag => by rw [hostForm, references_sizeofName]; rfl
  | sizeofExpr operand => by
    cases operand <;> simp [hostForm, references, references_sizeofName]
  | binary op left right => by
    simp [hostForm, references, references_hostForm left, references_hostForm right]
  | ternary cond thenExpr elseExpr => by
    simp [hostForm, references, references_hostForm cond, references_hostForm thenExpr,
      references_hostForm elseExpr]

/-- A tree is a constant when nothing but its references keeps it from being one, and they do not.
-/
theorem isConstantWith_eq (refs : String → Bool) : ∀ e : Expr,
    e.isConstantWith refs = (e.isConstantWith (fun _ => true) && e.references.all refs)
  | literal l => rfl
  | ident name => by simp [isConstantWith, references]
  | call callee args => rfl
  | unary op operand => by simpa [isConstantWith, references] using isConstantWith_eq refs operand
  | cast target operand => by
    simpa [isConstantWith, references] using isConstantWith_eq refs operand
  | sizeofType ty => rfl
  | sizeofTag tag => rfl
  | sizeofExpr operand => by cases operand <;> rfl
  | binary op left right => by
    simp only [isConstantWith, references, isConstantWith_eq refs left,
      isConstantWith_eq refs right, List.all_append]
    ac_rfl
  | ternary cond thenExpr elseExpr => by
    simp only [isConstantWith, references, isConstantWith_eq refs cond,
      isConstantWith_eq refs thenExpr, isConstantWith_eq refs elseExpr, List.all_append]
    ac_rfl

/-- An environment in which the names are constants. -/
def constants (names : List String) : MacroEnv :=
  names.map fun name => (name, ⟨some .i32, none, some true⟩)

theorem find?_constants {names : List String} {name : String} (h : name ∈ names) :
    (constants names).find? name = some ⟨some .i32, none, some true⟩ := by
  induction names with
  | nil => cases h
  | cons n names ih =>
    rw [constants, MacroEnv.find?, List.map_cons, List.lookup_cons]
    by_cases hn : name = n
    · simp [hn]
    · simp only [beq_eq_false_iff_ne.mpr hn]
      exact ih ((List.mem_cons.mp h).resolve_left hn)

theorem isConstantName_constants {names : List String} {name : String} (h : name ∈ names) :
    MacroEnv.isConstantName (constants names).length (constants names) name = true := by
  obtain ⟨n, hn⟩ : ∃ n, names.length = n + 1 := by
    cases names with
    | nil => cases h
    | cons => exact ⟨_, rfl⟩
  rw [constants, List.length_map, hn, MacroEnv.isConstantName, ← constants, find?_constants h]
  rfl

theorem isConstant_constants (e : Expr) :
    e.isConstant (constants e.references) = e.isConstantWith (fun _ => true) := by
  rw [isConstant, isConstantWith_eq]
  have hr : e.references.all (MacroEnv.isConstantName (constants e.references).length
      (constants e.references)) := List.all_eq_true.mpr fun _ => isConstantName_constants
  simp [hr]

/-- The constness is kept in every environment when it is where every reference is a constant. -/
theorem isConstant_hostForm_iff (e : Expr) :
    (∀ env, e.hostForm.isConstant env = e.isConstant env) ↔
      e.hostForm.isConstantWith (fun _ => true) = e.isConstantWith (fun _ => true) := by
  constructor
  · intro h
    have hc := h (constants e.references)
    rwa [isConstant_constants, ← references_hostForm, isConstant_constants] at hc
  · intro h env
    rw [isConstant, isConstant, isConstantWith_eq _ e.hostForm, isConstantWith_eq _ e, h,
      references_hostForm]

/-! ### The text -/

/-- The name between the parentheses of a printed `sizeof` is a host spelling already. -/
def HasHostName : Expr → Prop
  | sizeofTag name | sizeofExpr (ident name) => (Ty.ofName name).spelling = name
  | _ => True

theorem precedence_hostForm (e : Expr) : e.hostForm.precedence = e.precedence := by
  have hs : ∀ name, (sizeofName name).precedence = unaryPrecedence := fun name => by
    unfold sizeofName
    split <;> rfl
  cases e with
  | sizeofTag tag => rw [hostForm, hs]; rfl
  | sizeofExpr operand => cases operand <;> simp only [hostForm, hs] <;> rfl
  | _ => rw [hostForm] <;> rfl

theorem sameSign_hostForm (op : UnaryOp) (e : Expr) : sameSign op e.hostForm = sameSign op e := by
  have hs : ∀ name, sameSign op (sizeofName name) = false := fun name => by
    unfold sizeofName
    split <;> cases op <;> rfl
  cases e with
  | sizeofTag tag => rw [hostForm, hs]; cases op <;> rfl
  | sizeofExpr operand => cases operand <;> simp only [hostForm, hs] <;> cases op <;> rfl
  | unary op' operand => rw [hostForm]; cases op <;> cases op' <;> rfl
  | _ => cases op <;> rw [hostForm] <;> rfl

theorem literalTy?_hostForm (e : Expr) : e.hostForm.literalTy? = e.literalTy? := by
  have hs : ∀ name, (sizeofName name).literalTy? = none := fun name => by
    unfold sizeofName
    split <;> rfl
  cases e with
  | literal l => simp [hostForm, literalTy?, l.ty_host]
  | sizeofTag tag => rw [hostForm, hs]; rfl
  | sizeofExpr operand => cases operand <;> simp only [hostForm, hs] <;> rfl
  | _ => rw [hostForm] <;> rfl

theorem chars_sizeofExpr {e : Expr} (h : e.literalTy? = none) :
    (sizeofExpr e).chars = sizeofChars e.chars := by
  rw [chars, h]

theorem chars_sizeofName (name : String) :
    (sizeofName name).chars = sizeofChars (Ty.ofName name).spelling.toList := by
  unfold sizeofName Ty.ofName
  cases Ty.ofName? name with
  | none => simp [chars, literalTy?, Ty.spelling]
  | some ty => simp [chars]

theorem ofName_sizeofSpelling {ty : Ty} (h : ∀ name, ty ≠ .named name) :
    (Ty.ofName ty.sizeofSpelling).spelling = ty.sizeofSpelling := by
  cases ty <;> first | exact absurd rfl (h _) | decide

theorem chars_host (l : Literal) : l.host.chars = l.chars := by
  cases l with
  | int l => exact l.chars_host
  | _ => rfl

/-- A host spelling is no longer than the name it stands for. -/
theorem length_spelling_ofName_le (name : String) :
    (Ty.ofName name).spelling.toList.length ≤ name.toList.length := by
  unfold Ty.ofName Ty.ofName?
  split <;> first | decide | exact Nat.le_refl _

/-- `a` is no longer than `b`, and it is `b` exactly when `p` holds. Texts that are made up of such
parts are equal only where all parts are. -/
structure Shortens (a b : List Char) (p : Prop) : Prop where
  length_le : a.length ≤ b.length
  eq_iff : a = b ↔ p

namespace Shortens

variable {a b c d : List Char} {p q : Prop}

theorem refl (a : List Char) : Shortens a a True := ⟨Nat.le_refl _, by simp⟩

theorem congr (h : Shortens a b p) (hpq : p ↔ q) : Shortens a b q := ⟨h.1, h.2.trans hpq⟩

theorem append (h₁ : Shortens a b p) (h₂ : Shortens c d q) :
    Shortens (a ++ c) (b ++ d) (p ∧ q) := by
  refine ⟨?_, ?_⟩
  · have := h₁.length_le
    have := h₂.length_le
    simp only [List.length_append]
    omega
  · rw [← h₁.eq_iff, ← h₂.eq_iff]
    constructor
    · intro h
      have hl := congrArg List.length h
      simp only [List.length_append] at hl
      have := h₁.length_le
      have := h₂.length_le
      exact List.append_inj h (by omega)
    · rintro ⟨rfl, rfl⟩
      rfl

theorem cons (x : Char) (h : Shortens a b p) : Shortens (x :: a) (x :: b) p :=
  ((refl [x]).append h).congr (by simp)

theorem wrapped (wrap : Bool) (h : Shortens a b p) :
    Shortens (wrapped wrap a) (wrapped wrap b) p := by
  cases wrap
  · exact h
  · exact (h.append (refl [')'])).cons '(' |>.congr (by simp)

theorem sizeofChars (h : Shortens a b p) : Shortens (sizeofChars a) (sizeofChars b) p :=
  ((refl _).append (h.append (refl [')']))).congr (by simp)
    (a := ['s', 'i', 'z', 'e', 'o', 'f', '('] ++ _)

end Shortens

theorem Every.iff {p : Expr → Prop} {e : Expr} :
    Every p e ↔ p e ∧ ∀ c ∈ e.children, Every p c :=
  ⟨fun h => ⟨h.here, fun _ => h.child⟩, fun ⟨h, hc⟩ => .node h hc⟩

theorem shortens_name (name : String) : Shortens (Ty.ofName name).spelling.toList name.toList
    ((Ty.ofName name).spelling = name) :=
  ⟨length_spelling_ofName_le name, String.toList_inj⟩

theorem shortens_argsChars : ∀ {args : List Expr},
    (∀ a ∈ args, Shortens a.hostForm.chars a.chars (Every HasHostName a)) →
      Shortens (argsChars (hostForms args)) (argsChars args) (∀ a ∈ args, Every HasHostName a)
  | [], _ => (Shortens.refl []).congr (by simp)
  | [e], h => by simpa [argsChars, hostForms] using h e (by simp)
  | e :: e' :: es, h => by
    have hs := shortens_argsChars fun a ha => h a (List.mem_cons_of_mem e ha)
    have he := (h e (by simp)).append ((hs.cons ' ').cons ',')
    simpa only [argsChars, hostForms, List.forall_mem_cons] using he

/-- The text of the host form is no longer, and it is the same where `sizeof` has host names. -/
theorem shortens_chars {e : Expr} (h : Readable e) :
    Shortens e.hostForm.chars e.chars (Every HasHostName e) := by
  induction h with
  | @node e h hc ih =>
    rw [Every.iff]
    cases e with
    | literal l =>
      simpa [hostForm, chars, chars_host, children, HasHostName] using Shortens.refl l.chars
    | ident name =>
      simpa [hostForm, chars, children, HasHostName] using Shortens.refl name.toList
    | call callee args =>
      have has : Shortens (argsChars (hostForms args)) (argsChars args)
          (∀ a ∈ args, Every HasHostName a) := shortens_argsChars ih
      have ha := (has.append (.refl [')'])).cons '('
      simpa [hostForm, chars, children, HasHostName] using
        (Shortens.refl callee.toList).append ha
    | unary op operand =>
      have ho := (ih operand (by simp [children])).wrapped
        (operand.precedence < unaryPrecedence || sameSign op operand)
      simpa [hostForm, chars, children, HasHostName, precedence_hostForm, sameSign_hostForm] using
        (Shortens.refl op.spelling.toList).append ho
    | cast target operand =>
      have ho := (ih operand (by simp [children])).wrapped (operand.precedence < unaryPrecedence)
      have hs := ((Shortens.refl (Ty.ofName target).spelling.toList).append (ho.cons ')')).cons '('
      simpa [hostForm, chars, children, HasHostName, precedence_hostForm,
        Ty.ofName_spelling_ofName] using hs
    | sizeofType ty =>
      simpa [hostForm, children, HasHostName] using Shortens.refl (sizeofType ty).chars
    | sizeofTag tag =>
      simpa [hostForm, chars_sizeofName, chars, children, HasHostName] using
        (shortens_name tag).sizeofChars
    | sizeofExpr operand =>
      have ho := ih operand (by simp [children])
      have hw := (hc operand (by simp [children])).here
      cases operand with
      | literal l =>
        have hs := ofName_sizeofSpelling (Literal.WellSpelled.ty_ne_named hw)
        have hl : Every HasHostName (literal l) := .node trivial (by simp [children])
        simpa [hostForm, chars_sizeofName, chars, literalTy?, children, HasHostName, hs, hl] using
          Shortens.refl (sizeofChars l.ty.sizeofSpelling.toList)
      | ident name =>
        have hn : Every HasHostName (ident name) := .node trivial (by simp [children])
        simpa [hostForm, chars_sizeofName, chars, literalTy?, children, HasHostName, hn] using
          (shortens_name name).sizeofChars
      | _ =>
        rw [hostForm, chars_sizeofExpr (by rw [literalTy?_hostForm]; rfl), chars_sizeofExpr rfl]
        · simpa [children, HasHostName] using ho.sizeofChars
        all_goals simp
    | binary op left right =>
      have hl := (ih left (by simp [children])).wrapped (left.precedence < op.precedence)
      have hr := (ih right (by simp [children])).wrapped (right.precedence ≤ op.precedence)
      have hs := hl.append (((Shortens.refl op.spelling.toList).append (hr.cons ' ')).cons ' ')
      simpa [hostForm, chars, children, HasHostName, precedence_hostForm] using hs
    | ternary cond thenExpr elseExpr =>
      have h₁ := (ih cond (by simp [children])).wrapped (cond.precedence ≤ ternaryPrecedence)
      have h₂ := ih thenExpr (by simp [children])
      have h₃ := ih elseExpr (by simp [children])
      have hs := h₁.append (((h₂.append (((h₃.cons ' ').cons ':').cons ' ')).cons ' ').cons '?'
        |>.cons ' ')
      simpa [hostForm, chars, children, HasHostName, precedence_hostForm] using hs

/-! ### `sizeof` of a tag that is called `sizeof` -/

/-- Somewhere `sizeof` stands alone in parentheses. -/
def HoldsBareSizeof (ks : List TokenKind) : Prop :=
  [.punct .lParen, .ident "sizeof", .punct .rParen] <:+: ks

namespace HoldsBareSizeof

variable {k : TokenKind} {ks : List TokenKind}

theorem of_cons (h : HoldsBareSizeof (k :: ks)) (hk : k ≠ .punct .lParen) :
    HoldsBareSizeof ks := by
  rcases List.infix_cons_iff.mp h with hp | hi
  · exact absurd (List.cons_prefix_cons.mp hp).1.symm hk
  · exact hi

theorem of_lParen (h : HoldsBareSizeof (.punct .lParen :: ks))
    (hk : ∀ r, ks ≠ .ident "sizeof" :: .punct .rParen :: r) : HoldsBareSizeof ks := by
  rcases List.infix_cons_iff.mp h with ⟨r, hr⟩ | hi
  · exact absurd (List.cons.inj hr).2.symm (hk r)
  · exact hi

theorem of_idents {words : List String}
    (h : HoldsBareSizeof (words.map .ident ++ .punct .rParen :: ks)) : HoldsBareSizeof ks := by
  induction words with
  | nil => exact h.of_cons (by decide)
  | cons w ws ih => exact ih (of_cons h nofun)

end HoldsBareSizeof

/-- No phrase begins with a closing parenthesis, or with `sizeof` before one. -/
theorem ne_of_derives {resolved : Bool} {c : Category} {ts rest : List TokenKind} {e : Expr}
    (h : Derives resolved c ts e rest) :
    (∀ r, ts ≠ .punct .rParen :: r) ∧ ∀ r, ts ≠ .ident "sizeof" :: .punct .rParen :: r := by
  induction h with
  | single _ ih | ternary _ _ _ ih | tighter _ _ ih | operator _ _ _ ih | operand _ ih
  | uncast _ _ ih | atom _ ih | lastArg _ ih | moreArgs _ _ ih => exact ih
  | cast | paren => exact ⟨by simp, by simp⟩
  | sizeofType => exact ⟨by simp, by simp⟩
  | sizeofExpr _ _ ih => exact ⟨by simp, by simpa using ih.1⟩
  | prefixed hop _ ih =>
    refine ⟨?_, nofun⟩
    rintro r ⟨⟩
    cases mem_unaryOperators_iff.mp hop
  | literal => exact ⟨by simp, by simp⟩
  | name hn | emptyCall hn | call hn => exact ⟨by simp, by simp [hn]⟩

/-- A phrase takes no `sizeof` that stands alone in parentheses. -/
theorem HoldsBareSizeof.of_derives {resolved : Bool} {c : Category} {ts rest : List TokenKind}
    {e : Expr} (h : Derives resolved c ts e rest) (hs : HoldsBareSizeof ts) :
    HoldsBareSizeof rest := by
  induction h with
  | single _ ih | tighter _ _ ih | operand _ ih | uncast _ _ ih | atom _ ih => exact ih hs
  | ternary _ _ _ ihc iht ihf =>
    exact ihf ((iht ((ihc hs).of_cons (by decide))).of_cons (by decide))
  | operator _ hop _ ihl ihr =>
    exact ihr ((ihl hs).of_cons (by rintro ⟨⟩; cases (mem_operatorsAt_iff.mp hop).1))
  | cast hn _ ih =>
    exact ih (((hs.of_lParen (by simp [hn])).of_cons nofun).of_cons (by decide))
  | @sizeofType rest e words hw =>
    refine ((hs.of_cons nofun).of_lParen fun r hr => ?_).of_idents
    rcases words with _ | ⟨w, _ | ⟨w', ws⟩⟩
    · cases hr
    · obtain rfl : w = "sizeof" := by simpa using (List.cons.inj hr).1
      have hb := spellsBaseType_iff.mp hw
      rw [baseType?_sizeof_cons] at hb
      cases hb
    · cases hr
  | sizeofExpr _ _ ih => exact ih (hs.of_cons nofun)
  | prefixed hop _ ih =>
    exact ih (hs.of_cons (by rintro ⟨⟩; cases mem_unaryOperators_iff.mp hop))
  | literal | name => exact hs.of_cons nofun
  | emptyCall => exact ((hs.of_cons nofun).of_lParen (by simp)).of_cons (by decide)
  | call hn h ih => exact ih ((hs.of_cons nofun).of_lParen (ne_of_derives h).2)
  | paren h ih => exact (ih (hs.of_lParen (ne_of_derives h).2)).of_cons (by decide)
  | lastArg _ ih => exact (ih hs).of_cons (by decide)
  | moreArgs _ _ ih ihs => exact ihs ((ih hs).of_cons (by decide))

theorem infix_wrappedKinds (wrap : Bool) (ks : List TokenKind) : ks <:+: wrappedKinds wrap ks := by
  cases wrap
  · exact List.infix_rfl
  · exact ⟨[.punct .lParen], [.punct .rParen], by simp [wrappedKinds]⟩

theorem infix_argsKinds {a : Expr} : ∀ {args : List Expr}, a ∈ args → a.kinds <:+: argsKinds args
  | [e], h => by
    simp [List.mem_singleton.mp h, argsKinds]
  | e :: e' :: es, h => by
    rw [argsKinds]
    · rcases List.mem_cons.mp h with rfl | h
      · exact (List.prefix_append _ _).isInfix
      · exact (infix_argsKinds h).trans
          ((List.suffix_cons _ _).trans (List.suffix_append _ _)).isInfix
    · simp

/-- The tokens of a tree hold those of its operands; a literal may give way to its type. -/
theorem kinds_infix_of_mem_children {e c : Expr} (h : c ∈ e.children) :
    (∃ l, c = literal l) ∨ c.kinds <:+: e.kinds := by
  have tail : ∀ {k : TokenKind} {a b : List TokenKind}, a <:+: b → a <:+: k :: b := fun h =>
    h.trans (List.suffix_cons _ _).isInfix
  cases e with
  | literal | ident | sizeofType | sizeofTag => cases h
  | call callee args =>
    rw [kinds]
    exact .inr (tail (tail ((infix_argsKinds h).trans (List.prefix_append _ _).isInfix)))
  | unary op operand =>
    obtain rfl := List.mem_singleton.mp h
    rw [kinds]
    exact .inr (tail (infix_wrappedKinds _ _))
  | cast target operand =>
    obtain rfl := List.mem_singleton.mp h
    rw [kinds]
    exact .inr (tail (tail (tail (infix_wrappedKinds _ _))))
  | sizeofExpr operand =>
    obtain rfl := List.mem_singleton.mp h
    cases c with
    | literal l => exact .inl ⟨l, rfl⟩
    | _ =>
      rw [kinds]
      exact .inr (tail (tail (List.prefix_append _ _).isInfix))
  | binary op left right =>
    rw [kinds]
    simp only [children, List.mem_cons, List.not_mem_nil, or_false] at h
    rcases h with rfl | rfl
    · exact .inr ((infix_wrappedKinds _ _).trans (List.prefix_append _ _).isInfix)
    · exact .inr ((infix_wrappedKinds _ _).trans
        ((List.suffix_cons _ _).trans (List.suffix_append _ _)).isInfix)
  | ternary cond thenExpr elseExpr =>
    rw [kinds]
    simp only [children, List.mem_cons, List.not_mem_nil, or_false] at h
    rcases h with rfl | rfl | rfl
    · exact .inr ((infix_wrappedKinds _ _).trans (List.prefix_append _ _).isInfix)
    · exact .inr ((List.prefix_append _ _).isInfix.trans
        ((List.suffix_cons _ _).trans (List.suffix_append _ _)).isInfix)
    · exact .inr (((List.suffix_cons _ _).trans (List.suffix_append _ _)).trans
        ((List.suffix_cons _ _).trans (List.suffix_append _ _))).isInfix

theorem ne_sizeofTag_of_not_holdsBareSizeof {e : Expr} (hr : Readable e)
    (h : ¬ HoldsBareSizeof e.kinds) : Every (· ≠ sizeofTag "sizeof") e := by
  induction hr with
  | @node e _ _ ih =>
    refine .node ?_ fun c hc => ?_
    · rintro rfl
      exact h ⟨[.ident "sizeof"], [], by simp [kinds, sizeofKinds]⟩
    · rcases kinds_infix_of_mem_children hc with ⟨l, rfl⟩ | hi
      · exact .node (by simp) (by simp [children])
      · exact ih c hc fun hb => h (hb.trans hi)

/-- A tree whose text is parsed can be read back. -/
theorem rereadable_of_parse_render {e e' : Expr} (hr : Readable e)
    (h : Expr.parse e.render = .ok e') : Rereadable e := by
  refine hr.and (ne_sizeofTag_of_not_holdsBareSizeof hr fun hb => ?_)
  obtain ⟨tokens, ht, -, hd⟩ := exists_tokens_of_parse h
  obtain ⟨tokens', ht', hk⟩ := tokenize_render hr
  obtain rfl : tokens = tokens' := by
    rw [ht] at ht'
    exact Except.ok.inj ht'
  rw [hk] at hd
  have := List.infix_nil.mp (hb.of_derives hd)
  cases this

/-! ### When a rewriting is stable -/

/-- A parsed tree is rewritten stably exactly when every tag and every name that it takes the
`sizeof` of is its own host spelling, no such tag is `sizeof`, and its host form is a constant just
when it is one itself, were all names constants. -/
theorem rewritesStably_iff {text : String} {e : Expr} (h : Expr.parse text = .ok e) :
    RewritesStably e ↔ Every (fun e => HasHostName e ∧ e ≠ sizeofTag "sizeof") e ∧
      e.hostForm.isConstantWith (fun _ => true) = e.isConstantWith (fun _ => true) := by
  have hr := readable_of_parse h
  constructor
  · rintro ⟨e', hp, henv, hrender⟩
    have hread := rereadable_of_parse_render hr hp
    obtain rfl : e.hostForm = e' := by
      rw [parse_render_of_rereadable hread] at hp
      exact Except.ok.inj hp
    have hchars : e.hostForm.chars = e.chars := by
      rw [render_eq_ofList_chars, render_eq_ofList_chars] at hrender
      exact String.ofList_injective hrender
    exact ⟨((shortens_chars hr).eq_iff.mp hchars).and (hread.imp fun _ => And.right),
      (isConstant_hostForm_iff e).mp fun env => (henv env).2⟩
  · rintro ⟨hw, hc⟩
    have hread : Rereadable e := hr.and (hw.imp fun _ => And.right)
    refine ⟨e.hostForm, parse_render_of_rereadable hread,
      fun env => ⟨type?_hostForm env e, (isConstant_hostForm_iff e).mpr hc env⟩, ?_⟩
    rw [render_eq_ofList_chars, render_eq_ofList_chars,
      (shortens_chars hr).eq_iff.mpr (hw.imp fun _ => And.left)]

/-- The size of a structure with a name of its own is rewritten stably. -/
theorem rewritesStably_struct_tag : Expr.parse "sizeof(struct point) * 2" = .ok (binary .mul
      (sizeofTag "point") (literal (.int ⟨2, .decimal, "2", .i32⟩))) ∧
    RewritesStably (binary .mul (sizeofTag "point")
      (literal (.int ⟨2, .decimal, "2", .i32⟩))) := by
  have hp : Expr.parse "sizeof(struct point) * 2" = .ok (binary .mul (sizeofTag "point")
      (literal (.int ⟨2, .decimal, "2", .i32⟩))) := by cbv
  refine ⟨hp, (rewritesStably_iff hp).mpr ⟨.node ⟨trivial, by simp⟩ ?_, by cbv⟩⟩
  refine List.forall_mem_cons.mpr ⟨.node ⟨by cbv, by simp⟩ (by simp [children]), ?_⟩
  exact List.forall_mem_singleton.mpr (.node ⟨trivial, by simp⟩ (by simp [children]))

/-- The size of a string literal is a constant, and what its text is read as is none. -/
theorem not_rewritesStably_string_literal :
    Expr.parse "sizeof \"abc\"" = .ok (sizeofExpr (literal (.str "\"abc\""))) ∧
      ¬ RewritesStably (sizeofExpr (literal (.str "\"abc\""))) := by
  refine ⟨by cbv, ?_⟩
  rintro ⟨e', hp, henv, -⟩
  have ht : (sizeofExpr (literal (.str "\"abc\""))).render = "sizeof(string)" := by cbv
  have hs : Expr.parse "sizeof(string)" = .ok (sizeofExpr (ident "string")) := by cbv
  rw [ht, hs] at hp
  cases hp
  cases (henv []).2

end Expr

end Bindery
