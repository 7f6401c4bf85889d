import Bindery.Expr.Constant

/-!
# Constness by derivation

`Expr.Constant` says by finite derivations what a constant is: an expression is one when its
operands are, and a name when its macro has a type and either has been found to be a constant or,
where that has not been decided, has a constant body. The classifier looks for such a derivation
without the names it is busy with, and finds one whenever there is one (`isConstant_iff`): a name that
is a constant is one without its own help (`Constant.confirms_without`).

Derivations do not see when a macro was decided. So an environment in which some macros have been
decided as the environment before says has the same constants (`Settles.isConstant_eq`).
-/

namespace Bindery

namespace MacroEnv

variable {env env' : MacroEnv} {name other : String} {info : MacroInfo}

theorem find?_without (env : MacroEnv) (name other : String) :
    (env.without name).find? other = if other = name then none else env.find? other := by
  unfold find? without
  induction env with
  | nil => simp
  | cons x env ih =>
    obtain ⟨m, info⟩ := x
    by_cases hm : m = name
    · subst hm
      rw [List.filter_cons_of_neg (by simp), ih, List.lookup_cons]
      by_cases ho : other = m
      · simp [ho]
      · simp [ho, beq_eq_false_iff_ne.mpr ho]
    · rw [List.filter_cons_of_pos (by simpa using hm), List.lookup_cons, ih, List.lookup_cons]
      by_cases ho : other = m
      · subst ho
        simp [hm]
      · simp [beq_eq_false_iff_ne.mpr ho]

theorem length_without_lt (h : env.find? name = some info) :
    (env.without name).length < env.length := by
  obtain ⟨l₁, l₂, he, -⟩ := List.lookup_eq_some_iff.mp h
  refine List.length_filter_lt_length_iff_exists.mpr ⟨(name, info), ?_, by simp⟩
  rw [he]
  exact List.mem_append_right _ (List.mem_cons_self ..)

/-- The macro called `name` is a constant, if its body is: it has a type, and it has been found to
be a constant, or that has not been decided. -/
def Confirms (env : MacroEnv) (body : Expr → Prop) (name : String) : Prop :=
  ∃ info, env.find? name = some info ∧ info.ty.isSome = true ∧
    (info.constant = some true ∨
      info.constant = none ∧ ∃ e, info.expr = some e ∧ body e)

theorem Confirms.imp {body body' : Expr → Prop} (h : env.Confirms body name)
    (hb : ∀ e, body e → body' e) : env.Confirms body' name := by
  obtain ⟨info, hf, hty, hc | ⟨hc, e, he, hbody⟩⟩ := h
  · exact ⟨info, hf, hty, .inl hc⟩
  · exact ⟨info, hf, hty, .inr ⟨hc, e, he, hb e hbody⟩⟩

/-- One reference is followed at a time. -/
theorem isConstantName_succ (depth : Nat) (env : MacroEnv) (name : String) :
    isConstantName (depth + 1) env name = true ↔
      env.Confirms (fun e => e.isConstantWith (isConstantName depth (env.without name)) = true)
        name := by
  unfold isConstantName Confirms
  cases env.find? name with
  | none => simp
  | some info =>
    obtain ⟨ty, expr, constant⟩ := info
    cases constant <;> cases expr <;> simp

end MacroEnv

namespace Expr

variable {env env' : MacroEnv} {e : Expr} {name : String}

/-- The expression is a constant, as a finite derivation shows. -/
inductive Constant (env : MacroEnv) : Expr → Prop where
  | literal (l : Literal) : Constant env (literal l)
  | sizeofType (ty : Ty) : Constant env (sizeofType ty)
  | sizeofLiteral (l : Literal) : Constant env (sizeofExpr (literal l))
  | unary {operand : Expr} (op : UnaryOp) (h : Constant env operand) :
      Constant env (unary op operand)
  | cast {operand : Expr} (target : String) (h : Constant env operand) :
      Constant env (cast target operand)
  | binary {left right : Expr} (op : BinaryOp) (hl : Constant env left)
      (hr : Constant env right) : Constant env (binary op left right)
  | ternary {cond thenExpr elseExpr : Expr} (hc : Constant env cond)
      (ht : Constant env thenExpr) (he : Constant env elseExpr) :
      Constant env (ternary cond thenExpr elseExpr)
  /-- The macro has been found to be a constant. -/
  | decided {name : String} {info : MacroInfo} (hf : env.find? name = some info)
      (hty : info.ty.isSome = true) (hc : info.constant = some true) : Constant env (ident name)
  /-- The macro has not been decided, and its body is a constant. -/
  | undecided {name : String} {info : MacroInfo} {body : Expr} (hf : env.find? name = some info)
      (hty : info.ty.isSome = true) (hc : info.constant = none) (he : info.expr = some body)
      (h : Constant env body) : Constant env (ident name)

namespace Constant

theorem ident_iff : (ident name).Constant env ↔ env.Confirms (Constant env) name := by
  constructor
  · intro h
    cases h with
    | decided hf hty hc => exact ⟨_, hf, hty, .inl hc⟩
    | undecided hf hty hc he hb => exact ⟨_, hf, hty, .inr ⟨hc, _, he, hb⟩⟩
  · rintro ⟨info, hf, hty, hc | ⟨hc, body, he, hb⟩⟩
    · exact .decided hf hty hc
    · exact .undecided hf hty hc he hb

/-- Only the references of a derivation see the environment. -/
theorem transfer (h : e.Constant env)
    (hname : ∀ name, env.Confirms (fun body => body.Constant env ∧ body.Constant env') name →
      (ident name).Constant env') : e.Constant env' := by
  induction h with
  | literal l => exact .literal l
  | sizeofType ty => exact .sizeofType ty
  | sizeofLiteral l => exact .sizeofLiteral l
  | unary op _ ih => exact .unary op ih
  | cast target _ ih => exact .cast target ih
  | binary op _ _ ihl ihr => exact .binary op ihl ihr
  | ternary _ _ _ ihc iht ihe => exact .ternary ihc iht ihe
  | decided hf hty hc => exact hname _ ⟨_, hf, hty, .inl hc⟩
  | undecided hf hty hc he hb ih => exact hname _ ⟨_, hf, hty, .inr ⟨hc, _, he, hb, ih⟩⟩

theorem of_without (h : e.Constant (env.without name)) : e.Constant env := by
  refine h.transfer fun other hc => ?_
  obtain ⟨info, hf, hrest⟩ := hc.imp fun _ hb => hb.2
  rw [MacroEnv.find?_without] at hf
  split at hf
  · cases hf
  · exact ident_iff.mpr ⟨info, hf, hrest⟩

/-- A name that is a constant is one without its own help: what needs no macro of the name has a
derivation without it, and otherwise there is one for the name inside. -/
theorem confirms_without (h : (ident name).Constant env) :
    env.Confirms (Constant (env.without name)) name := by
  by_cases hn : env.Confirms (Constant (env.without name)) name
  · exact hn
  · have hwithout : (ident name).Constant (env.without name) := by
      refine h.transfer fun other hc => ?_
      have hc := hc.imp fun _ hb => hb.2
      have hne : other ≠ name := fun he => hn (he ▸ hc)
      obtain ⟨info, hf, hrest⟩ := hc
      exact ident_iff.mpr ⟨info, by rw [MacroEnv.find?_without, if_neg hne, hf], hrest⟩
    obtain ⟨info, hf, -⟩ := ident_iff.mp hwithout
    rw [MacroEnv.find?_without, if_pos rfl] at hf
    cases hf

end Constant

/-- An expression is a constant when its references are as constant as `refs` says. -/
theorem constant_of_isConstantWith {refs : String → Bool}
    (hrefs : ∀ name, refs name = true → (ident name).Constant env) :
    ∀ e : Expr, e.isConstantWith refs = true → e.Constant env
  | literal l, _ => .literal l
  | ident name, h => hrefs name h
  | unary op operand, h => .unary op (constant_of_isConstantWith hrefs operand h)
  | cast target operand, h => .cast target (constant_of_isConstantWith hrefs operand h)
  | sizeofType ty, _ => .sizeofType ty
  | sizeofExpr (literal l), _ => .sizeofLiteral l
  | binary op left right, h => by
    rw [isConstantWith, Bool.and_eq_true] at h
    exact .binary op (constant_of_isConstantWith hrefs left h.1)
      (constant_of_isConstantWith hrefs right h.2)
  | ternary cond thenExpr elseExpr, h => by
    rw [isConstantWith, Bool.and_eq_true, Bool.and_eq_true] at h
    exact .ternary (constant_of_isConstantWith hrefs cond h.1.1)
      (constant_of_isConstantWith hrefs thenExpr h.1.2)
      (constant_of_isConstantWith hrefs elseExpr h.2)

/-- Nothing but its references keeps a constant from being recognised. -/
theorem Constant.isConstantWith {refs : String → Bool} (h : e.Constant env)
    (hrefs : ∀ name, (ident name).Constant env → refs name = true) :
    e.isConstantWith refs = true := by
  induction h with
  | literal | sizeofType | sizeofLiteral => rfl
  | unary _ _ ih | cast _ _ ih => exact ih
  | binary _ _ _ ihl ihr => rw [Expr.isConstantWith, ihl, ihr]; rfl
  | ternary _ _ _ ihc iht ihe => rw [Expr.isConstantWith, ihc, iht, ihe]; rfl
  | decided hf hty hc => exact hrefs _ (.decided hf hty hc)
  | undecided hf hty hc he h => exact hrefs _ (.undecided hf hty hc he h)

theorem constant_of_isConstantName {depth : Nat}
    (h : MacroEnv.isConstantName depth env name = true) : (ident name).Constant env := by
  induction depth generalizing env name with
  | zero => cases h
  | succ depth ih =>
    refine Constant.ident_iff.mpr (((MacroEnv.isConstantName_succ ..).mp h).imp fun e he => ?_)
    exact (constant_of_isConstantWith (fun _ hn => ih hn) e he).of_without

/-- As many references as there are macros are enough: with each that is followed the environment
loses a macro. -/
theorem Constant.isConstantName {depth : Nat} (h : (ident name).Constant env)
    (hd : env.length ≤ depth) : MacroEnv.isConstantName depth env name = true := by
  induction depth generalizing env name with
  | zero =>
    obtain ⟨info, hf, -⟩ := ident_iff.mp h
    have hlt := MacroEnv.length_without_lt hf
    omega
  | succ depth ih =>
    have hc := h.confirms_without
    have ⟨info, hf, _⟩ := hc
    have hlt := MacroEnv.length_without_lt hf
    refine (MacroEnv.isConstantName_succ ..).mpr (hc.imp fun body hb => ?_)
    exact hb.isConstantWith fun other ho => ih ho (by omega)

/-- The classifier finds a derivation just when there is one. -/
theorem isConstant_iff : e.isConstant env = true ↔ e.Constant env := by
  constructor
  · exact fun h => constant_of_isConstantWith (fun _ => constant_of_isConstantName) e h
  · exact fun h => h.isConstantWith fun _ hn => hn.isConstantName (Nat.le_refl _)

end Expr

/-! ### Deciding some macros -/

/-- The second environment is the first with some macros decided, as the first one says. -/
def MacroEnv.Settles (env env' : MacroEnv) : Prop :=
  ∀ name, env'.find? name = env.find? name ∨
    ∃ info body, env.find? name = some info ∧ info.constant = none ∧ info.expr = some body ∧
      env'.find? name = some { info with constant := some (body.isConstant env) }

namespace MacroEnv.Settles

variable {env env' : MacroEnv} {e : Expr}

theorem constant (h : env.Settles env') (he : e.Constant env) : e.Constant env' := by
  refine he.transfer fun name hc => Expr.Constant.ident_iff.mpr ?_
  obtain ⟨info, hf, hty, hc⟩ := hc
  rcases h name with hsame | ⟨_, body, hf₀, hnone, hbody, hf'⟩
  · exact ⟨info, hsame.trans hf, hty, hc.imp_right fun ⟨hc, b, hb, hb'⟩ => ⟨hc, b, hb, hb'.2⟩⟩
  · cases hf.symm.trans hf₀
    rcases hc with hc | ⟨-, body', hbody', hb, -⟩
    · rw [hnone] at hc
      cases hc
    · -- it has been decided in between, and rightly so
      cases hbody.symm.trans hbody'
      exact ⟨_, hf', hty, .inl (congrArg some (Expr.isConstant_iff.mpr hb))⟩

theorem of_constant (h : env.Settles env') (he : e.Constant env') : e.Constant env := by
  refine he.transfer fun name hc => Expr.Constant.ident_iff.mpr ?_
  obtain ⟨info, hf, hty, hc⟩ := hc
  rcases h name with hsame | ⟨info₀, body, hf₀, hnone, hbody, hf'⟩
  · exact ⟨info, hsame.symm.trans hf, hty,
      hc.imp_right fun ⟨hc, b, hb, hb'⟩ => ⟨hc, b, hb, hb'.2⟩⟩
  · cases hf.symm.trans hf'
    rcases hc with hc | ⟨hc, -⟩
    · exact ⟨info₀, hf₀, hty,
        .inr ⟨hnone, body, hbody, Expr.isConstant_iff.mp (Option.some.inj hc)⟩⟩
    · cases hc

/-- To decide macros as the environment says changes no answer. -/
theorem isConstant_eq (h : env.Settles env') (e : Expr) : e.isConstant env' = e.isConstant env := by
  rw [Bool.eq_iff_iff, Expr.isConstant_iff, Expr.isConstant_iff]
  exact ⟨h.of_constant, h.constant⟩

end MacroEnv.Settles

end Bindery
