import Bindery.Proofs.Expr.Constancy
import Bindery.Proofs.Expr.Stability
import Mathlib.Logic.Relation

/-!
# How an expression is classified

`Classifies` follows a classification as it goes. Operands are looked at from left to right until
one is no constant, and a reference leads to the body of its macro unless the macro settles the
question itself. The names that are being classified are kept in a list: a reference to one of them
closes a circle and is no constant.

The list cuts circles only. With the names of the list taken out of the environment the same
derivations are left, so every classification comes to an end, with the answer that a finite
derivation gives (`Expr.classifies_iff_constant`).
-/

namespace Bindery

namespace MacroEnv

variable {env : MacroEnv} {busy : List String} {name other : String} {body : Expr}

/-- Whether the macro is a constant is left to its body: it has a type, and has not been decided. -/
def Opens (env : MacroEnv) (name : String) (body : Expr) : Prop :=
  ∃ info, env.find? name = some info ∧ info.ty.isSome = true ∧ info.constant = none ∧
    info.expr = some body

/-- Whether `name` is a constant depends on `other`. -/
def NeededBy (env : MacroEnv) (other name : String) : Prop :=
  ∃ body, env.Opens name body ∧ other ∈ body.references

/-- The environment without the macros that are being classified. -/
def besides (env : MacroEnv) (busy : List String) : MacroEnv :=
  busy.foldr (fun name env => env.without name) env

theorem Opens.unique {body' : Expr} (h : env.Opens name body) (h' : env.Opens name body') :
    body = body' := by
  obtain ⟨info, hf, -, -, he⟩ := h
  obtain ⟨info', hf', -, -, he'⟩ := h'
  have hinfo : info = info' := Option.some.inj (hf.symm.trans hf')
  subst hinfo
  exact Option.some.inj (he.symm.trans he')

@[simp] theorem besides_cons (env : MacroEnv) (name : String) (busy : List String) :
    env.besides (name :: busy) = (env.besides busy).without name := rfl

theorem find?_besides (env : MacroEnv) (busy : List String) (other : String) :
    (env.besides busy).find? other = if other ∈ busy then none else env.find? other := by
  induction busy with
  | nil => simp [besides]
  | cons name busy ih =>
    rw [besides_cons, find?_without, ih]
    by_cases hn : other = name
    · simp [hn]
    · simp [hn]

theorem find?_of_besides {info : MacroInfo} (h : (env.besides busy).find? name = some info) :
    name ∉ busy ∧ env.find? name = some info := by
  rw [find?_besides] at h
  split at h
  · cases h
  · next hm => exact ⟨hm, h⟩

theorem Opens.besides (ho : env.Opens name body) (hm : name ∉ busy) :
    (env.besides busy).Opens name body := by
  obtain ⟨info, hf, hrest⟩ := ho
  exact ⟨info, by rw [find?_besides, if_neg hm, hf], hrest⟩

end MacroEnv

open MacroEnv

variable {env : MacroEnv} {busy : List String} {e : Expr} {name : String} {b : Bool}

/-- The classification of the expression ends with the answer, if it begins while the names of the
list are being classified. -/
inductive Classifies (env : MacroEnv) : List String → Expr → Bool → Prop where
  | literal {busy : List String} (l : Literal) : Classifies env busy (.literal l) true
  | call {busy : List String} (callee : String) (args : List Expr) :
      Classifies env busy (.call callee args) false
  | sizeofType {busy : List String} (ty : Ty) : Classifies env busy (.sizeofType ty) true
  | sizeofTag {busy : List String} (tag : String) : Classifies env busy (.sizeofTag tag) false
  | sizeofLiteral {busy : List String} (l : Literal) :
      Classifies env busy (.sizeofExpr (.literal l)) true
  | sizeofOther {busy : List String} {operand : Expr} (hne : ∀ l, operand ≠ .literal l) :
      Classifies env busy (.sizeofExpr operand) false
  | unary {busy : List String} {operand : Expr} {b : Bool} (op : UnaryOp)
      (h : Classifies env busy operand b) : Classifies env busy (.unary op operand) b
  | cast {busy : List String} {operand : Expr} {b : Bool} (target : String)
      (h : Classifies env busy operand b) : Classifies env busy (.cast target operand) b
  | binaryLeft {busy : List String} {left right : Expr} (op : BinaryOp)
      (hl : Classifies env busy left false) : Classifies env busy (.binary op left right) false
  | binaryRight {busy : List String} {left right : Expr} {b : Bool} (op : BinaryOp)
      (hl : Classifies env busy left true) (hr : Classifies env busy right b) :
      Classifies env busy (.binary op left right) b
  | ternaryCond {busy : List String} {cond thenExpr elseExpr : Expr}
      (hc : Classifies env busy cond false) :
      Classifies env busy (.ternary cond thenExpr elseExpr) false
  | ternaryThen {busy : List String} {cond thenExpr elseExpr : Expr}
      (hc : Classifies env busy cond true) (ht : Classifies env busy thenExpr false) :
      Classifies env busy (.ternary cond thenExpr elseExpr) false
  | ternaryElse {busy : List String} {cond thenExpr elseExpr : Expr} {b : Bool}
      (hc : Classifies env busy cond true) (ht : Classifies env busy thenExpr true)
      (he : Classifies env busy elseExpr b) :
      Classifies env busy (.ternary cond thenExpr elseExpr) b
  | unknown {busy : List String} {name : String} (hf : env.find? name = none) :
      Classifies env busy (.ident name) false
  | untyped {busy : List String} {name : String} {info : MacroInfo}
      (hf : env.find? name = some info) (hty : info.ty = none) :
      Classifies env busy (.ident name) false
  | decided {busy : List String} {name : String} {info : MacroInfo} {b : Bool}
      (hf : env.find? name = some info) (hty : info.ty.isSome = true)
      (hc : info.constant = some b) : Classifies env busy (.ident name) b
  | bodiless {busy : List String} {name : String} {info : MacroInfo}
      (hf : env.find? name = some info) (hty : info.ty.isSome = true)
      (hc : info.constant = none) (he : info.expr = none) :
      Classifies env busy (.ident name) false
  /-- The name needs itself. -/
  | circle {busy : List String} {name : String} {body : Expr} (ho : env.Opens name body)
      (hm : name ∈ busy) : Classifies env busy (.ident name) false
  | follow {busy : List String} {name : String} {body : Expr} {b : Bool}
      (ho : env.Opens name body) (hm : name ∉ busy) (h : Classifies env (name :: busy) body b) :
      Classifies env busy (.ident name) b

/-! ### Every classification ends -/

theorem exists_classifies_of_names
    (hnames : ∀ name, ∃ b, Classifies env busy (.ident name) b) :
    ∀ e : Expr, ∃ b, Classifies env busy e b
  | .literal l => ⟨true, .literal l⟩
  | .ident name => hnames name
  | .call callee args => ⟨false, .call callee args⟩
  | .sizeofType ty => ⟨true, .sizeofType ty⟩
  | .sizeofTag tag => ⟨false, .sizeofTag tag⟩
  | .sizeofExpr operand => by
    by_cases hl : ∃ l, operand = .literal l
    · obtain ⟨l, rfl⟩ := hl
      exact ⟨true, .sizeofLiteral l⟩
    · exact ⟨false, .sizeofOther fun l he => hl ⟨l, he⟩⟩
  | .unary op operand => by
    obtain ⟨b, h⟩ := exists_classifies_of_names hnames operand
    exact ⟨b, .unary op h⟩
  | .cast target operand => by
    obtain ⟨b, h⟩ := exists_classifies_of_names hnames operand
    exact ⟨b, .cast target h⟩
  | .binary op left right => by
    obtain ⟨bl, hl⟩ := exists_classifies_of_names hnames left
    obtain ⟨br, hr⟩ := exists_classifies_of_names hnames right
    cases bl with
    | false => exact ⟨false, .binaryLeft op hl⟩
    | true => exact ⟨br, .binaryRight op hl hr⟩
  | .ternary cond thenExpr elseExpr => by
    obtain ⟨bc, hc⟩ := exists_classifies_of_names hnames cond
    obtain ⟨bt, ht⟩ := exists_classifies_of_names hnames thenExpr
    obtain ⟨be, he⟩ := exists_classifies_of_names hnames elseExpr
    cases bc with
    | false => exact ⟨false, .ternaryCond hc⟩
    | true =>
      cases bt with
      | false => exact ⟨false, .ternaryThen hc ht⟩
      | true => exact ⟨be, .ternaryElse hc ht he⟩

/-- A reference is followed only out of the environment that is left, which is smaller then. -/
theorem exists_classifies (env : MacroEnv) (busy : List String) (e : Expr) :
    ∃ b, Classifies env busy e b := by
  induction hk : (env.besides busy).length using Nat.strong_induction_on generalizing busy e with
  | _ k ih =>
    refine exists_classifies_of_names (fun name => ?_) e
    cases hf : env.find? name with
    | none => exact ⟨false, .unknown hf⟩
    | some info =>
      cases hty : info.ty with
      | none => exact ⟨false, .untyped hf hty⟩
      | some ty =>
        have hty : info.ty.isSome = true := by rw [hty]; rfl
        cases hc : info.constant with
        | some b => exact ⟨b, .decided hf hty hc⟩
        | none =>
          cases he : info.expr with
          | none => exact ⟨false, .bodiless hf hty hc he⟩
          | some body =>
            have ho : env.Opens name body := ⟨info, hf, hty, hc, he⟩
            by_cases hm : name ∈ busy
            · exact ⟨false, .circle ho hm⟩
            · have hleft : (env.besides busy).find? name = some info := by
                rw [find?_besides, if_neg hm, hf]
              have hlt : (env.besides (name :: busy)).length < k := hk ▸ length_without_lt hleft
              obtain ⟨b, h⟩ := ih _ hlt (name :: busy) body rfl
              exact ⟨b, .follow ho hm h⟩

/-! ### The answer -/

namespace Expr.Constant

theorem unary_iff {op : UnaryOp} {operand : Expr} :
    (Expr.unary op operand).Constant env ↔ operand.Constant env := by
  refine ⟨fun h => ?_, .unary op⟩
  cases h with
  | unary _ h => exact h

theorem cast_iff {target : String} {operand : Expr} :
    (Expr.cast target operand).Constant env ↔ operand.Constant env := by
  refine ⟨fun h => ?_, .cast target⟩
  cases h with
  | cast _ h => exact h

theorem binary_iff {op : BinaryOp} {left right : Expr} :
    (Expr.binary op left right).Constant env ↔ left.Constant env ∧ right.Constant env := by
  refine ⟨fun h => ?_, fun h => .binary op h.1 h.2⟩
  cases h with
  | binary _ hl hr => exact ⟨hl, hr⟩

theorem ternary_iff {cond thenExpr elseExpr : Expr} :
    (Expr.ternary cond thenExpr elseExpr).Constant env ↔
      cond.Constant env ∧ thenExpr.Constant env ∧ elseExpr.Constant env := by
  refine ⟨fun h => ?_, fun h => .ternary h.1 h.2.1 h.2.2⟩
  cases h with
  | ternary hc ht he => exact ⟨hc, ht, he⟩

/-- A macro that leaves the question to its body is a constant when the body is one without it. -/
theorem ident_iff_of_opens {body : Expr} (ho : env.Opens name body) :
    (ident name).Constant env ↔ body.Constant (env.without name) := by
  obtain ⟨info, hf, hty, hc, he⟩ := ho
  constructor
  · intro h
    obtain ⟨info', hf', -, hdecided | ⟨-, body', he', hbody⟩⟩ := h.confirms_without
    · have hinfo : info = info' := Option.some.inj (hf.symm.trans hf')
      rw [← hinfo, hc] at hdecided
      cases hdecided
    · have hinfo : info = info' := Option.some.inj (hf.symm.trans hf')
      rw [← hinfo, he] at he'
      rwa [Option.some.inj he']
  · intro h
    exact .undecided hf hty hc he h.of_without

/-- Whatever is needed for a constant is settled after finitely many references. -/
theorem acc_of_mem_references (h : e.Constant env) :
    ∀ name ∈ e.references, Acc env.NeededBy name := by
  induction h with
  | literal | sizeofType | sizeofLiteral => exact fun name hm => nomatch hm
  | unary _ _ ih | cast _ _ ih => exact ih
  | binary _ _ _ ihl ihr =>
    intro name hm
    rcases List.mem_append.mp hm with hm | hm
    · exact ihl name hm
    · exact ihr name hm
  | ternary _ _ _ ihc iht ihe =>
    intro name hm
    rcases List.mem_append.mp hm with hm | hm
    · rcases List.mem_append.mp hm with hm | hm
      · exact ihc name hm
      · exact iht name hm
    · exact ihe name hm
  | @decided name info hf hty hc =>
    intro other hm
    rw [List.mem_singleton.mp hm]
    refine .intro name fun needed hn => ?_
    obtain ⟨body, ⟨info', hf', -, hnone, -⟩, -⟩ := hn
    have hinfo : info = info' := Option.some.inj (hf.symm.trans hf')
    rw [← hinfo, hc] at hnone
    cases hnone
  | @undecided name info body hf hty hc he _ ih =>
    intro other hm
    rw [List.mem_singleton.mp hm]
    refine .intro name fun needed hn => ?_
    obtain ⟨body', ho, hneeded⟩ := hn
    have hbody : body = body' := Opens.unique ⟨info, hf, hty, hc, he⟩ ho
    exact ih needed (hbody ▸ hneeded)

theorem not_transGen (h : (ident name).Constant env) :
    ¬Relation.TransGen env.NeededBy name name := by
  have hacc : Acc (Relation.TransGen env.NeededBy) name :=
    (h.acc_of_mem_references name (List.mem_singleton_self name)).transGen
  clear h
  induction hacc with
  | intro name _ ih => exact fun hself => ih name hself hself

end Expr.Constant

/-- The answer is what a derivation gives without the names that are being classified. -/
theorem Classifies.iff_constant (h : Classifies env busy e b)
    (hbusy : ∀ name ∈ busy, ∃ body, env.Opens name body) :
    b = true ↔ e.Constant (env.besides busy) := by
  induction h with
  | literal l => exact ⟨fun _ => .literal l, fun _ => rfl⟩
  | sizeofType ty => exact ⟨fun _ => .sizeofType ty, fun _ => rfl⟩
  | sizeofLiteral l => exact ⟨fun _ => .sizeofLiteral l, fun _ => rfl⟩
  | call | sizeofTag => exact ⟨nofun, nofun⟩
  | sizeofOther hne =>
    refine ⟨nofun, fun h => ?_⟩
    cases h with
    | sizeofLiteral l => exact absurd rfl (hne l)
  | unary op _ ih => rw [Expr.Constant.unary_iff, ih hbusy]
  | cast target _ ih => rw [Expr.Constant.cast_iff, ih hbusy]
  | binaryLeft op _ ih =>
    rw [Expr.Constant.binary_iff]
    exact ⟨nofun, fun h => (ih hbusy).mpr h.1⟩
  | binaryRight op _ _ ihl ihr =>
    have hl := (ihl hbusy).mp rfl
    rw [Expr.Constant.binary_iff, ihr hbusy]
    exact ⟨fun hr => ⟨hl, hr⟩, fun h => h.2⟩
  | ternaryCond _ ih =>
    rw [Expr.Constant.ternary_iff]
    exact ⟨nofun, fun h => (ih hbusy).mpr h.1⟩
  | ternaryThen _ _ ihc iht =>
    rw [Expr.Constant.ternary_iff]
    exact ⟨nofun, fun h => (iht hbusy).mpr h.2.1⟩
  | ternaryElse _ _ _ ihc iht ihe =>
    have hc := (ihc hbusy).mp rfl
    have ht := (iht hbusy).mp rfl
    rw [Expr.Constant.ternary_iff, ihe hbusy]
    exact ⟨fun he => ⟨hc, ht, he⟩, fun h => h.2.2⟩
  | unknown hf =>
    refine ⟨nofun, fun h => ?_⟩
    obtain ⟨info, hleft, -⟩ := Expr.Constant.ident_iff.mp h
    cases hf.symm.trans (find?_of_besides hleft).2
  | untyped hf hty =>
    refine ⟨nofun, fun h => ?_⟩
    obtain ⟨info, hleft, htyped, -⟩ := Expr.Constant.ident_iff.mp h
    cases hf.symm.trans (find?_of_besides hleft).2
    rw [hty] at htyped
    cases htyped
  | @decided busy name info b hf hty hc =>
    -- the names of the list have not been decided
    have hm : name ∉ busy := by
      intro hm
      obtain ⟨body, info', hf', -, hnone, -⟩ := hbusy name hm
      cases hf.symm.trans hf'
      rw [hc] at hnone
      cases hnone
    have hleft : (env.besides busy).find? name = some info := by
      rw [find?_besides, if_neg hm, hf]
    constructor
    · rintro rfl
      exact .decided hleft hty hc
    · intro h
      obtain ⟨info', hleft', -, hdecided | ⟨hnone, -⟩⟩ := Expr.Constant.ident_iff.mp h
      · cases hleft.symm.trans hleft'
        exact Option.some.inj (hc.symm.trans hdecided)
      · cases hleft.symm.trans hleft'
        rw [hc] at hnone
        cases hnone
  | bodiless hf hty hc he =>
    refine ⟨nofun, fun h => ?_⟩
    obtain ⟨info, hleft, -, hdecided | ⟨-, body, hbody, -⟩⟩ := Expr.Constant.ident_iff.mp h
    · cases hf.symm.trans (find?_of_besides hleft).2
      rw [hc] at hdecided
      cases hdecided
    · cases hf.symm.trans (find?_of_besides hleft).2
      rw [he] at hbody
      cases hbody
  | circle ho hm =>
    refine ⟨nofun, fun h => ?_⟩
    obtain ⟨info, hleft, -⟩ := Expr.Constant.ident_iff.mp h
    exact absurd hm (find?_of_besides hleft).1
  | @follow busy name body b ho hm _ ih =>
    have hbusy' : ∀ n ∈ name :: busy, ∃ body, env.Opens n body := by
      intro n hn
      rcases List.mem_cons.mp hn with rfl | hn
      · exact ⟨body, ho⟩
      · exact hbusy n hn
    rw [ih hbusy', besides_cons, Expr.Constant.ident_iff_of_opens (ho.besides hm)]

namespace Expr

/-- **Classification.** In every environment, whatever circles it has, the classification of an
expression ends with one answer, which is yes just when a finite derivation shows the expression to
be a constant. A name that needs itself, directly or through others, is none. -/
theorem classifies_iff_constant (env : MacroEnv) (e : Expr) :
    (∀ b, Classifies env [] e b ↔ b = e.isConstant env) ∧
    (e.isConstant env = true ↔ e.Constant env) ∧
    ∀ name, Relation.TransGen env.NeededBy name name → (ident name).isConstant env = false := by
  have hanswer : ∀ b, Classifies env [] e b → b = e.isConstant env := by
    intro b h
    rw [Bool.eq_iff_iff, isConstant_iff]
    exact h.iff_constant (List.forall_mem_nil _)
  refine ⟨fun b => ⟨hanswer b, ?_⟩, isConstant_iff, fun name hself => ?_⟩
  · rintro rfl
    obtain ⟨b, h⟩ := exists_classifies env [] e
    rwa [← hanswer b h]
  · rw [Bool.eq_false_iff, Ne, isConstant_iff]
    exact fun h => h.not_transGen hself

/-- The name plus one. -/
def plusOne (name : String) : Expr :=
  .binary .add (ident name) (.literal (.int ⟨1, .decimal, "1", .i32⟩))

/-- Two macros that need each other, and one that needs none. -/
def ringEnv : MacroEnv :=
  [("A", ⟨some .i32, some (plusOne "B"), none⟩), ("B", ⟨some .i32, some (plusOne "A"), none⟩),
    ("MASK", ⟨some .i32, some (.literal (.int ⟨16, .decimal, "16", .i32⟩)), none⟩)]

/-- The ring is cut, and a name that is met on two branches is not. -/
theorem classifies_ringEnv :
    let twice : Expr := .binary .bitOr (ident "MASK") (ident "MASK")
    (Classifies ringEnv [] twice true ∧ twice.Constant ringEnv) ∧
    Relation.TransGen ringEnv.NeededBy "A" "A" ∧ (ident "A").isConstant ringEnv = false := by
  intro twice
  obtain ⟨hends, hconstant, hself⟩ := classifies_iff_constant ringEnv twice
  have hab : ringEnv.NeededBy "A" "B" :=
    ⟨plusOne "A", ⟨_, rfl, rfl, rfl, rfl⟩, List.mem_singleton_self "A"⟩
  have hba : ringEnv.NeededBy "B" "A" :=
    ⟨plusOne "B", ⟨_, rfl, rfl, rfl, rfl⟩, List.mem_singleton_self "B"⟩
  have hring : Relation.TransGen ringEnv.NeededBy "A" "A" := .tail (.single hab) hba
  exact ⟨⟨(hends true).mpr rfl, hconstant.mp rfl⟩, hring, hself "A" hring⟩

end Expr

end Bindery
