import Bindery.Proofs.Lowering.Advance

/-!
# What holds of resolution by its rules

Much that is said of resolution holds of the steps that it is put together from, and is handed on
from these. `LowerM.Rules P` is what `P` has to satisfy for that, and then `P` holds of the
resolution of every type, with any override (`LowerM.Rules.resolve`). The case that comes up most is
a relation between a registry and what a step leaves of it, be it by an answer or by an error
(`Registry.Steps`, `LowerM.Keeps`).
-/

namespace Bindery

open Registry

variable {α β : Type}

/-! ### Overrides -/

/-- The relation holds of whatever an override may do: to note names and to register handles, one
after the other. -/
structure TypeOverride.Keeps (R : Registry → Registry → Prop) : Prop where
  refl : ∀ s, R s s
  trans : ∀ {s t u}, R s t → R t u → R s u
  mention : ∀ (s : Registry) (name : String), R s (s.mention name)
  handle : ∀ (s : Registry) (name : String) (void : TypeRef),
    R s (s.insert (.structDef (TypeOverride.handleStruct name void))).2

namespace TypeOverride.Keeps

variable {R : Registry → Registry → Prop}

theorem resolveHandle (h : Keeps R) (name : String) (s : Registry) :
    R s (TypeOverride.resolveHandle name s).2 := by
  change R s ((if ((s.mention name).lookup? name).isNone then _ else _ :
    StateM Registry TypeRef) (s.mention name)).2
  refine h.trans (h.mention s name) ?_
  split
  · exact h.trans (h.mention _ _) (h.handle _ name _)
  · exact h.refl _

mutual

/-- What holds of the steps of an override holds of the override. -/
theorem resolve? (h : Keeps R) (ty : CType) :
    ∀ (o : TypeOverride) (s : Registry), R s (o.resolve? ty s).2
  | .none, s => h.refl s
  | .opaqueHandles start stop, s => by
    unfold TypeOverride.resolve?
    split
    · split
      · exact h.resolveHandle _ s
      · exact h.refl s
    · exact h.refl s
  | .boolTypedef name, s => by
    unfold TypeOverride.resolve?
    split
    · split
      · exact h.mention s _
      · exact h.refl s
    · exact h.refl s
  | .chain overrides, s => by
    rw [TypeOverride.resolve?]
    exact h.resolveFirst? ty overrides s

theorem resolveFirst? (h : Keeps R) (ty : CType) :
    ∀ (os : List TypeOverride) (s : Registry), R s (TypeOverride.resolveFirst? ty os s).2
  | [], s => h.refl s
  | o :: os, s => by
    have ho := h.resolve? ty o s
    rw [TypeOverride.resolveFirst?]
    change R s ((match (o.resolve? ty s).1 with
      | some ref => _
      | Option.none => _ : StateM Registry (Option TypeRef)) (o.resolve? ty s).2).2
    cases (o.resolve? ty s).1 with
    | some ref => exact ho
    | none => exact h.trans ho (h.resolveFirst? ty os _)

end

end TypeOverride.Keeps

/-! ### The rules -/

/-- The property holds of the steps that resolution is put together from, and of what is put
together from steps of which it holds. -/
structure LowerM.Rules (P : ∀ {α : Type}, LowerM α → Prop) : Prop where
  pure : ∀ {α : Type} (a : α), P (Pure.pure a)
  throw : ∀ {α : Type} (e : LowerError), P (MonadExcept.throw e : LowerM α)
  bind : ∀ {α β : Type} {m : LowerM α} {f : α → LowerM β}, P m → (∀ a, P (f a)) → P (m >>= f)
  mention : ∀ name : String, P (LowerM.mention name)
  /-- One thing is done when no definition has the name, and another when there is one. -/
  ifFree : ∀ {α : Type} (name : String) {m n : LowerM α}, P m → P n →
    P (get >>= fun s : Registry => if (s.lookup? name).isNone then m else n)
  resolveFirst : ∀ (o : TypeOverride) (hint : Option String) (ty : CType) {rules : LowerM TypeRef},
    P rules → P (resolveFirst o hint ty rules)
  pointerTo : ∀ (pointeeConst : Bool) (ty : TypeRef), P (pointerTo pointeeConst ty)
  decayed : ∀ ty : TypeRef, P (decayed ty)
  makeEnum : ∀ (fallback : Option String) (decl : EnumDecl), P (makeEnum fallback decl)
  fixedArrayOf : ∀ (length : Nat) (element : TypeRef), P (fixedArrayOf length element)
  structSlot : ∀ name : String, P (modifyGet (·.structSlot name))
  beginStruct : ∀ (id : DefId) (isUnion : Bool) (doc : Doc),
    P (modifyGet (·.beginStruct id isUnion doc))
  setFields : ∀ (id : DefId) (fields : List Field), P (modify (·.setFields id fields))
  insertDelegate : ∀ d : DelegateDef, P (LowerM.insert (.delegateDef d))

namespace LowerM.Rules

variable {P : ∀ {α : Type}, LowerM α → Prop}

theorem primitive (h : Rules P) (p : Primitive) : P (LowerM.primitive p) := by
  have hp : LowerM.primitive p = LowerM.mention p.name >>= fun _ => Pure.pure (.plain p.name) := rfl
  rw [hp]
  exact h.bind (h.mention _) fun _ => h.pure _

theorem flush (h : Rules P) (run : BitFieldRun) (record : String) : P (run.flush record) := by
  unfold BitFieldRun.flush
  split
  · exact h.pure _
  split
  · exact h.throw _
  · exact h.bind (h.primitive _) fun _ => h.pure _

theorem named (h : Rules P) (kind : NamelessKind) (name : Option String) :
    P (Bindery.named kind name) := by
  cases name with
  | none => exact h.throw _
  | some n => exact h.pure _

mutual

/-- What holds by the rules holds of the resolution of every type. -/
theorem resolve (h : Rules P) (o : TypeOverride) :
    ∀ (ty : CType) (hint : Option String) (inStruct : Bool), P (Bindery.resolve o hint inStruct ty)
  | .builtin b, hint, inStruct => by
    rw [Bindery.resolve]
    exact h.resolveFirst o hint _ (h.primitive _)
  | .typedef name target, hint, inStruct => by
    rw [Bindery.resolve]
    refine h.resolveFirst o hint _ ?_
    split
    · exact h.primitive _
    · exact h.resolve o target (some name) inStruct
  | .array element (.constant length) _, hint, inStruct => by
    rw [Bindery.resolve]
    exact h.resolveFirst o hint _ <|
      h.bind (h.resolve o element hint true) fun _ => h.fixedArrayOf length _
  | .array element .incomplete _, hint, inStruct
  | .array element .variable _, hint, inStruct => by
    simp only [Bindery.resolve]
    exact h.resolveFirst o hint _ <|
      h.bind (h.resolve o element hint inStruct) fun _ => h.pure _
  | .record decl, hint, inStruct => by
    rw [Bindery.resolve]
    exact h.resolveFirst o hint _ <|
      h.bind (h.makeStruct o decl hint) fun _ => h.named _ _
  | .enum decl, hint, inStruct => by
    rw [Bindery.resolve]
    exact h.resolveFirst o hint _ <|
      h.bind (h.makeEnum hint decl) fun _ => h.named _ _
  | .pointer pointee pointeeConst, hint, inStruct => by
    rw [Bindery.resolve]
    exact h.resolveFirst o hint _ <|
      h.bind (h.resolve o pointee hint inStruct) fun _ => h.pointerTo pointeeConst _
  | .function ty, none, inStruct => by
    rw [Bindery.resolve]
    exact h.resolveFirst o none _ (h.throw _)
  | .function ty, some name, inStruct => by
    rw [Bindery.resolve]
    exact h.resolveFirst o (some name) _ (h.makeDelegate o ty name inStruct)
  | .unsupported spelling, hint, inStruct => by
    rw [Bindery.resolve]
    exact h.resolveFirst o hint _ (h.throw _)

theorem makeStruct (h : Rules P) (o : TypeOverride) :
    ∀ (decl : RecordDecl) (fallback : Option String), P (Bindery.makeStruct o fallback decl)
  | ⟨tag, fields, isUnion, doc⟩, fallback => by
    rw [Bindery.makeStruct]
    split
    · exact h.pure _
    next name _ =>
    refine h.bind (h.mention _) fun _ => h.bind (h.structSlot name) fun id => ?_
    cases id with
    | none => exact h.pure _
    | some id =>
      cases fields with
      | none => exact h.pure _
      | some decls =>
        refine h.bind (h.beginStruct id isUnion doc) fun new => ?_
        dsimp only
        split
        · refine h.bind (h.lowerFields o decls name .empty) fun lowered => ?_
          exact h.bind (h.setFields id lowered) fun _ => h.pure _
        · exact h.pure _

theorem lowerFields (h : Rules P) (o : TypeOverride) :
    ∀ (decls : List FieldDecl) (record : String) (run : BitFieldRun),
      P (Bindery.lowerFields o record run decls)
  | [], record, run => by
    rw [Bindery.lowerFields]
    exact h.flush run record
  | ⟨name, _, some width, doc, _⟩ :: decls, record, run => by
    rw [Bindery.lowerFields]
    exact h.lowerFields o decls record _
  | ⟨name, ty, none, doc, deprecation⟩ :: decls, record, run => by
    rw [Bindery.lowerFields]
    exact h.bind (h.flush run record) fun _ => h.bind (h.resolve o ty _ true) fun _ =>
      h.bind (h.lowerFields o decls record .empty) fun _ => h.pure _

theorem makeDelegate (h : Rules P) (o : TypeOverride) :
    ∀ (ty : FunctionType) (name : String) (embedded : Bool),
      P (Bindery.makeDelegate o name embedded ty)
  | ⟨returnType, params, callConv⟩, name, embedded => by
    rw [Bindery.makeDelegate]
    refine h.bind (h.mention _) fun _ => h.ifFree name ?_ (h.pure _)
    exact h.bind (h.resolve o returnType none false) fun _ => h.bind (h.decayed _) fun _ =>
      h.bind (h.lowerParams o params name 0) fun _ => h.bind (h.insertDelegate _) fun _ => h.pure _

theorem lowerParams (h : Rules P) (o : TypeOverride) :
    ∀ (decls : List ParamDecl) (owner : String) (i : Nat), P (Bindery.lowerParams o owner i decls)
  | [], owner, i => by
    rw [Bindery.lowerParams]
    exact h.pure _
  | ⟨name, ty, doc⟩ :: decls, owner, i => by
    rw [Bindery.lowerParams]
    exact h.bind (h.resolve o ty _ false) fun _ => h.bind (h.decayed _) fun _ =>
      h.bind (h.lowerParams o decls owner (i + 1)) fun _ => h.pure _

end

theorem resolveInSignature (h : Rules P) (o : TypeOverride) (hint : Option String) (ty : CType) :
    P (Bindery.resolveInSignature o hint ty) :=
  h.bind (h.resolve o ty hint false) fun _ => h.decayed _

end LowerM.Rules

/-! ### What steps make of a registry -/

/-- The relation holds of whatever a step of resolution may do to a registry. -/
structure Registry.Steps (R : Registry → Registry → Prop) : Prop extends TypeOverride.Keeps R where
  insertEnum : ∀ (s : Registry) (d : EnumDef), R s (s.insert (.enumDef d)).2
  insertDelegate : ∀ (s : Registry) (d : DelegateDef), R s (s.insert (.delegateDef d)).2
  insertFixedArray : ∀ (s : Registry) (element : TypeRef) (length : Nat),
    R s (s.insertFixedArray (s.newArray element length)).2
  structSlot : ∀ (s : Registry) (name : String), R s (s.structSlot name).2
  beginStruct : ∀ (s : Registry) (id : DefId) (isUnion : Bool) (doc : Doc),
    R s (s.beginStruct id isUnion doc).2
  setFields : ∀ (s : Registry) (id : DefId) (fields : List Field), R s (s.setFields id fields)

/-- The relation holds of the registry and what the step leaves of it, whether it answers or
fails. -/
def LowerM.Keeps (R : Registry → Registry → Prop) (m : LowerM α) : Prop :=
  ∀ s, match m s with
    | .ok _ t => R s t
    | .error _ t => R s t

namespace LowerM.Keeps

variable {R : Registry → Registry → Prop} {m : LowerM α} {f : α → LowerM β}

theorem of_ok (h : m.Keeps R) {s t : Registry} {a : α} (hm : m s = .ok a t) : R s t := by
  have hs := h s
  rw [hm] at hs
  exact hs

theorem of_error (h : m.Keeps R) {s t : Registry} {e : LowerError} (hm : m s = .error e t) :
    R s t := by
  have hs := h s
  rw [hm] at hs
  exact hs

theorem bind (hR : ∀ {s t u}, R s t → R t u → R s u) (hm : m.Keeps R) (hf : ∀ a, (f a).Keeps R) :
    (m >>= f).Keeps R := by
  intro s
  cases hs : m s with
  | error e t =>
    rw [bind_error hs]
    exact hm.of_error hs
  | ok a t =>
    rw [bind_ok hs]
    cases ht : f a t with
    | error e u => exact hR (hm.of_ok hs) ((hf a).of_error ht)
    | ok b u => exact hR (hm.of_ok hs) ((hf a).of_ok ht)

theorem get_bind {g : Registry → LowerM α} (h : ∀ s, (g s).Keeps R) : Keeps R (get >>= g) :=
  fun s => h s s

theorem modifyGet {g : Registry → α × Registry} (h : ∀ s : Registry, R s (g s).2) :
    Keeps R (MonadState.modifyGet g : LowerM α) := h

end LowerM.Keeps

/-- What holds of every step that is taken on a registry holds of resolution. -/
theorem Registry.Steps.rules {R : Registry → Registry → Prop} (h : Steps R) :
    LowerM.Rules (fun m => m.Keeps R) where
  pure _ := h.refl
  throw _ := h.refl
  bind := .bind h.trans
  mention name := .modifyGet fun s => h.mention s name
  ifFree name _ _ hm hn := .get_bind fun s => by
    split
    · exact hm
    · exact hn
  resolveFirst o hint ty _ hr := .get_bind fun s => by
    split
    · exact h.refl
    · refine .bind h.trans (.modifyGet (h.resolve? ty o)) fun answer => ?_
      split
      · exact h.refl
      · exact hr
  pointerTo pointeeConst ty := .get_bind fun s => by
    split
    · exact h.refl
    · exact h.refl
  decayed ty := .get_bind fun s => h.refl
  makeEnum fallback decl := by
    unfold makeEnum
    split
    · exact h.refl
    · refine .bind h.trans (.modifyGet fun s => h.mention s _) fun _ => .get_bind fun s => ?_
      split
      · exact h.refl
      split
      · exact h.refl
      · exact .bind h.trans (.modifyGet fun s => h.insertEnum s _) fun _ => h.refl
  fixedArrayOf length element := .get_bind fun s => .get_bind fun s' => by
    split
    · exact h.refl
    · exact .bind h.trans (.modifyGet fun s => h.mention s _) fun _ t =>
        h.insertFixedArray t element length
  structSlot name := .modifyGet fun s => h.structSlot s name
  beginStruct id isUnion doc := .modifyGet fun s => h.beginStruct s id isUnion doc
  setFields id fields := .modifyGet fun s => h.setFields s id fields
  insertDelegate d := .modifyGet fun s => h.insertDelegate s d

end Bindery
