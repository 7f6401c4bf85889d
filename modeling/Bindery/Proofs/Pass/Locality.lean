import Bindery.Policy.Visitor
import Bindery.Proofs.Registry.InPlace

/-!
# What the stock visitor policies look at

The hooks of a visitor policy see the rest of the registry, and may meet names and change a state of
their own. What the hooks of the stock policies make of a definition depends on none of that, the
fixed arrays aside: a field asks whether its type is the name of one. And no stock policy changes a
fixed array. Such a policy is `Local`, and the stock policies are, chains of them included
(`Visitor.policy_local`).
-/

namespace Bindery

variable {σ α β : Type}

/-! ### Actions that answer alike -/

namespace PassM

/-- Both actions give the same answer, whatever states they start from. -/
def Agree (m m' : PassM σ α) : Prop := ∀ s s', (m s).1 = (m' s').1

namespace Agree

variable {m m' : PassM σ α} {f f' : α → PassM σ β}

theorem pure (a : α) : Agree (Pure.pure a : PassM σ α) (Pure.pure a) := fun _ _ => rfl

theorem mention (name : String) :
    Agree (PassM.mention name : PassM σ PUnit) (PassM.mention name) := fun _ _ => rfl

theorem modifyOwn (g : σ → σ) : Agree (PassM.modifyOwn g) (PassM.modifyOwn g) := fun _ _ => rfl

theorem bind (hm : Agree m m') (hf : ∀ a, Agree (f a) (f' a)) : Agree (m >>= f) (m' >>= f') := by
  intro s s'
  change (f (m s).1 (m s).2).1 = (f' (m' s').1 (m' s').2).1
  rw [hm s s']
  exact hf _ _ _

theorem map (g : α → β) (hm : Agree m m') : Agree (g <$> m) (g <$> m') :=
  fun s s' => congrArg g (hm s s')

theorem ite {c : Prop} [Decidable c] {n n' : PassM σ α} (hm : c → Agree m m')
    (hn : ¬c → Agree n n') : Agree (if c then m else n) (if c then m' else n') := by
  split
  · next h => exact hm h
  · next h => exact hn h

theorem mapM {g g' : α → PassM σ β} (h : ∀ a, Agree (g a) (g' a)) (as : List α) :
    Agree (as.mapM g) (as.mapM g') := by
  induction as with
  | nil => exact pure []
  | cons a as ih =>
    rw [List.mapM_cons, List.mapM_cons]
    exact (h a).bind fun b => ih.bind fun bs => pure _

theorem foldlM {g g' : α → β → PassM σ α} {bs : List β}
    (h : ∀ b ∈ bs, ∀ a, Agree (g a b) (g' a b)) (a : α) :
    Agree (bs.foldlM g a) (bs.foldlM g' a) := by
  induction bs generalizing a with
  | nil => exact pure a
  | cons b bs ih =>
    rw [List.foldlM_cons, List.foldlM_cons]
    exact (h b (List.mem_cons_self ..) a).bind
      fun a => ih (fun b hb => h b (List.mem_cons_of_mem _ hb)) a

/-- What changes nothing may be done many times. -/
theorem foldlM_pure {g : α → β → PassM σ α} {bs : List β}
    (h : ∀ b ∈ bs, ∀ a, Agree (g a b) (Pure.pure a)) (a : α) :
    Agree (bs.foldlM g a) (Pure.pure a) := by
  have hpure : bs.foldlM (fun a _ => (Pure.pure a : PassM σ α)) a = Pure.pure a := by
    induction bs with
    | nil => rfl
    | cons b bs ih => exact ih fun b hb => h b (List.mem_cons_of_mem _ hb)
  exact hpure ▸ foldlM h a

theorem hasBase (ty : TypeRef) (p : Primitive) :
    Agree (PassM.hasBase ty p : PassM σ Bool) (PassM.hasBase ty p) :=
  (mention _).bind fun _ => pure _

theorem isCharBehind (ty : TypeRef) (modifiers : List Modifier) :
    Agree (PassM.isCharBehind ty modifiers : PassM σ Bool) (PassM.isCharBehind ty modifiers) :=
  (hasBase ty .byte).bind fun _ => pure _

end Agree

end PassM

open PassM

/-! ### What hooks see of the registry -/

/-- Names lead to the same slots, and the same slots hold the same fixed arrays. -/
structure Registry.SameArrays (r r' : Registry) : Prop where
  index : r'.index = r.index
  get? : ∀ id, (r'.get? id).bind Definition.asFixedArray? =
    (r.get? id).bind Definition.asFixedArray?

variable {r r' : Registry}

theorem Registry.SameArrays.find? (h : r.SameArrays r') (n : String) :
    (r'.find? n).bind Definition.asFixedArray? = (r.find? n).bind Definition.asFixedArray? := by
  unfold Registry.find? Registry.lookup?
  rw [h.index]
  cases r.index.lookup n with
  | none => rfl
  | some id => exact h.get? id

theorem Field.inlineArray_congr (h : r.SameArrays r') (field : Field) :
    field.inlineArray r' = field.inlineArray r := by
  unfold Field.inlineArray
  rw [h.find?]

/-- The hooks look at fixed arrays only, and at no state. -/
structure ChildHooks.Local (h : ChildHooks σ) : Prop where
  onEnumItem : ∀ {r r' : Registry}, r.SameArrays r' → ∀ owner item,
    Agree (h.onEnumItem r owner item) (h.onEnumItem r' owner item)
  onStructField : ∀ {r r' : Registry}, r.SameArrays r' → ∀ owner field,
    Agree (h.onStructField r owner field) (h.onStructField r' owner field)
  onFunctionParam : ∀ {r r' : Registry}, r.SameArrays r' → ∀ owner param,
    Agree (h.onFunctionParam r owner param) (h.onFunctionParam r' owner param)
  onDelegateParam : ∀ {r r' : Registry}, r.SameArrays r' → ∀ owner param,
    Agree (h.onDelegateParam r owner param) (h.onDelegateParam r' owner param)

/-- The hooks for kinds look at fixed arrays only and at no state, and leave fixed arrays alone. The
hook that comes after them changes nothing. -/
structure VisitPolicy.Local (p : VisitPolicy σ) : Prop where
  onMacro : ∀ {r r' : Registry}, r.SameArrays r' → ∀ d, Agree (p.onMacro r d) (p.onMacro r' d)
  onEnum : ∀ {r r' : Registry}, r.SameArrays r' → ∀ d, Agree (p.onEnum r d) (p.onEnum r' d)
  onStruct : ∀ {r r' : Registry}, r.SameArrays r' → ∀ d, Agree (p.onStruct r d) (p.onStruct r' d)
  onFunction : ∀ {r r' : Registry}, r.SameArrays r' → ∀ d,
    Agree (p.onFunction r d) (p.onFunction r' d)
  onDelegate : ∀ {r r' : Registry}, r.SameArrays r' → ∀ d,
    Agree (p.onDelegate r d) (p.onDelegate r' d)
  onFixedArray : ∀ r d, Agree (p.onFixedArray r d) (pure d)
  onDefinition : ∀ r d, Agree (p.onDefinition r d) (pure d)

/-! ### Walks over children -/

namespace ChildHooks.Local

variable {h : ChildHooks σ}

theorem standard : (ChildHooks.standard : ChildHooks σ).Local where
  onEnumItem _ _ _ := .pure _
  onStructField hr _ field _ _ := (field.inlineArray_congr hr).symm
  onFunctionParam _ _ _ := .pure _
  onDelegateParam _ _ _ := .pure _

theorem walkEnum (hh : h.Local) (hr : r.SameArrays r') (d : EnumDef) :
    Agree (h.walkEnum r d) (h.walkEnum r' d) :=
  .bind (.mapM (hh.onEnumItem hr d.label) _) fun _ => .pure _

theorem walkStruct (hh : h.Local) (hr : r.SameArrays r') (d : StructDef) :
    Agree (h.walkStruct r d) (h.walkStruct r' d) :=
  .bind (.mapM (hh.onStructField hr d.label) _) fun _ => .pure _

theorem walkFunction (hh : h.Local) (hr : r.SameArrays r') (d : FunctionDef) :
    Agree (h.walkFunction r d) (h.walkFunction r' d) :=
  .bind (.mapM (hh.onFunctionParam hr d.label) _) fun _ => .pure _

theorem walkDelegate (hh : h.Local) (hr : r.SameArrays r') (d : DelegateDef) :
    Agree (h.walkDelegate r d) (h.walkDelegate r' d) :=
  .bind (.mapM (hh.onDelegateParam hr d.label) _) fun _ => .pure _

end ChildHooks.Local

namespace VisitPolicy

theorem local_ofChildren {h : ChildHooks σ} (hh : h.Local) : (ofChildren h).Local where
  onMacro _ _ := .pure _
  onEnum := hh.walkEnum
  onStruct := hh.walkStruct
  onFunction := hh.walkFunction
  onDelegate := hh.walkDelegate
  onFixedArray _ _ := .pure _
  onDefinition _ _ := .pure _

theorem local_ofParams {mark : Label → Param → PassM σ Param}
    (hm : ∀ owner param, Agree (mark owner param) (mark owner param)) : (ofParams mark).Local :=
  local_ofChildren
    { ChildHooks.Local.standard with
      onFunctionParam := fun _ => hm
      onDelegateParam := fun _ => hm }

theorem local_ofSignatures {mark : Param → PassM σ Param} {finish : Signature → PassM σ Signature}
    (hm : ∀ param, Agree (mark param) (mark param))
    (hf : ∀ sig, Agree (finish sig) (finish sig)) : (ofSignatures mark finish).Local :=
  have hp : (ofParams fun _ => mark).Local := local_ofParams fun _ => hm
  { hp with
    onFunction := fun hr d => .bind (hp.onFunction hr d) fun _ => .bind (hf _) fun _ => .pure _
    onDelegate := fun hr d => .bind (hp.onDelegate hr d) fun _ => .bind (hf _) fun _ => .pure _ }

theorem local_chain {ps : List (VisitPolicy σ)} (hps : ∀ p ∈ ps, p.Local) : (chain ps).Local where
  onMacro hr := .foldlM fun p hp => (hps p hp).onMacro hr
  onEnum hr := .foldlM fun p hp => (hps p hp).onEnum hr
  onStruct hr := .foldlM fun p hp => (hps p hp).onStruct hr
  onFunction hr := .foldlM fun p hp => (hps p hp).onFunction hr
  onDelegate hr := .foldlM fun p hp => (hps p hp).onDelegate hr
  onFixedArray r := .foldlM_pure fun p hp => (hps p hp).onFixedArray r
  onDefinition r := .foldlM_pure fun p hp => (hps p hp).onDefinition r

end VisitPolicy

/-! ### The stock policies -/

theorem agree_markErrorMessage (handle : String) (param : Param) :
    Agree (param.markErrorMessage handle : PassM σ Param) (param.markErrorMessage handle) := by
  unfold Param.markErrorMessage
  refine .ite (fun _ => .pure _) fun _ => .bind (.isCharBehind _ _) fun _ => ?_
  exact .ite (fun _ => .bind (.mention _) fun _ => .pure _) fun _ => .pure _

theorem agree_markBool (attr : String) (param : Param) :
    Agree (param.markBool attr : PassM σ Param) (param.markBool attr) := by
  unfold Param.markBool
  refine .ite (fun _ => .pure _) fun _ => .bind (.hasBase _ _) fun _ => ?_
  exact .ite (fun _ => .pure _) fun _ => .pure _

theorem agree_markText (stringType attr : String) (param : Param) :
    Agree (param.markText stringType attr : PassM σ Param) (param.markText stringType attr) := by
  unfold Param.markText
  refine .ite (fun _ => .pure _) fun _ => .bind (.isCharBehind _ _) fun _ => ?_
  exact .ite (fun _ => .bind (.mention _) fun _ => .pure _) fun _ => .pure _

theorem agree_markBoolReturn (attr : String) (sig : Signature) :
    Agree (sig.markBoolReturn attr : PassM σ Signature) (sig.markBoolReturn attr) := by
  unfold Signature.markBoolReturn
  refine .ite (fun _ => .pure _) fun _ => .bind (.hasBase _ _) fun _ => ?_
  exact .ite (fun _ => .pure _) fun _ => .pure _

theorem agree_markTextReturn (stringType attr : String) (sig : Signature) :
    Agree (sig.markTextReturn stringType attr : PassM σ Signature)
      (sig.markTextReturn stringType attr) := by
  refine .bind (.isCharBehind _ _) fun _ => ?_
  exact .ite (fun _ => .bind (.mention _) fun _ => .pure _) fun _ => .pure _

theorem agree_retypeBool (typeName : String) (field : Field) :
    Agree (field.retypeBool typeName : PassM σ Field) (field.retypeBool typeName) := by
  refine .bind (.hasBase _ _) fun _ => ?_
  exact .ite (fun _ => .bind (.mention _) fun _ => .pure _) fun _ => .pure _

namespace VisitPolicy

theorem local_structAttribute (start stop attr : String) :
    (structAttribute start stop attr : VisitPolicy σ).Local :=
  have hh : (ChildHooks.standard : ChildHooks σ).Local := .standard
  { local_ofChildren hh with
    onStruct := fun hr d => .bind (hh.walkStruct hr d) fun _ => .pure _ }

theorem local_boolFields (typeName : String) : (boolFields typeName : VisitPolicy σ).Local :=
  local_ofChildren
    { ChildHooks.Local.standard with
      onStructField := fun hr _ field => by
        change Agree ((field.inlineArray _).retypeBool typeName)
          ((field.inlineArray _).retypeBool typeName)
        rw [field.inlineArray_congr hr]
        exact agree_retypeBool typeName _ }

/-- Notes do not count. -/
theorem local_recording : recording.Local := by
  have hstandard : (ChildHooks.standard : ChildHooks Trace).Local := .standard
  have hh : recording.toChildHooks.Local :=
    { onEnumItem := fun hr owner item => .bind (.modifyOwn _) fun _ =>
        hstandard.onEnumItem hr owner item
      onStructField := fun hr owner field => .bind (.modifyOwn _) fun _ =>
        hstandard.onStructField hr owner field
      onFunctionParam := fun hr owner param => .bind (.modifyOwn _) fun _ =>
        hstandard.onFunctionParam hr owner param
      onDelegateParam := fun hr owner param => .bind (.modifyOwn _) fun _ =>
        hstandard.onDelegateParam hr owner param }
  exact
    { onMacro := fun _ d => .bind (.modifyOwn _) fun _ => .pure d
      onEnum := fun hr d => .bind (.modifyOwn _) fun _ => hh.walkEnum hr d
      onStruct := fun hr d => .bind (.modifyOwn _) fun _ => hh.walkStruct hr d
      onFunction := fun hr d => .bind (.modifyOwn _) fun _ => hh.walkFunction hr d
      onDelegate := fun hr d => .bind (.modifyOwn _) fun _ => hh.walkDelegate hr d
      onFixedArray := fun _ d _ _ => rfl
      onDefinition := fun _ d _ _ => rfl }

end VisitPolicy

namespace Visitor

theorem policies_eq_map (vs : List Visitor) : policies vs = vs.map policy := by
  induction vs with
  | nil => rfl
  | cons v vs ih => rw [policies, ih]; rfl

mutual

/-- The stock policies are local, and so are chains of them, chains in chains included. -/
theorem policy_local : ∀ v : Visitor, v.policy.Local
  | standard => VisitPolicy.local_ofChildren .standard
  | outParams _ => VisitPolicy.local_ofParams fun _ _ => .pure _
  | errorMessages handle => VisitPolicy.local_ofParams fun _ => agree_markErrorMessage handle
  | boolMarshal attr =>
    VisitPolicy.local_ofSignatures (agree_markBool attr) (agree_markBoolReturn attr)
  | textParams stringType attr => VisitPolicy.local_ofSignatures (agree_markText stringType attr)
      (agree_markTextReturn stringType attr)
  | structAttribute start stop attr => VisitPolicy.local_structAttribute start stop attr
  | boolFields typeName => VisitPolicy.local_boolFields typeName
  | chain visitors => VisitPolicy.local_chain (policies_local visitors)
  | recording => VisitPolicy.local_recording

theorem policies_local : ∀ vs : List Visitor, ∀ p ∈ policies vs, p.Local
  | [], _, hp => nomatch hp
  | v :: vs, p, hp => by
    rw [policies] at hp
    rcases List.mem_cons.mp hp with rfl | hp
    · exact policy_local v
    · exact policies_local vs p hp

end

end Visitor

end Bindery
