import Bindery.Proofs.Lowering.Processing
import Bindery.Proofs.Pass.Chaining

/-!
# Repeated policies

Policies are chained with others that do the same work, so it should not matter whether a policy
comes twice. What the stock policies write is the same the second time, and a field that has been a
fixed array of a primitive type is none any more. The exception are out parameters: the parameter is
recognized by its name, which stays, and each time it loses a modifier. So a chain of a stock policy
with itself leaves what the policy leaves, unless that is the policy for out parameters and one of
these is behind more than one modifier (`Lowerer.Used.visitAll_twice_eq_iff`).
-/

namespace Bindery

open PassM Registry

variable {σ α β : Type}

/-! ### Hooks that run twice -/

namespace PassM

/-- Whatever the state, the answer is as `P` says. -/
def Answers (m : PassM σ α) (P : α → Prop) : Prop := ∀ s, P (m s).1

namespace Answers

variable {P : α → Prop} {m : PassM σ α}

theorem pure {a : α} (h : P a) : Answers (Pure.pure a : PassM σ α) P := fun _ => h

theorem bind (m : PassM σ β) {f : β → PassM σ α} (h : ∀ b, Answers (f b) P) :
    Answers (m >>= f) P := fun s => h _ (m s).2

theorem ite {c : Prop} [Decidable c] {n : PassM σ α} (hm : Answers m P) (hn : Answers n P) :
    Answers (if c then m else n) P := by
  split
  · exact hm
  · exact hn

end Answers

variable [Inhabited σ]

/-- What the hook has changed once it leaves alone. -/
def Settles (f : α → PassM σ α) : Prop := ∀ a, value (f (value (f a))) = value (f a)

/-- The hook changes what it changes to something that the change leaves alone. -/
theorem Settles.of_change {f : α → PassM σ α} {g : α → α}
    (hf : ∀ a, Answers (f a) fun b => b = a ∨ b = g a) (hg : ∀ a, g (g a) = g a) : Settles f := by
  intro a
  have hvalue : ∀ a, value (f a) = a ∨ value (f a) = g a := fun a => hf a _
  rcases hvalue a with ha | ha <;> rw [ha]
  · exact ha
  · rcases hvalue (g a) with hb | hb
    · exact hb
    · exact hb.trans (hg a)

theorem value_mapM {f : α → PassM σ β} (hf : ∀ a, Agree (f a) (f a)) (as : List α) :
    value (as.mapM f) = as.map fun a => value (f a) := by
  induction as with
  | nil => rfl
  | cons a as ih =>
    rw [List.mapM_cons, value_bind _ fun b => .bind (.mapM hf as) fun _ => .pure _,
      value_bind _ fun _ => .pure _, ih]
    rfl

end PassM

/-! ### What policies make of definitions -/

namespace Definition

/-- The parameters of a function or a delegate. -/
def params : Definition → List Param
  | functionDef d => d.signature.params
  | delegateDef d => d.signature.params
  | _ => []

/-- The definition with its signature changed, if it is a function or a delegate. -/
def mapSignature (f : Signature → Signature) : Definition → Definition
  | functionDef d => functionDef { d with signature := f d.signature }
  | delegateDef d => delegateDef { d with signature := f d.signature }
  | d => d

/-- The definition changed, if it is a struct. -/
def mapStruct (f : StructDef → StructDef) : Definition → Definition
  | structDef d => structDef (f d)
  | d => d

/-- What every stock policy makes of a definition, with `f` for the parameters. -/
def visited (rest : Registry) (f : Label → Param → Param) : Definition → Definition
  | enumDef d => enumDef d.markFlags
  | structDef d => structDef { d with fields := d.fields.map (·.inlineArray rest) }
  | d => d.mapSignature fun s => { s with params := s.params.map (f d.label) }

end Definition

namespace VisitPolicy

variable [Inhabited σ]

theorem effect_ofParams {mark : Label → Param → PassM σ Param}
    (hm : ∀ owner param, Agree (mark owner param) (mark owner param)) (rest : Registry)
    (d : Definition) :
    (ofParams mark).effect rest d = d.visited rest fun owner param => value (mark owner param) := by
  cases d with
  | macroDef d => rfl
  | fixedArray d => rfl
  | enumDef d =>
    change Definition.enumDef { d.markFlags with items := value (d.items.mapM pure) } = _
    have hitems : value (d.items.mapM (pure : EnumItem → PassM σ EnumItem)) = d.items :=
      (value_mapM (fun _ => .pure _) d.items).trans d.items.map_id
    rw [hitems]
    rfl
  | structDef d =>
    change Definition.structDef { d with
      fields := value (d.fields.mapM fun field => pure (field.inlineArray rest)) } = _
    rw [value_mapM fun _ => .pure _]
    rfl
  | functionDef d =>
    change Definition.functionDef { d with signature := { d.signature with
      params := value (d.signature.params.mapM (mark d.label)) } } = _
    rw [value_mapM (hm d.label)]
    rfl
  | delegateDef d =>
    change Definition.delegateDef { d with signature := { d.signature with
      params := value (d.signature.params.mapM (mark d.label)) } } = _
    rw [value_mapM (hm d.label)]
    rfl

theorem effect_standard (rest : Registry) (d : Definition) :
    (standard : VisitPolicy σ).effect rest d = d.visited rest fun _ param => param := by
  change (ofParams fun _ param => pure param : VisitPolicy σ).effect rest d = _
  exact effect_ofParams (fun _ _ => .pure _) rest d

theorem effect_ofSignatures {mark : Param → PassM σ Param} {finish : Signature → PassM σ Signature}
    (hm : ∀ param, Agree (mark param) (mark param))
    (hf : ∀ sig, Agree (finish sig) (finish sig)) (rest : Registry) (d : Definition) :
    (ofSignatures mark finish).effect rest d =
      (d.visited rest fun _ param => value (mark param)).mapSignature
        fun s => value (finish s) := by
  rw [← effect_ofParams (fun _ => hm) rest d]
  cases d with
  | macroDef d => rfl
  | fixedArray d => rfl
  | enumDef d => rfl
  | structDef d => rfl
  | functionDef d =>
    change Definition.functionDef (value ((ofParams fun _ => mark).onFunction rest d >>= fun d =>
      finish d.signature >>= fun signature => pure { d with signature })) = _
    rw [value_bind _ fun _ => .bind (hf _) fun _ => .pure _, value_bind _ fun _ => .pure _]
    rfl
  | delegateDef d =>
    change Definition.delegateDef (value ((ofParams fun _ => mark).onDelegate rest d >>= fun d =>
      finish d.signature >>= fun signature => pure { d with signature })) = _
    rw [value_bind _ fun _ => .bind (hf _) fun _ => .pure _, value_bind _ fun _ => .pure _]
    rfl

theorem effect_structAttribute (start stop attr : String) (rest : Registry) (d : Definition) :
    (structAttribute start stop attr : VisitPolicy σ).effect rest d =
      (d.visited rest fun _ param => param).mapStruct (·.markAttribute start stop attr) := by
  rw [← effect_standard (σ := σ)]
  cases d <;> rfl

end VisitPolicy

/-! ### What a second visit finds -/

/-- A field that was a fixed array of a primitive type is no fixed array any more: the element has
the name of a primitive type, and no array has that. -/
theorem Field.inlineArray_inlineArray {r rest : Registry} (hr : r.Consistent)
    (hw : r.ArraysWritten) (hrest : ∀ n a, rest.find? n = some (.fixedArray a) →
      r.find? n = some (.fixedArray a)) (field : Field) :
    (field.inlineArray rest).inlineArray rest = field.inlineArray rest := by
  have hwritten : ∀ n a, rest.find? n = some (.fixedArray a) → a.label.name = n ∧ a.Written :=
    fun n a hf => by
      obtain ⟨id, hd, hn⟩ := hr.find?_eq_some_iff.mp (hrest n a hf)
      exact ⟨hn, hw id a hd⟩
  have harray : ∀ n a, (rest.find? n).bind Definition.asFixedArray? = some a →
      rest.find? n = some (.fixedArray a) := fun n a h => by
    obtain ⟨d, hd, ha⟩ := Option.bind_eq_some_iff.mp h
    cases d <;> cases ha
    exact hd
  by_cases hplain : field.ty.isPlain = true
  · cases ha : (rest.find? field.ty.base).bind Definition.asFixedArray? with
    | none => simp [inlineArray, hplain, ha]
    | some a =>
      cases hp : a.elementIsPrimitive with
      | false => simp [inlineArray, hplain, ha, hp]
      | true =>
        have hprim := ((hwritten _ _ (harray _ _ ha)).2.primitive hp).2
        have hnone : (rest.find? a.element.base).bind Definition.asFixedArray? = none := by
          refine Option.eq_none_iff_forall_ne_some.mpr fun a' ha' => ?_
          obtain ⟨hname, hw'⟩ := hwritten _ _ (harray _ _ ha')
          rw [← hname, hw'.name_eq, Primitive.ofName?_fixedArrayName] at hprim
          cases hprim
        simp [inlineArray, hplain, ha, hp, hnone]
  · simp [inlineArray, hplain]

namespace Definition

variable {rest : Registry}

theorem visited_visited_eq_iff
    (hrest : ∀ field : Field, (field.inlineArray rest).inlineArray rest = field.inlineArray rest)
    (f : Label → Param → Param) (d : Definition) :
    (d.visited rest f).visited rest f = d.visited rest f ↔
      ∀ param ∈ d.params, f d.label (f d.label param) = f d.label param := by
  cases d with
  | macroDef d => simp [visited, mapSignature, params]
  | fixedArray d => simp [visited, mapSignature, params]
  | enumDef d => simp [visited, params, EnumDef.markFlags]
  | structDef d => simp [visited, params, hrest]
  | functionDef d => simp [visited, mapSignature, params, label]
  | delegateDef d => simp [visited, mapSignature, params, label]

end Definition

/-! ### The stock policies -/

namespace Param

/-- The parameter passed out. -/
def takenOut (param : Param) : Param := { param with ty := param.ty.pop, modifier := .byOut }

/-- Whether the parameter is one that is passed out, by its name and that of its owner. -/
def goesOut (starts : List String) (owner : Label) (param : Param) : Bool :=
  starts.any (Text.beginsWith owner.name) && isOutName param.name

theorem markOut_eq (starts : List String) (owner : Label) (param : Param) :
    param.markOut starts owner =
      if param.goesOut starts owner = true ∧ 0 < param.ty.modifiers.length then param.takenOut
      else param := by
  unfold markOut
  simp [goesOut, TypeRef.isPlain, takenOut, List.length_pos_iff]

/-- A parameter that is passed out loses one more modifier each time. -/
theorem markOut_markOut_eq_iff (starts : List String) (owner : Label) (param : Param) :
    (param.markOut starts owner).markOut starts owner = param.markOut starts owner ↔
      ¬(param.goesOut starts owner = true ∧ 2 ≤ param.ty.modifiers.length) := by
  have hgoes : param.takenOut.goesOut starts owner = param.goesOut starts owner := rfl
  have hlength : ∀ p : Param, p.takenOut.ty.modifiers.length = p.ty.modifiers.length - 1 :=
    fun p => List.length_dropLast
  by_cases h : param.goesOut starts owner = true ∧ 0 < param.ty.modifiers.length
  · rw [markOut_eq starts owner param, if_pos h, markOut_eq, hgoes, hlength]
    constructor
    · rintro heq ⟨-, htwo⟩
      rw [if_pos ⟨h.1, by omega⟩] at heq
      have hlost := congrArg (fun p : Param => p.ty.modifiers.length) heq
      simp only [hlength] at hlost
      omega
    · intro hone
      exact if_neg fun hpos => hone ⟨h.1, by omega⟩
  · have hsame : param.markOut starts owner = param := by rw [markOut_eq, if_neg h]
    rw [hsame, hsame]
    simp only [true_iff]
    exact fun htwo => h ⟨htwo.1, by omega⟩

variable [Inhabited σ]

theorem settles_markErrorMessage (handle : String) :
    Settles (markErrorMessage handle : Param → PassM σ Param) := by
  refine .of_change (g := fun p => { p with ty := .plain handle, modifier := .byOut })
    (fun p => ?_) fun _ => rfl
  unfold markErrorMessage
  refine .ite (.pure (.inl rfl)) (.bind _ fun _ => ?_)
  exact .ite (.bind _ fun _ => .pure (.inr rfl)) (.pure (.inl rfl))

theorem settles_markBool (attr : String) : Settles (markBool attr : Param → PassM σ Param) := by
  refine .of_change (g := fun p => { p with attributes := [attr] }) (fun p => ?_) fun _ => rfl
  unfold markBool
  refine .ite (.pure (.inl rfl)) (.bind _ fun _ => ?_)
  exact .ite (.pure (.inr rfl)) (.pure (.inl rfl))

theorem settles_markText (stringType attr : String) :
    Settles (markText stringType attr : Param → PassM σ Param) := by
  refine .of_change (g := fun p => { p with ty := .plain stringType, attributes := [attr] })
    (fun p => ?_) fun _ => rfl
  unfold markText
  refine .ite (.pure (.inl rfl)) (.bind _ fun _ => ?_)
  exact .ite (.bind _ fun _ => .pure (.inr rfl)) (.pure (.inl rfl))

end Param

namespace Signature

theorem answers_markBoolReturn (attr : String) (s : Signature) :
    Answers (s.markBoolReturn attr : PassM σ Signature)
      fun t => t = s ∨ t = { s with returnAttributes := [attr] } := by
  unfold markBoolReturn
  refine .ite (.pure (.inl rfl)) (.bind _ fun _ => ?_)
  exact .ite (.pure (.inr rfl)) (.pure (.inl rfl))

theorem answers_markTextReturn (stringType attr : String) (s : Signature) :
    Answers (s.markTextReturn stringType attr : PassM σ Signature) fun t => t = s ∨
      t = { s with returnType := .plain stringType, returnAttributes := [attr] } := by
  refine .bind _ fun _ => ?_
  exact .ite (.bind _ fun _ => .pure (.inr rfl)) (.pure (.inl rfl))

end Signature

namespace StructDef

theorem markAttribute_markAttribute (start stop attr : String) (d : StructDef) :
    (d.markAttribute start stop attr).markAttribute start stop attr =
      d.markAttribute start stop attr := by
  unfold markAttribute
  split
  · exact if_neg fun h => by simp at h
  · rfl

theorem mapStruct_mapStruct_markAttribute (start stop attr : String) (d : Definition) :
    (d.mapStruct (·.markAttribute start stop attr)).mapStruct (·.markAttribute start stop attr) =
      d.mapStruct (·.markAttribute start stop attr) := by
  cases d with
  | structDef d =>
    exact congrArg Definition.structDef (d.markAttribute_markAttribute start stop attr)
  | _ => rfl

/-- The attribute does not touch the fields. -/
theorem visited_mapStruct_markAttribute (start stop attr : String) (rest : Registry)
    (f : Label → Param → Param) (d : Definition) :
    (d.mapStruct (·.markAttribute start stop attr)).visited rest f =
      (d.visited rest f).mapStruct (·.markAttribute start stop attr) := by
  cases d with
  | structDef d =>
    unfold Definition.mapStruct Definition.visited markAttribute
    dsimp only
    split <;> rfl
  | _ => rfl

end StructDef

namespace VisitPolicy

variable [Inhabited σ] {rest : Registry}

/-- A policy that changes parameters settles where its mark does. -/
theorem effect_ofParams_twice_iff
    (hrest : ∀ field : Field, (field.inlineArray rest).inlineArray rest = field.inlineArray rest)
    {mark : Label → Param → PassM σ Param}
    (hm : ∀ owner param, Agree (mark owner param) (mark owner param)) {d : Definition} :
    (ofParams mark).effect rest ((ofParams mark).effect rest d) = (ofParams mark).effect rest d ↔
      ∀ param ∈ d.params,
        value (mark d.label (value (mark d.label param))) = value (mark d.label param) := by
  rw [effect_ofParams hm, effect_ofParams hm]
  exact Definition.visited_visited_eq_iff hrest _ d

/-- A policy that changes signatures settles when its parts do and the change of the signature
leaves the parameters alone. -/
theorem effect_ofSignatures_twice
    (hrest : ∀ field : Field, (field.inlineArray rest).inlineArray rest = field.inlineArray rest)
    {mark : Param → PassM σ Param} {finish : Signature → PassM σ Signature}
    {change : Signature → Signature}
    (hm : ∀ param, Agree (mark param) (mark param))
    (hf : ∀ sig, Agree (finish sig) (finish sig)) (hmark : Settles mark)
    (hfinish : ∀ s, Answers (finish s) fun t => t = s ∨ t = change s)
    (hchange : ∀ s, change (change s) = change s) (hparams : ∀ s, (change s).params = s.params)
    (d : Definition) :
    (ofSignatures mark finish).effect rest ((ofSignatures mark finish).effect rest d) =
      (ofSignatures mark finish).effect rest d := by
  have hkeeps : ∀ s, (value (finish s)).params = s.params := fun s => by
    rcases hfinish s ⟨.new, default⟩ with h | h
    · exact congrArg Signature.params h
    · exact (congrArg Signature.params h).trans (hparams s)
  -- the marks are made and stay as they are, and then the signature does
  have htwice : ∀ s : Signature,
      let marked := value (finish { s with params := s.params.map fun p => value (mark p) })
      value (finish { marked with params := marked.params.map fun p => value (mark p) }) =
        marked := fun s => by
    intro marked
    have hmarked : marked.params.map (fun p => value (mark p)) = marked.params := by
      rw [hkeeps, List.map_map]
      exact List.map_congr_left fun p _ => hmark p
    rw [hmarked]
    exact Settles.of_change hfinish hchange _
  rw [effect_ofSignatures hm hf, effect_ofSignatures hm hf]
  cases d with
  | macroDef d => rfl
  | fixedArray d => rfl
  | enumDef d => simp [Definition.visited, Definition.mapSignature, EnumDef.markFlags]
  | structDef d => simp [Definition.visited, Definition.mapSignature, hrest]
  | functionDef d =>
    exact congrArg (fun signature => Definition.functionDef { d with signature })
      (htwice d.signature)
  | delegateDef d =>
    exact congrArg (fun signature => Definition.delegateDef { d with signature })
      (htwice d.signature)

end VisitPolicy

namespace Visitor

/-- The policies that come with the generator and make changes by themselves, but for the one that
gives `bool` fields a type of the target's. -/
inductive IsStock : Visitor → Prop where
  | standard : IsStock .standard
  | outParams (starts : List String) : IsStock (.outParams starts)
  | errorMessages (handle : String) : IsStock (.errorMessages handle)
  | boolMarshal (attr : String) : IsStock (.boolMarshal attr)
  | textParams (stringType attr : String) : IsStock (.textParams stringType attr)
  | structAttribute (start stop attr : String) : IsStock (.structAttribute start stop attr)

/-- Whether a second visit takes one more modifier from the parameter. -/
def takesAgain (owner : Label) (param : Param) : Visitor → Bool
  | outParams starts => param.goesOut starts owner && 2 ≤ param.ty.modifiers.length
  | _ => false

/-- What a second visit with a stock policy changes are out parameters. -/
theorem effect_effect_eq_iff {v : Visitor} (hv : v.IsStock) {rest : Registry}
    (hrest : ∀ field : Field, (field.inlineArray rest).inlineArray rest = field.inlineArray rest)
    (d : Definition) :
    v.policy.effect rest (v.policy.effect rest d) = v.policy.effect rest d ↔
      ∀ param ∈ d.params, v.takesAgain d.label param = false := by
  have hnever : ∀ {p : Prop}, p → (p ↔ ∀ param ∈ d.params, false = false) :=
    fun h => iff_of_true h fun _ _ => rfl
  cases hv with
  | standard =>
    refine hnever ?_
    rw [policy, VisitPolicy.effect_standard, VisitPolicy.effect_standard]
    exact (Definition.visited_visited_eq_iff hrest _ d).mpr fun _ _ => rfl
  | outParams starts =>
    refine (VisitPolicy.effect_ofParams_twice_iff hrest fun _ _ => .pure _).trans
      (forall₂_congr fun param _ => ?_)
    refine (Param.markOut_markOut_eq_iff starts d.label param).trans ?_
    simp [takesAgain]
  | errorMessages handle =>
    exact hnever ((VisitPolicy.effect_ofParams_twice_iff hrest
      fun _ => agree_markErrorMessage handle).mpr fun param _ =>
        Param.settles_markErrorMessage handle param)
  | boolMarshal attr =>
    exact hnever (VisitPolicy.effect_ofSignatures_twice hrest (agree_markBool attr)
      (agree_markBoolReturn attr) (Param.settles_markBool attr)
      (Signature.answers_markBoolReturn attr) (fun _ => rfl) (fun _ => rfl) d)
  | textParams stringType attr =>
    exact hnever (VisitPolicy.effect_ofSignatures_twice hrest (agree_markText stringType attr)
      (agree_markTextReturn stringType attr) (Param.settles_markText stringType attr)
      (Signature.answers_markTextReturn stringType attr) (fun _ => rfl) (fun _ => rfl) d)
  | structAttribute start stop attr =>
    refine hnever ?_
    rw [policy, VisitPolicy.effect_structAttribute, VisitPolicy.effect_structAttribute]
    rw [StructDef.visited_mapStruct_markAttribute, StructDef.mapStruct_mapStruct_markAttribute,
      (Definition.visited_visited_eq_iff hrest _ d).mpr fun _ _ => rfl]

/-- A chain makes of a definition what its visitors make of it in turn. -/
theorem effect_chain (vs : List Visitor) (rest : Registry) (d : Definition) :
    (chain vs).policy.effect rest d = vs.foldl (fun d v => v.policy.effect rest d) d := by
  change (VisitPolicy.chain (policies vs)).effect rest d = _
  induction vs generalizing d with
  | nil => exact VisitPolicy.effect_chain_nil rest d
  | cons v vs ih =>
    exact (VisitPolicy.effect_chain_cons (policies_local vs) v.policy rest d).trans (ih _)

theorem maps_visitAll_chain (r : Registry) (vs : List Visitor) (own : Trace) :
    r.Maps (fun id d => vs.foldl (fun d v => v.policy.effect (r.detach id) d) d) r.ids
      (r.visitAll (chain vs).policy own).1 :=
  (maps_visitAll (policy_local (.chain vs)) r own).congr fun id d _ =>
    effect_chain vs (r.detach id) d

end Visitor

namespace Lowerer

/-- Whatever a lowerer was used for, no field is a fixed array of a primitive type twice. -/
theorem Used.inlineArray_twice {l : Lowerer} (h : l.Used) (id : DefId) (field : Field) :
    (field.inlineArray (l.registry.detach id)).inlineArray (l.registry.detach id) =
      field.inlineArray (l.registry.detach id) := by
  refine Field.inlineArray_inlineArray h.tidy.consistent h.arraysWritten (fun n a hf => ?_) field
  obtain ⟨other, hlookup, hget⟩ := Option.bind_eq_some_iff.mp hf
  rw [get?_detach] at hget
  split at hget
  · cases hget
  · exact Option.bind_eq_some_iff.mpr ⟨other, hlookup, hget⟩

/-- **A repeated policy changes nothing more, out parameters aside.** Whatever a lowerer was used
for, a visit with a chain of a stock policy with itself leaves the definitions that a visit with the
policy leaves, just when no parameter that the policy passes out is behind more than one modifier.
For the other policies that is always so. -/
theorem Used.visitAll_twice_eq_iff {l : Lowerer} (h : l.Used) {v : Visitor} (hv : v.IsStock)
    (own : Trace) :
    { (l.registry.visitAll (Visitor.chain [v, v]).policy own).1 with names := l.registry.names } =
      { (l.registry.visitAll (Visitor.chain [v]).policy own).1 with names := l.registry.names } ↔
    ∀ d ∈ l.registry.definitions, ∀ param ∈ d.params, v.takesAgain d.label param = false := by
  -- what becomes of the definition in a slot, once and twice
  have honce := Visitor.maps_visitAll_chain l.registry [v] own
  have htwice := Visitor.maps_visitAll_chain l.registry [v, v] own
  have hiff := fun id => Visitor.effect_effect_eq_iff hv (h.inlineArray_twice id)
  constructor
  · intro heq d hd
    obtain ⟨id, hd⟩ := mem_definitions.mp hd
    have hget := congrArg (fun r : Registry => r.get? id) heq
    change (l.registry.visitAll (Visitor.chain [v, v]).policy own).1.get? id =
      (l.registry.visitAll (Visitor.chain [v]).policy own).1.get? id at hget
    rw [htwice.get?_of_ids, honce.get?_of_ids, hd] at hget
    exact (hiff id d).mp (Option.some.inj hget)
  · intro hall
    have hsame := htwice.congr fun id d hd =>
      (hiff id d).mpr (hall d (mem_definitions.mpr ⟨id, hd⟩))
    exact congrArg (fun t => { t with names := l.registry.names })
      (hsame.eq honce fun _ => Iff.rfl)

/-- A struct that holds a fixed array, and a function that passes out one of them and the texts that
belong to it. -/
def frameHeader : Header :=
  let frame : CType := .record ⟨some "frame",
    some [⟨"samples", .array (.builtin .int) (.constant 4) false, none, .none, none⟩], false, .none⟩
  ⟨"frame.h", false, [], [], [], [],
    [⟨"getFrame", .builtin .bool, [⟨"Path", .pointer (.builtin .char) true, .none⟩,
      ⟨"OutFrame", .pointer frame false, .none⟩,
      ⟨"OutTexts", .pointer (.pointer (.builtin .char) false) false, .none⟩], .c, false, none,
      .none⟩]⟩

/-- The lowerer that has processed the header. -/
def afterFrame : Lowerer :=
  (new.addExports ["getFrame"] "frame" true).after (process [frameHeader])

theorem used_afterFrame : afterFrame.Used := .process (.configure .new _ _ _) _

/-- The policy for texts may be repeated, and the one for out parameters may not. -/
theorem visitAll_twice_eq_iff_afterFrame : afterFrame.Used ∧
    (Visitor.textParams "string" "Utf8").IsStock ∧ (Visitor.outParams ["get"]).IsStock ∧
    { (afterFrame.registry.visitAll (Visitor.chain [.textParams "string" "Utf8",
        .textParams "string" "Utf8"]).policy #[]).1 with names := afterFrame.registry.names } =
      { (afterFrame.registry.visitAll (Visitor.chain [.textParams "string" "Utf8"]).policy #[]).1
        with names := afterFrame.registry.names } ∧
    { (afterFrame.registry.visitAll (Visitor.chain [.outParams ["get"],
        .outParams ["get"]]).policy #[]).1 with names := afterFrame.registry.names } ≠
      { (afterFrame.registry.visitAll (Visitor.chain [.outParams ["get"]]).policy #[]).1
        with names := afterFrame.registry.names } := by
  refine ⟨used_afterFrame, .textParams _ _, .outParams _, ?_, fun heq => ?_⟩
  · exact (used_afterFrame.visitAll_twice_eq_iff (.textParams _ _) #[]).mpr fun _ _ _ _ => rfl
  · have hall := (used_afterFrame.visitAll_twice_eq_iff (.outParams _) #[]).mp heq
    have htexts : afterFrame.registry.definitions.any (fun d =>
        d.params.any ((Visitor.outParams ["get"]).takesAgain d.label ·)) = true := rfl
    obtain ⟨d, hd, hd'⟩ := List.any_eq_true.mp htexts
    obtain ⟨param, hparam, htakes⟩ := List.any_eq_true.mp hd'
    rw [hall d hd param hparam] at htakes
    cases htakes

/-- Name, modifiers and passing of the parameters in a registry. -/
def paramsOf (r : Registry) : List (String × List Modifier × ParamModifier) :=
  r.definitions.flatMap fun d => d.params.map fun p => (p.name, p.ty.modifiers, p.modifier)

/-- The texts are passed out as a pointer by one policy and as a single character by two. -/
theorem outTexts_stripped_twice :
    afterFrame.Used ∧ (Visitor.outParams ["get"]).IsStock ∧
    paramsOf (afterFrame.registry.visitAll (Visitor.chain [.outParams ["get"]]).policy #[]).1 =
      [("Path", [.constPointer], .byValue), ("OutFrame", [], .byOut),
        ("OutTexts", [.pointer], .byOut)] ∧
    paramsOf (afterFrame.registry.visitAll
        (Visitor.chain [.outParams ["get"], .outParams ["get"]]).policy #[]).1 =
      [("Path", [.constPointer], .byValue), ("OutFrame", [], .byOut), ("OutTexts", [], .byOut)] :=
  ⟨used_afterFrame, .outParams _, by decide +kernel, by decide +kernel⟩

end Lowerer

end Bindery
