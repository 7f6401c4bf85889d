import Bindery.Proofs.Lowering.Filling
import Bindery.Proofs.Lowering.Reading

/-!
# Typedefs

A typedef stands for its target: where nothing takes its name from a hint, a type and the type with
its typedefs replaced are resolved side by side, and the registries that come of it have the same
names for the same kinds of definitions (`Registry.Parallel`, `parallel_resolve`). One rule looks at
how a type is written. An array of unknown length becomes a pointer when its elements are written as
pointers, unless what they point to is written as a builtin type or as a typedef of one; so a
typedef in between changes the last modifier, and nothing else. `CType.opensAlike` says where this
does not happen, and `resolve_expand_eq_iff` that the references agree just then.
-/

namespace Bindery

open Registry

/-! ### Types without typedefs -/

mutual

/-- The type with every typedef in it replaced by its target. -/
def CType.expand : CType → CType
  | .builtin b => .builtin b
  | .typedef _ target => target.expand
  | .array element size elementConst => .array element.expand size elementConst
  | .record decl => .record decl.expand
  | .enum ⟨name, underlying, items, doc⟩ => .enum ⟨name, underlying.expand, items, doc⟩
  | .pointer pointee pointeeConst => .pointer pointee.expand pointeeConst
  | .function ty => .function ty.expand
  | .unsupported spelling => .unsupported spelling

def RecordDecl.expand : RecordDecl → RecordDecl
  | ⟨name, none, isUnion, doc⟩ => ⟨name, none, isUnion, doc⟩
  | ⟨name, some decls, isUnion, doc⟩ => ⟨name, some (FieldDecl.expandAll decls), isUnion, doc⟩

def FieldDecl.expandAll : List FieldDecl → List FieldDecl
  | [] => []
  | ⟨name, ty, bitWidth, doc, deprecation⟩ :: decls =>
    ⟨name, ty.expand, bitWidth, doc, deprecation⟩ :: FieldDecl.expandAll decls

def FunctionType.expand : FunctionType → FunctionType
  | ⟨returnType, params, callConv⟩ => ⟨returnType.expand, ParamDecl.expandAll params, callConv⟩

def ParamDecl.expandAll : List ParamDecl → List ParamDecl
  | [] => []
  | ⟨name, ty, doc⟩ :: decls => ⟨name, ty.expand, doc⟩ :: ParamDecl.expandAll decls

end

mutual

/-- The type has no function type, no record or enum without a tag and no typedef of `size_t` in
it. -/
def CType.isTagged : CType → Bool
  | .builtin _ => true
  | .typedef name target => name != "size_t" && target.isTagged
  | .array element _ _ => element.isTagged
  | .record decl => decl.isTagged
  | .enum ⟨name, _, _, _⟩ => name.any (· != "")
  | .pointer pointee _ => pointee.isTagged
  | .function _ | .unsupported _ => false

def RecordDecl.isTagged : RecordDecl → Bool
  | ⟨name, none, _, _⟩ => name.any (· != "")
  | ⟨name, some decls, _, _⟩ => name.any (· != "") && FieldDecl.areTagged decls

def FieldDecl.areTagged : List FieldDecl → Bool
  | [] => true
  | ⟨_, ty, _, _, _⟩ :: decls => ty.isTagged && FieldDecl.areTagged decls

end

namespace RecordDecl

variable {name : String} {fields : Option (List FieldDecl)} {isUnion : Bool} {doc : Doc}

theorem name_expand (decl : RecordDecl) : decl.expand.name = decl.name := by
  obtain ⟨_, _ | _, _, _⟩ := decl
  · rw [expand]
  · rw [expand]

theorem isComplete_expand (decl : RecordDecl) : decl.expand.isComplete = decl.isComplete := by
  obtain ⟨_, _ | _, _, _⟩ := decl
  · rw [expand]
  · rw [expand]
    rfl

theorem ne_empty_of_isTagged {decl : RecordDecl} (h : decl.isTagged = true)
    (hn : decl.name = some name) : name ≠ "" := by
  obtain ⟨_, _ | decls, _, _⟩ := decl <;> cases hn
  · exact bne_iff_ne.mp h
  · exact bne_iff_ne.mp (Bool.and_eq_true_iff.mp h).1

theorem areTagged_of_isTagged {tag : Option String} {decls : List FieldDecl}
    (h : RecordDecl.isTagged ⟨tag, some decls, isUnion, doc⟩ = true) :
    FieldDecl.areTagged decls = true :=
  (Bool.and_eq_true_iff.mp h).2

end RecordDecl

namespace CType

/-- Whether an array of unknown length of the type is one more pointer. -/
def opensAsPointer : CType → Bool
  | pointer pointee _ => !pointee.isBuiltinLike
  | _ => false

/-- Whether every array of unknown length that shows in the reference is read as without typedefs.
What is in a fixed array does not show. -/
def opensAlike : CType → Bool
  | typedef _ target => target.opensAlike
  | array _ (.constant _) _ => true
  | array element _ _ =>
    element.opensAlike && element.opensAsPointer == element.expand.opensAsPointer
  | pointer pointee _ => pointee.opensAlike
  | _ => true

end CType

theorem openArrayOf_eq (element : CType) (elementConst : Bool) (ty : TypeRef) :
    openArrayOf element elementConst ty = ty.push
      (if element.opensAsPointer then .pointer
        else if elementConst then .constArray else .array) := by
  cases element with
  | pointer pointee pointeeConst =>
    cases hp : pointee.isBuiltinLike <;> simp [openArrayOf, CType.opensAsPointer, hp]
  | _ => simp [openArrayOf, CType.opensAsPointer]

theorem integerUnderlying?_expand : ∀ ty : CType,
    integerUnderlying? ty.expand = integerUnderlying? ty
  | .typedef _ target => by
    rw [CType.expand]
    exact integerUnderlying?_expand target
  | .builtin _ | .unsupported _ => by rw [CType.expand]
  | .pointer _ _ | .array _ _ _ | .record _ | .enum ⟨_, _, _, _⟩ | .function _ => by
    rw [CType.expand]
    rfl

/-! ### Registries that are built in parallel -/

/-- The kind of a definition, and whether it is a struct that is complete. -/
def Definition.outline (d : Definition) : Kind × Bool :=
  (d.kind, d.asStruct?.any StructDef.complete)

/-- Two registries without delegates that have definitions of the same outline under the same
names. -/
structure Registry.Parallel (s t : Registry) : Prop where
  left : s.WellTyped
  right : t.WellTyped
  isSuppressed : ∀ n, t.isSuppressed n = s.isSuppressed n
  outline : ∀ n, (t.find? n).map Definition.outline = (s.find? n).map Definition.outline
  noDelegate : ∀ n, s.kindOf? n ≠ some .delegateDef

/-- Both steps fail, or both answer, and the answers are as `post` says. -/
def LowerM.Parallel {α β : Type} (m : LowerM α) (n : LowerM β) (s t : Registry)
    (post : α → β → Prop) : Prop :=
  match m s, n t with
  | .ok a s', .ok b t' => s'.Parallel t' ∧ post a b
  | .error _ _, .error _ _ => True
  | _, _ => False

variable {α β γ δ : Type} {s t : Registry} {n : String}

namespace LowerM.Parallel

variable {m : LowerM α} {k : LowerM β} {f : α → LowerM γ} {g : β → LowerM δ}
  {P : α → β → Prop} {Q : γ → δ → Prop}

theorem of_ok {a : α} {b : β} {s' t' : Registry} (hm : m s = .ok a s') (hk : k t = .ok b t')
    (h : s'.Parallel t') (hp : P a b) : m.Parallel k s t P := by
  unfold Parallel
  rw [hm, hk]
  exact ⟨h, hp⟩

theorem of_error {e e' : LowerError} {s' t' : Registry} (hm : m s = .error e s')
    (hk : k t = .error e' t') : m.Parallel k s t P := by
  unfold Parallel
  rw [hm, hk]
  exact trivial

theorem pure {a : α} {b : β} (h : s.Parallel t) (hp : P a b) :
    Parallel (Pure.pure a) (Pure.pure b) s t P := of_ok rfl rfl h hp

/-- The continuations may use what the first steps have answered. -/
theorem bind (hm : m.Parallel k s t P) (hf : ∀ a b s' t', m s = .ok a s' → k t = .ok b t' →
    s'.Parallel t' → P a b → (f a).Parallel (g b) s' t' Q) :
    (m >>= f).Parallel (k >>= g) s t Q := by
  unfold Parallel at hm
  split at hm
  · next a s' b t' hs ht =>
    have hfg := hf a b s' t' hs ht hm.1 hm.2
    unfold Parallel at hfg ⊢
    rwa [bind_ok hs, bind_ok ht]
  · next hs ht => exact of_error (bind_error hs) (bind_error ht)
  · cases hm

theorem congr {m' : LowerM α} {k' : LowerM β} {s' t' : Registry} (h : m.Parallel k s t P)
    (hm : m' s' = m s) (hk : k' t' = k t) : m'.Parallel k' s' t' P := by
  unfold Parallel at h ⊢
  rwa [hm, hk]

theorem mono {P' : α → β → Prop} (h : m.Parallel k s t P) (hp : ∀ a b, P a b → P' a b) :
    m.Parallel k s t P' := by
  unfold Parallel at h ⊢
  split at h
  · exact ⟨h.1, hp _ _ h.2⟩
  · exact h
  · exact h

/-- What steps in parallel answer, the registries aside. -/
theorem rel (h : m.Parallel k s t P) : Option.Rel P (m.run' s) (k.run' t) := by
  unfold Parallel at h
  unfold EStateM.run' EStateM.run
  split at h
  · next hs ht =>
    rw [hs, ht]
    exact .some h.2
  · next hs ht =>
    rw [hs, ht]
    exact .none
  · cases h

end LowerM.Parallel

namespace Registry.Parallel

variable {r u : Registry}

theorem kindOf? (h : s.Parallel t) (n : String) : t.kindOf? n = s.kindOf? n := by
  have hn := congrArg (Option.map Prod.fst) (h.outline n)
  rwa [Option.map_map, Option.map_map] at hn

theorem isSome_lookup? (h : s.Parallel t) (n : String) :
    (t.lookup? n).isSome = (s.lookup? n).isSome := by
  have hn := congrArg Option.isSome (h.outline n)
  rwa [Option.isSome_map, Option.isSome_map, ← h.right.consistent.lookup?_isSome,
    ← h.left.consistent.lookup?_isSome] at hn

theorem bind_delegate?_left (h : s.Parallel t) (hint : Option String) :
    hint.bind s.delegate? = none := by
  cases hint with
  | none => rfl
  | some n => exact if_neg (h.noDelegate n)

theorem bind_delegate?_right (h : s.Parallel t) (hint : Option String) :
    hint.bind t.delegate? = none := by
  cases hint with
  | none => rfl
  | some n => exact if_neg (h.kindOf? n ▸ h.noDelegate n)

theorem mention (h : s.Parallel t) (name : String) : (s.mention name).Parallel (t.mention name) :=
  ⟨(Advances.mention h.left name).wellTyped, (Advances.mention h.right name).wellTyped,
    h.isSuppressed, h.outline, h.noDelegate⟩

/-- Both registries grow by a definition of the same outline under one name, unless it is taken. -/
theorem grow (h : s.Parallel t) (hu : u.WellTyped) (hr : r.WellTyped)
    (hsu : ∀ n, u.isSuppressed n = s.isSuppressed n)
    (htr : ∀ n, r.isSuppressed n = t.isSuppressed n)
    (name : String) (d d' : Definition) (hd : d'.outline = d.outline) (hk : d.kind ≠ .delegateDef)
    (hfu : ∀ n, u.find? n = (s.find? n).or
      (if n = name ∧ s.isSuppressed n = false then some d else none))
    (hfr : ∀ n, r.find? n = (t.find? n).or
      (if n = name ∧ t.isSuppressed n = false then some d' else none)) : u.Parallel r := by
  refine ⟨hu, hr, fun n => by rw [htr, hsu, h.isSuppressed], fun n => ?_, fun n hn => ?_⟩
  · rw [hfu, hfr, h.isSuppressed, Option.map_or, Option.map_or, h.outline]
    split
    · rw [Option.map_some, Option.map_some, hd]
    · rfl
  · have hs := h.noDelegate n
    rw [Registry.kindOf?, hfu] at hn
    rw [Registry.kindOf?] at hs
    cases hf : s.find? n with
    | some d₀ =>
      rw [hf] at hn hs
      exact hs hn
    | none =>
      rw [hf, Option.none_or] at hn
      split at hn
      · exact hk (Option.some.inj hn)
      · cases hn

theorem slotted (h : s.Parallel t) (name : String) :
    (s.slotted name).Parallel (t.slotted name) := by
  have h := h.mention name
  have hs := Advances.structSlot h.left name
  have ht := Advances.structSlot h.right name
  exact h.grow hs.wellTyped ht.wellTyped hs.grows.isSuppressed ht.grows.isSuppressed name _ _ rfl
    (by nofun) (h.left.consistent.find?_structSlot name) (h.right.consistent.find?_structSlot name)

theorem wellTyped_begun (h : s.WellTyped) {id : DefId} {d : StructDef}
    (hd : s.get? id = some (.structDef d)) (hc : d.complete = false) (decl : RecordDecl) :
    (s.begun id d decl).WellTyped := by
  have hb : s.beginStruct id decl.isUnion decl.doc = (true, s.begun id d decl) := by
    unfold beginStruct
    rw [hd]
    simp only [hc]
    rfl
  have hadv := Advances.beginStruct h id decl.isUnion decl.doc
  rw [hb] at hadv
  exact hadv.wellTyped

theorem outline_begun (h : s.WellTyped) {name : String} {id : DefId} {d : StructDef}
    (hl : s.lookup? name = some id) (hd : s.get? id = some (.structDef d)) (decl : RecordDecl)
    (n : String) : ((s.begun id d decl).find? n).map Definition.outline =
      if n = name then some (.structDef, true) else (s.find? n).map Definition.outline := by
  rw [Registry.begun, h.consistent.find?_modify hl]
  split
  · next hn => rw [hn, find?_eq_of_lookup? hl, hd]; rfl
  · rfl

/-- The struct of one name is begun in both. -/
theorem begun (h : s.Parallel t) {name : String} {id id' : DefId} {d d' : StructDef}
    (hl : s.lookup? name = some id) (hd : s.get? id = some (.structDef d))
    (hc : d.complete = false) (hl' : t.lookup? name = some id')
    (hd' : t.get? id' = some (.structDef d')) (hc' : d'.complete = false)
    (decl decl' : RecordDecl) : (s.begun id d decl).Parallel (t.begun id' d' decl') := by
  have hs := outline_begun h.left hl hd decl
  have ht := outline_begun h.right hl' hd' decl'
  refine ⟨wellTyped_begun h.left hd hc decl, wellTyped_begun h.right hd' hc' decl',
    h.isSuppressed, fun n => ?_, fun n hn => ?_⟩
  · rw [hs, ht, h.outline]
  · have hkind := congrArg (Option.map Prod.fst) (hs n)
    rw [Option.map_map] at hkind
    change (s.begun id d decl).kindOf? n = _ at hkind
    rw [hn] at hkind
    split at hkind
    · cases hkind
    · rw [Option.map_map] at hkind
      exact h.noDelegate n hkind.symm

theorem outline_setFields (s : Registry) (id : DefId) (fields : List Field) (n : String) :
    ((s.setFields id fields).find? n).map Definition.outline =
      (s.find? n).map Definition.outline := by
  change ((s.lookup? n).bind (s.setFields id fields).get?).map _ = ((s.lookup? n).bind _).map _
  cases s.lookup? n with
  | none => rfl
  | some other =>
    rw [Option.bind_some, Option.bind_some, setFields, get?_modify]
    split
    · rw [Option.map_map]
      congr 1
      funext d
      cases d <;> rfl
    · rfl

/-- The structs in two slots get their fields. -/
theorem setFields (h : s.Parallel t) (id id' : DefId) {fields fields' : List Field}
    (hs : ∀ f ∈ fields, s.Stands f.ty.base) (ht : ∀ f ∈ fields', t.Stands f.ty.base) :
    (s.setFields id fields).Parallel (t.setFields id' fields') := by
  have hos := outline_setFields s id fields
  refine ⟨(Advances.setFields h.left id hs).wellTyped,
    (Advances.setFields h.right id' ht).wellTyped, h.isSuppressed, fun n => ?_,
    fun n hn => h.noDelegate n ?_⟩
  · rw [hos, outline_setFields, h.outline]
  · have hkind := congrArg (Option.map Prod.fst) (hos n)
    rw [Option.map_map, Option.map_map] at hkind
    exact hkind.symm.trans hn

end Registry.Parallel

/-! ### Steps in parallel -/

theorem parallel_primitive (h : s.Parallel t) (p : Primitive) :
    (LowerM.primitive p).Parallel (LowerM.primitive p) s t fun a b =>
      a = .plain p.name ∧ b = .plain p.name :=
  .of_ok rfl rfl (h.mention p.name) ⟨rfl, rfl⟩

theorem parallel_flush (h : s.Parallel t) (run : BitFieldRun) (record : String) :
    (run.flush record).Parallel (run.flush record) s t fun _ _ => True := by
  unfold BitFieldRun.flush
  split
  · exact .pure h trivial
  split
  · exact .of_error rfl rfl
  · exact .bind (parallel_primitive h _) fun _ _ _ _ _ _ h _ => .pure h trivial

/-- Both references have the same base and the same number of modifiers. -/
def TypeRef.Like (a b : TypeRef) : Prop :=
  b.base = a.base ∧ b.modifiers.length = a.modifiers.length

theorem parallel_fixedArrayOf (h : s.Parallel t) (length : Nat) {a b : TypeRef}
    (ha : s.Stands a.base) (hb : t.Stands b.base) (hab : a.Like b) :
    (fixedArrayOf length a).Parallel (fixedArrayOf length b) s t fun x y => y = x := by
  obtain ⟨u, hu, hsu, hfu⟩ := fixedArrayOf_eq_ok h.left length ha
  obtain ⟨r, hr, htr, hfr⟩ := fixedArrayOf_eq_ok h.right length hb
  have hname : fixedArrayName b length = fixedArrayName a length :=
    fixedArrayName_inj.mpr ⟨hab.1, hab.2, rfl⟩
  rw [hname] at hfr
  exact .of_ok hu hr (h.grow hsu.wellTyped htr.wellTyped hsu.grows.isSuppressed
    htr.grows.isSuppressed (fixedArrayName a length) (.fixedArray (s.newArray a length))
    (.fixedArray (t.newArray b length)) rfl (by nofun) hfu hfr) (by rw [hname])

theorem declaredName?_of_tag (hne : n ≠ "") (fallback : Option String) :
    declaredName? (some n) fallback = some n :=
  Option.filter_eq_some_iff.mpr ⟨rfl, bne_iff_ne.mpr hne⟩

theorem parallel_makeEnum (h : s.Parallel t) (hne : n ≠ "") (underlying : CType)
    (items : List EnumItemDecl) (doc : Doc) (fallback fallback' : Option String) :
    (makeEnum fallback ⟨some n, underlying, items, doc⟩).Parallel
      (makeEnum fallback' ⟨some n, underlying.expand, items, doc⟩) s t
      fun a b => a = some n ∧ b = some n := by
  have hs := makeEnum_eq ⟨some n, underlying, items, doc⟩
    (declaredName?_of_tag hne fallback) s
  have ht := makeEnum_eq ⟨some n, underlying.expand, items, doc⟩
    (declaredName?_of_tag hne fallback') t
  rw [h.isSome_lookup?, h.isSuppressed] at ht
  dsimp only at hs ht
  rw [integerUnderlying?_expand] at ht
  have h := h.mention n
  split at hs
  · next hc =>
    rw [if_pos hc] at ht
    exact .of_ok hs ht h ⟨rfl, rfl⟩
  · next hc =>
    rw [if_neg hc] at ht
    cases hu : integerUnderlying? underlying with
    | none =>
      rw [hu] at hs ht
      exact .of_error hs ht
    | some p =>
      rw [hu] at hs ht
      refine .of_ok hs ht ?_ ⟨rfl, rfl⟩
      have hsu := Advances.insert h.left
        (admits_enumDef _ (.ofDecl n p ⟨some n, underlying, items, doc⟩))
      have htr := Advances.insert h.right
        (admits_enumDef _ (.ofDecl n p ⟨some n, underlying.expand, items, doc⟩))
      exact h.grow hsu.wellTyped htr.wellTyped hsu.grows.isSuppressed htr.grows.isSuppressed n
        _ _ rfl (by nofun) (h.left.consistent.find?_insert _) (h.right.consistent.find?_insert _)

/-- A struct that is complete in one registry does not wait for its fields in the other. -/
theorem Registry.Declared.complete {decl : RecordDecl} (hs : s.Declared n decl.isComplete)
    (hdecl : decl.isComplete = true) {id : DefId} {d : StructDef} (hl : t.lookup? n = some id)
    (hd : t.get? id = some (.structDef d))
    (h : (s.find? n).map Definition.outline = (t.find? n).map Definition.outline) :
    d.complete = true := by
  rw [find?_eq_of_lookup? hl, hd] at h
  obtain ⟨d', hd', ho⟩ := Option.map_eq_some_iff.mp h
  cases d' with
  | structDef d' =>
    have hc : d'.complete = d.complete := congrArg Prod.snd ho
    exact hc.symm.trans (hs.filled hdecl d' hd')
  | _ => cases congrArg Prod.fst ho

/-- What the reference that the type resolves to has to do with that of the expanded type. -/
def CType.Reads (ty : CType) (a b : TypeRef) : Prop :=
  a.Like b ∧ (b.modifiers = a.modifiers ↔ ty.opensAlike = true)

namespace CType.Reads

theorem plain {ty : CType} (hty : ty.opensAlike = true) (name : String) :
    ty.Reads (.plain name) (.plain name) :=
  ⟨⟨rfl, rfl⟩, iff_of_true rfl hty⟩

theorem push {ty ty' : CType} {a b : TypeRef} {m m' : Modifier} (h : ty.Reads a b)
    (hty : ty'.opensAlike = true ↔ ty.opensAlike = true ∧ m' = m) :
    ty'.Reads (a.push m) (b.push m') := by
  refine ⟨⟨h.1.1, by simp [TypeRef.push, h.1.2]⟩, ?_⟩
  rw [hty, ← h.2]
  constructor
  · intro he
    obtain ⟨hms, hm⟩ := List.append_inj' he rfl
    exact ⟨hms, List.singleton_inj.mp hm⟩
  · rintro ⟨hms, rfl⟩
    exact congrArg (· ++ [m']) hms

end CType.Reads

/-! ### Resolution -/

theorem parallel_resolveFirst (h : s.Parallel t) {rules rules' : LowerM TypeRef}
    {P : TypeRef → TypeRef → Prop} (hr : rules.Parallel rules' s t P) (hint hint' : Option String)
    (ty ty' : CType) :
    (resolveFirst .none hint ty rules).Parallel (resolveFirst .none hint' ty' rules') s t P :=
  hr.congr (resolveFirst_eq (h.bind_delegate?_left hint) ty rules)
    (resolveFirst_eq (h.bind_delegate?_right hint') ty' rules')

theorem parallel_pointerTo (h : s.Parallel t) (pointeeConst : Bool) (a b : TypeRef) :
    (pointerTo pointeeConst a).Parallel (pointerTo pointeeConst b) s t fun x y =>
      x = a.push (if pointeeConst then .constPointer else .pointer) ∧
      y = b.push (if pointeeConst then .constPointer else .pointer) := by
  have hleft : ∀ ty : TypeRef, s.isDelegate ty = false := fun ty => by
    simp [isDelegate, h.noDelegate]
  have hright : ∀ ty : TypeRef, t.isDelegate ty = false := fun ty => by
    simp [isDelegate, h.kindOf?, h.noDelegate]
  refine .of_ok (a := a.push (if pointeeConst then .constPointer else .pointer))
    (b := b.push (if pointeeConst then .constPointer else .pointer)) ((bind_ok rfl).trans ?_)
    ((bind_ok rfl).trans ?_) h ⟨rfl, rfl⟩
  · rw [hleft]; rfl
  · rw [hright]; rfl

mutual

/-- The type and the expanded type are resolved in parallel. -/
theorem parallel_resolve : ∀ (ty : CType) (hint hint' : Option String) (inStruct inStruct' : Bool)
    {s t : Registry}, ty.isTagged = true → s.Parallel t →
    (resolve .none hint inStruct ty).Parallel (resolve .none hint' inStruct' ty.expand) s t ty.Reads
  | .builtin b, hint, hint', inStruct, inStruct', s, t, _, h => by
    rw [CType.expand, resolve, resolve]
    refine parallel_resolveFirst h ((parallel_primitive h b.primitive).mono ?_) ..
    rintro _ _ ⟨rfl, rfl⟩
    exact .plain rfl _
  | .typedef name target, hint, hint', inStruct, inStruct', s, t, hty, h => by
    rw [CType.isTagged, Bool.and_eq_true] at hty
    have hrun : resolve .none hint inStruct (.typedef name target) s =
        resolve .none (some name) inStruct target s := by
      rw [resolve, resolveFirst_eq (h.bind_delegate?_left hint), if_neg (bne_iff_ne.mp hty.1)]
    rw [CType.expand]
    -- one side takes a step more, and goes on with a hint that nothing is called after
    exact (parallel_resolve target (some name) hint' inStruct inStruct' hty.2 h).congr hrun rfl
  | .array element (.constant length) _, hint, hint', inStruct, inStruct', s, t, hty, h => by
    rw [CType.expand, resolve, resolve]
    refine parallel_resolveFirst h (.bind (parallel_resolve element hint hint' true true hty h)
      fun a b s' t' hs ht h' hab => ?_) ..
    have ha := ((leads_resolve element hint true h.left).of_ok hs).2
    have hb := ((leads_resolve element.expand hint' true h.right).of_ok ht).2
    -- the array's name tells the number of the element's modifiers only
    refine (parallel_fixedArrayOf h' length ha hb hab.1).mono ?_
    rintro x _ rfl
    exact ⟨⟨rfl, rfl⟩, iff_of_true rfl rfl⟩
  | .array element .incomplete c, hint, hint', inStruct, inStruct', s, t, hty, h
  | .array element .variable c, hint, hint', inStruct, inStruct', s, t, hty, h => by
    simp only [CType.expand, resolve]
    refine parallel_resolveFirst h (.bind
      (parallel_resolve element hint hint' inStruct inStruct' hty h)
      fun a b s' t' _ _ h' hab => .pure h' ?_) ..
    rw [openArrayOf_eq, openArrayOf_eq]
    refine hab.push ?_
    rw [CType.opensAlike, Bool.and_eq_true, beq_iff_eq]
    · refine and_congr_right fun _ => ?_
      cases element.opensAsPointer <;> cases element.expand.opensAsPointer <;> cases c <;> decide
    · nofun
  | .record decl, hint, hint', inStruct, inStruct', s, t, hty, h => by
    rw [CType.expand, resolve, resolve]
    refine parallel_resolveFirst h (.bind (parallel_makeStruct decl hint hint' hty h) ?_) ..
    rintro _ _ s' t' - - h' ⟨n, rfl, rfl⟩
    exact .pure h' (.plain rfl n)
  | .enum ⟨some n, underlying, items, doc⟩, hint, hint', inStruct, inStruct', s, t, hty, h => by
    rw [CType.expand, resolve, resolve]
    have hne : n ≠ "" := bne_iff_ne.mp hty
    refine parallel_resolveFirst h
      (.bind (parallel_makeEnum h hne underlying items doc hint hint') ?_) ..
    rintro _ _ s' t' - - h' ⟨rfl, rfl⟩
    exact .pure h' (.plain rfl n)
  | .enum ⟨none, _, _, _⟩, _, _, _, _, _, _, hty, _ => nomatch hty
  | .pointer pointee pointeeConst, hint, hint', inStruct, inStruct', s, t, hty, h => by
    rw [CType.expand, resolve, resolve]
    refine parallel_resolveFirst h (.bind
      (parallel_resolve pointee hint hint' inStruct inStruct' hty h)
      fun a b s' t' _ _ h' hab => (parallel_pointerTo h' pointeeConst a b).mono ?_) ..
    rintro _ _ ⟨rfl, rfl⟩
    exact hab.push (by rw [CType.opensAlike]; exact (and_iff_left rfl).symm)
  | .function _, _, _, _, _, _, _, hty, _ => nomatch hty
  | .unsupported _, _, _, _, _, _, _, hty, _ => nomatch hty

theorem parallel_makeStruct : ∀ (decl : RecordDecl) (fallback fallback' : Option String)
    {s t : Registry}, decl.isTagged = true → s.Parallel t →
    (makeStruct .none fallback decl).Parallel (makeStruct .none fallback' decl.expand) s t
      fun a b => ∃ n, a = some n ∧ b = some n
  | ⟨none, none, _, _⟩, _, _, _, _, hty, _ | ⟨none, some _, _, _⟩, _, _, _, _, hty, _ => nomatch hty
  | ⟨some n, fields, isUnion, doc⟩, fallback, fallback', s, t, hty, h => by
    set decl : RecordDecl := ⟨some n, fields, isUnion, doc⟩
    have hne : n ≠ "" := RecordDecl.ne_empty_of_isTagged hty rfl
    have hname := declaredName?_of_tag hne fallback
    have hname' : declaredName? decl.expand.name fallback' = some n := by
      rw [decl.name_expand]
      exact declaredName?_of_tag hne fallback'
    have hslot := h.slotted n
    -- a struct that is done in one registry does not wait in the other
    rcases makeStruct_cases decl hname h.left.consistent with
      ⟨hs, -⟩ | ⟨id, d, hl, hd, hc, hcomplete, hrun⟩
    · rcases makeStruct_cases decl.expand hname' h.right.consistent with
        ⟨ht, -⟩ | ⟨id', d', hl', hd', hc', hcomplete', -⟩
      · exact .of_ok hs ht hslot ⟨n, rfl, rfl⟩
      · have hdone := ((leads_makeStruct decl fallback h.left).of_ok hs).2.2 n rfl
        rw [decl.isComplete_expand] at hcomplete'
        rw [hdone.complete hcomplete' hl' hd' (hslot.outline n).symm] at hc'
        cases hc'
    · rcases makeStruct_cases decl.expand hname' h.right.consistent with
        ⟨ht, -⟩ | ⟨id', d', hl', hd', hc', -, hrun'⟩
      · have hdone := ((leads_makeStruct decl.expand fallback' h.right).of_ok ht).2.2 n rfl
        rw [decl.isComplete_expand] at hdone
        rw [hdone.complete hcomplete hl hd (hslot.outline n)] at hc
        cases hc
      · cases fields with
        | none => cases hcomplete
        | some decls =>
          have htagged := RecordDecl.areTagged_of_isTagged hty
          have hbegun := hslot.begun hl hd hc hl' hd' hc' decl decl.expand
          refine .congr ?_ (hrun decls rfl).1 (hrun' (FieldDecl.expandAll decls) rfl).1
          refine .bind (parallel_lowerFields decls n .empty htagged hbegun)
            fun fs fs' u v hu hv huv _ => ?_
          have hfs := ((leads_lowerFields decls n .empty hbegun.left).of_ok hu).2
          have hfs' := ((leads_lowerFields _ n .empty hbegun.right).of_ok hv).2
          exact .of_ok rfl rfl (huv.setFields id id' hfs hfs') ⟨n, rfl, rfl⟩

theorem parallel_lowerFields : ∀ (decls : List FieldDecl) (record : String) (run : BitFieldRun)
    {s t : Registry}, FieldDecl.areTagged decls = true → s.Parallel t →
    (lowerFields .none record run decls).Parallel
      (lowerFields .none record run (FieldDecl.expandAll decls)) s t fun _ _ => True
  | [], record, run, s, t, _, h => by
    rw [FieldDecl.expandAll, lowerFields]
    exact parallel_flush h run record
  | ⟨name, ty, some width, doc, deprecation⟩ :: decls, record, run, s, t, hd, h => by
    -- the type of a bit-field is not looked at
    rw [FieldDecl.expandAll, lowerFields, lowerFields]
    rw [FieldDecl.areTagged, Bool.and_eq_true] at hd
    exact parallel_lowerFields decls record _ hd.2 h
  | ⟨name, ty, none, doc, deprecation⟩ :: decls, record, run, s, t, hd, h => by
    rw [FieldDecl.expandAll, lowerFields, lowerFields]
    rw [FieldDecl.areTagged, Bool.and_eq_true] at hd
    refine .bind (parallel_flush h run record) fun _ _ _ _ _ _ h _ => ?_
    refine .bind (parallel_resolve ty _ _ true true hd.1 h) fun _ _ _ _ _ _ h _ => ?_
    exact .bind (parallel_lowerFields decls record .empty hd.2 h) fun _ _ _ _ _ _ h _ =>
      .pure h trivial

end

/-! ### A fresh lowerer -/

theorem Registry.Parallel.empty : Registry.empty.Parallel .empty :=
  ⟨.empty, .empty, fun _ => rfl, fun _ => rfl, nofun⟩

/-- **Typedefs show in unknown lengths only**: a fresh lowerer resolves a type when it resolves the
type without typedefs, to the same base behind the same number of modifiers. The modifiers are the
same just when no typedef hides from an array of unknown length what its elements are. -/
theorem resolve_expand_eq_iff (ty : CType) (hty : ty.isTagged = true) (hint : Option String)
    (inStruct : Bool) :
    Option.Rel
      (fun a b => b.base = a.base ∧ b.modifiers.length = a.modifiers.length ∧
        (b.modifiers = a.modifiers ↔ ty.opensAlike = true))
      ((resolve Lowerer.new.override hint inStruct ty).run' Lowerer.new.registry)
      ((resolve Lowerer.new.override hint inStruct ty.expand).run' Lowerer.new.registry) := by
  have hrun := parallel_resolve ty hint hint inStruct inStruct hty .empty
  exact (hrun.mono fun _ _ hab => ⟨hab.1.1, hab.1.2, hab.2⟩).rel

/-- A typedef of the type. -/
def CType.called (target : CType) (name : String) : CType := .typedef name target

/-- A typedef of a byte. -/
def octet : CType := (CType.builtin .uchar).called "octet"

/-- Rows of a struct whose fields are typedefs of typedefs, arrays among them, of unknown length. -/
def rows : CType :=
  let next : CType := .pointer (.record ⟨some "node", none, false, .none⟩) false
  let node : CType := .record ⟨some "node",
    some [⟨"next", (next.called "plain_link").called "link", none, .none, none⟩,
      ⟨"kind", octet.called "kind", some 3, .none, none⟩,
      ⟨"keys", .array (octet.called "key") (.constant 4) false, none, .none, none⟩],
    false, .none⟩
  (CType.array (.pointer (node.called "node_t") false) .incomplete false).called "rows"

/-- Rows of structs and rows of bytes are read alike with their typedefs and without. -/
theorem resolve_expand_eq_iff_rows :
    rows.isTagged = true ∧ rows.opensAlike = true ∧
    ∃ a b, (resolve .none (some "arg") false rows).run' .empty = some a ∧
      (resolve .none (some "arg") false rows.expand).run' .empty = some b ∧
      b.base = a.base ∧ b.modifiers = a.modifiers := by
  have htagged : rows.isTagged = true := by decide +kernel
  have halike : rows.opensAlike = true := by decide +kernel
  have hok : ((resolve .none (some "arg") false rows).run' .empty).isSome = true := by
    decide +kernel
  obtain ⟨a, ha⟩ := Option.isSome_iff_exists.mp hok
  have hrel := resolve_expand_eq_iff rows htagged (some "arg") false
  change Option.Rel _ ((resolve .none (some "arg") false rows).run' .empty)
    ((resolve .none (some "arg") false rows.expand).run' .empty) at hrel
  rw [ha] at hrel
  generalize hb : (resolve .none (some "arg") false rows.expand).run' .empty = b at hrel
  cases hrel with
  | some h => exact ⟨htagged, halike, _, _, ha, rfl, h.1, h.2.2.mpr halike⟩

/-- Pointers to a typedef of a typedef, in an array of unknown length, are not seen to be pointers
to a byte, and a typedef of a pointer is not seen to be a pointer. -/
theorem resolve_typedefs_ne_expand :
    let bytes : CType := .array (.pointer (octet.called "byte_t") false) .incomplete false
    let node : CType := .record ⟨some "node", none, false, .none⟩
    let link : CType := (CType.pointer node false).called "link"
    let links : CType := .array link .incomplete false
    bytes.isTagged = true ∧ links.isTagged = true ∧
    (resolve .none none false bytes).run' .empty = some ⟨"byte", [.pointer, .pointer], none⟩ ∧
    (resolve .none none false bytes.expand).run' .empty = some ⟨"byte", [.pointer, .array], none⟩ ∧
    (resolve .none none false links).run' .empty = some ⟨"node", [.pointer, .array], none⟩ ∧
    (resolve .none none false links.expand).run' .empty =
      some ⟨"node", [.pointer, .pointer], none⟩ := by
  decide +kernel

end Bindery
