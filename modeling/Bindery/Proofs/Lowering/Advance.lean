import Bindery.Proofs.Lowering.WellTyped

/-!
# Lowering advances a registry

`Leads` is what is said of lowering steps: from a well-typed registry the step advances, whether it
answers or fails, and an answer is as promised. A failing step leaves a well-typed registry too,
with all that was registered before the error. The rules follow the operations of `LowerM`; the main
statements are on the mutual recursion of `resolve`, with no override: every reference that is
resolved leads somewhere.
-/

namespace Bindery

open Registry

section Steps

variable {ε σ α β : Type} {m : EStateM ε σ α} {f : α → EStateM ε σ β} {s t : σ}

theorem bind_ok {a : α} (h : m s = .ok a t) : (m >>= f) s = f a t := by
  change EStateM.bind m f s = _
  rw [EStateM.bind, h]

theorem bind_error {e : ε} (h : m s = .error e t) : (m >>= f) s = .error e t := by
  change EStateM.bind m f s = _
  rw [EStateM.bind, h]

theorem of_bind_eq_ok {b : β} {u : σ} (h : (m >>= f) s = .ok b u) :
    ∃ a t, m s = .ok a t ∧ f a t = .ok b u := by
  cases hs : m s with
  | ok a t => exact ⟨a, t, rfl, (bind_ok hs).symm.trans h⟩
  | error e t => cases (bind_error hs).symm.trans h

end Steps

variable {α β : Type} {r s t : Registry} {m : LowerM α} {f : α → LowerM β}
  {P : α → Registry → Prop} {Q : β → Registry → Prop} {id : DefId} {d : Definition} {n : String}
  {ty : TypeRef}

/-- Started in `s` the step advances the registry, and its answer is as `post` says. -/
def LowerM.Leads (m : LowerM α) (s : Registry) (post : α → Registry → Prop) : Prop :=
  match m s with
  | .ok a t => s.Advances t ∧ post a t
  | .error _ t => s.Advances t

namespace LowerM.Leads

theorem of_ok (h : m.Leads s P) {a : α} (hm : m s = .ok a t) : s.Advances t ∧ P a t := by
  rw [Leads, hm] at h
  exact h

theorem of_error (h : m.Leads s P) {e : LowerError} (hm : m s = .error e t) : s.Advances t := by
  rw [Leads, hm] at h
  exact h

theorem mono {P' : α → Registry → Prop} (h : m.Leads s P)
    (hp : ∀ a t, s.Advances t → P a t → P' a t) : m.Leads s P' := by
  unfold Leads at h ⊢
  cases hs : m s with
  | error e t => rw [hs] at h; exact h
  | ok a t => rw [hs] at h; exact ⟨h.1, hp a t h.1 h.2⟩

theorem and {P' : α → Registry → Prop} (h : m.Leads s P) (h' : m.Leads s P') :
    m.Leads s fun a t => P a t ∧ P' a t := by
  unfold Leads at h h' ⊢
  cases hs : m s with
  | error e t => rw [hs] at h; exact h
  | ok a t => rw [hs] at h h'; exact ⟨h.1, h.2, h'.2⟩

theorem pure {a : α} (h : s.WellTyped) (ha : P a s) : Leads (Pure.pure a) s P := ⟨.refl h, ha⟩

theorem throw (h : s.WellTyped) (e : LowerError) : Leads (MonadExcept.throw e : LowerM α) s P :=
  Advances.refl h

theorem bind (hm : m.Leads s P) (hf : ∀ a t, s.Advances t → P a t → (f a).Leads t Q) :
    (m >>= f).Leads s Q := by
  unfold Leads
  cases hs : m s with
  | error e t => rw [bind_error hs]; exact hm.of_error hs
  | ok a t =>
    obtain ⟨hst, ha⟩ := hm.of_ok hs
    have hfa := hf a t hst ha
    rw [bind_ok hs]
    cases ht : f a t with
    | error e u => exact hst.trans (hfa.of_error ht)
    | ok b u =>
      obtain ⟨htu, hb⟩ := hfa.of_ok ht
      exact ⟨hst.trans htu, hb⟩

theorem get_bind {g : Registry → LowerM α} (h : (g s).Leads s P) : Leads (get >>= g) s P := h

theorem modifyGet {g : Registry → α × Registry} (h : s.Advances (g s).2) (ha : P (g s).1 (g s).2) :
    Leads (MonadState.modifyGet g) s P := ⟨h, ha⟩

theorem modify {g : Registry → Registry} {P : PUnit → Registry → Prop} (h : s.Advances (g s))
    (ha : P ⟨⟩ (g s)) : Leads (MonadState.modifyGet fun r => (⟨⟩, g r)) s P := ⟨h, ha⟩

theorem mention (h : s.WellTyped) (name : String) :
    (LowerM.mention name).Leads s fun _ t => t = s.mention name :=
  ⟨.mention h name, rfl⟩

end LowerM.Leads

/-! ### What registering does -/

theorem Primitive.ofName?_name (p : Primitive) : Primitive.ofName? p.name = some p := by
  cases p <;> rfl

namespace Registry

theorem Stands.primitive (r : Registry) (p : Primitive) : r.Stands p.name :=
  .inr (.inl (by rw [Primitive.ofName?_name]; rfl))

theorem Stands.of_get? (h : r.Consistent) (hd : r.get? id = some d) : r.Stands d.name :=
  .inl (by rw [h.find?_name hd]; rfl)

theorem Stands.advance (h : s.Stands n) (hs : s.WellTyped) (ha : s.Advances t) : t.Stands n :=
  h.grow ha.grows hs.consistent ha.wellTyped.consistent

theorem Taken.advance (h : s.Taken n) (hs : s.WellTyped) (ha : s.Advances t) : t.Taken n :=
  h.grow ha.grows hs.consistent ha.wellTyped.consistent

theorem Declared.advance {complete : Bool} (h : s.Declared n complete) (hs : s.WellTyped)
    (ha : s.Advances t) : t.Declared n complete :=
  h.grow ha.grows hs.consistent ha.wellTyped.consistent

/-- The type may stand in a signature. -/
structure Suits (r : Registry) (ty : TypeRef) : Prop where
  stands : r.Stands ty.base
  passes : r.Passes ty

theorem Suits.advance (h : s.Suits ty) (hs : s.WellTyped) (ha : s.Advances t) : t.Suits ty :=
  ⟨h.stands.advance hs ha, h.passes.grow h.stands ha.grows hs.consistent ha.wellTyped.consistent
    ha.wellTyped.arraysNamed⟩

theorem Suits.decay (h : r.WellTyped) (hty : r.Stands ty.base) : r.Suits (r.decay ty) := by
  unfold Registry.decay
  split
  · next hp =>
    split
    · next a ha =>
      obtain ⟨d, hf, ha⟩ := Option.bind_eq_some_iff.mp ha
      cases d <;> cases ha
      obtain ⟨id, hd, -⟩ := h.consistent.find?_eq_some_iff.mp hf
      have he : r.Stands a.element.base := h.stands hd (List.mem_singleton_self _)
      exact ⟨he, fun hp => by simp [TypeRef.isPlain, TypeRef.push] at hp⟩
    · next hn =>
      refine ⟨hty, fun _ hk => ?_⟩
      obtain ⟨d, hf, hk⟩ := Option.map_eq_some_iff.mp hk
      cases d <;> cases hk
      rw [hf] at hn
      cases hn
  · next hp => exact ⟨hty, fun hp' => absurd hp' hp⟩

theorem suits_signature {ret : TypeRef} {params : List Param} (hret : r.Suits ret)
    (hparams : ∀ p ∈ params, r.Suits p.ty) : ∀ ty ∈ ret :: params.map Param.ty, r.Suits ty := by
  intro ty hty
  rcases List.mem_cons.mp hty with rfl | hty
  · exact hret
  · obtain ⟨p, hp, rfl⟩ := List.mem_map.mp hty
    exact hparams p hp

theorem Admits.of_suits {d : Definition} (h : ∀ ty ∈ d.typeRefs, r.Suits ty)
    (hk : d.kind ≠ .fixedArray) : r.Admits d :=
  ⟨fun ty hty => (h ty hty).stands, fun ty hty => (h ty (signatureRefs_subset d hty)).passes,
    fun _ he => absurd (he ▸ rfl) hk⟩

theorem admits_placeholder (r : Registry) (label : Label) :
    r.Admits (.structDef (.placeholder label)) := ⟨nofun, nofun, nofun⟩

theorem admits_enumDef (r : Registry) (enum : EnumDef) : r.Admits (.enumDef enum) := by
  refine ⟨fun _ h => ?_, fun _ h => ?_, fun _ h => ?_⟩ <;> cases h

theorem Advances.structSlot (h : s.WellTyped) (name : String) :
    s.Advances (s.structSlot name).2 := by
  unfold Registry.structSlot
  split
  · exact .refl h
  · exact .insert h (s.admits_placeholder _)

theorem Taken.structSlot (h : s.Consistent) (name : String) : (s.structSlot name).2.Taken name := by
  unfold Registry.structSlot
  split
  · next id hl => exact .of_lookup? h (by rw [hl]; rfl)
  · exact .insert h (.structDef (.placeholder (.ofName name)))

/-- The slot of a struct is the one that its name leads to. -/
theorem lookup?_structSlot (h : s.Consistent) (name : String) :
    (s.structSlot name).2.lookup? name = (s.structSlot name).1 := by
  unfold Registry.structSlot
  split
  · next id hl => exact hl
  · rcases insert_cases s (.structDef (.placeholder (.ofName name))) with
      ⟨hs, hi⟩ | ⟨id, hl, hi⟩ | ⟨-, -, hi⟩ <;> rw [hi]
    · exact h.refused hs
    · exact hl
    · exact lookup?_append.trans (if_pos rfl)

theorem Advances.beginStruct (h : s.WellTyped) (id : DefId) (isUnion : Bool) (doc : Doc) :
    s.Advances (s.beginStruct id isUnion doc).2 := by
  unfold Registry.beginStruct
  split
  · next d hd =>
    split
    · exact .refl h
    · refine .modify h id fun d' hd' => ?_
      cases hd.symm.trans hd'
      exact ⟨.ofStruct rfl fun _ => rfl, ⟨(h.admits hd).stands, nofun, nofun⟩⟩
  · exact .refl h

/-- A struct that has been begun counts as complete. -/
theorem complete_of_beginStruct {isUnion : Bool} {doc : Doc} {d : StructDef}
    (hl : s.lookup? n = some id)
    (hf : (s.beginStruct id isUnion doc).2.find? n = some (.structDef d)) : d.complete = true := by
  unfold Registry.beginStruct at hf
  split at hf
  · next d₀ hd =>
    split at hf
    · next hc =>
      rw [find?_eq_of_lookup? hl, hd] at hf
      cases hf
      exact hc
    · have hl' : (s.modify id fun _ => .structDef { d₀ with
          complete := true, isUnion, label := { d₀.label with doc } }).lookup? n = some id := hl
      rw [find?_eq_of_lookup? hl', get?_modify, if_pos rfl, hd] at hf
      cases hf
      rfl
  · next hne =>
    rw [find?_eq_of_lookup? hl] at hf
    exact absurd hf (hne d)

theorem Advances.setFields (h : s.WellTyped) (id : DefId) {fields : List Field}
    (hf : ∀ f ∈ fields, s.Stands f.ty.base) : s.Advances (s.setFields id fields) := by
  refine .modify h id fun d hd => ?_
  cases d with
  | structDef d =>
    refine ⟨.ofStruct rfl (fun hc => hc), ⟨fun ty hty => ?_, nofun, nofun⟩⟩
    obtain ⟨f, hm, rfl⟩ := List.mem_map.mp hty
    exact hf f hm
  | _ => exact ⟨.refl _, h.admits hd⟩

end Registry

/-! ### The steps of resolution -/

theorem leads_primitive (h : s.WellTyped) (p : Primitive) :
    (LowerM.primitive p).Leads s fun ty t => t.Stands ty.base :=
  .modifyGet (.mention h _) (.primitive _ p)

theorem leads_decayed (h : s.WellTyped) (hty : s.Stands ty.base) :
    (decayed ty).Leads s fun ty t => t.Suits ty :=
  .get_bind (.pure h (.decay h hty))

theorem leads_flush (h : s.WellTyped) (run : BitFieldRun) (record : String) :
    (run.flush record).Leads s fun fields t => ∀ f ∈ fields, t.Stands f.ty.base := by
  unfold BitFieldRun.flush
  split
  · exact .pure h nofun
  split
  · exact .throw h _
  · refine .bind (leads_primitive h _) fun ty t hst hty => .pure hst.wellTyped fun f hf => ?_
    rwa [List.mem_singleton.mp hf]

/-- An enum that has a name is noted, or it is registered. -/
theorem makeEnum_eq {fallback : Option String} {n : String} (decl : EnumDecl)
    (hn : declaredName? decl.name fallback = some n) (s : Registry) :
    makeEnum fallback decl s =
      if ((s.lookup? n).isSome || s.isSuppressed n) = true then .ok (some n) (s.mention n)
      else match integerUnderlying? decl.underlying with
        | none => .error (.nonIntegerEnum n decl.underlying.display) (s.mention n)
        | some underlying => .ok (some n)
          ((s.mention n).insert (.enumDef (.ofDecl n underlying decl))).2 := by
  rw [makeEnum, hn]
  refine (bind_ok rfl).trans ((bind_ok rfl).trans ?_)
  change (if ((s.lookup? n).isSome || s.isSuppressed n) = true then _ else _ : LowerM _) _ = _
  split
  · rfl
  · cases integerUnderlying? decl.underlying <;> rfl

theorem leads_makeEnum (h : s.WellTyped) (fallback : Option String) (decl : EnumDecl) :
    (makeEnum fallback decl).Leads s fun name t =>
      name = declaredName? decl.name fallback ∧ ∀ n, name = some n → t.Taken n := by
  unfold makeEnum
  split
  · next hn => exact .pure h ⟨hn.symm, nofun⟩
  · next name hn =>
    rw [hn]
    refine .bind (.mention h name) fun _ t hst _ => .get_bind ?_
    have ht := hst.wellTyped
    split
    · next hl =>
      refine .pure ht ⟨rfl, fun n hn => ?_⟩
      cases hn
      rw [Bool.or_eq_true] at hl
      exact hl.elim (.of_lookup? ht.consistent) .inr
    split
    · exact .throw ht _
    · next underlying _ =>
      have hi : t.Advances (t.insert (.enumDef (.ofDecl name underlying decl))).2 :=
        .insert ht (admits_enumDef _ _)
      refine .bind (P := fun _ t => t.Taken name) (.modifyGet hi (.insert ht.consistent _))
        fun _ u htu hu => .pure htu.wellTyped ⟨rfl, fun n hn => ?_⟩
      cases hn
      exact hu

/-- The array of that element and length, as it is registered when it is new. -/
def Registry.newArray (s : Registry) (element : TypeRef) (length : Nat) : FixedArray :=
  ⟨.ofName (fixedArrayName element length), element, length,
    element.isPlain && s.isPrimitive element.base⟩

/-- The reference to an array goes by the name of its structure, and the array is registered where
that name is free. -/
theorem fixedArrayOf_eq_ok (h : s.WellTyped) (length : Nat) {element : TypeRef}
    (he : s.Stands element.base) :
    ∃ t, fixedArrayOf length element s = .ok (.plain (fixedArrayName element length)) t ∧
      s.Advances t ∧ ∀ n, t.find? n = (s.find? n).or
        (if n = fixedArrayName element length ∧ s.isSuppressed n = false
          then some (.fixedArray (s.newArray element length)) else none) := by
  cases hc : (s.fixedArray? element length).bind s.get? with
  | some d =>
    have hrun : fixedArrayOf length element s = .ok (.plain d.name) s := by
      refine (bind_ok rfl).trans ((bind_ok rfl).trans ?_)
      rw [hc]
      rfl
    obtain ⟨id, hf, hd⟩ := Option.bind_eq_some_iff.mp hc
    obtain ⟨d', hd', hn⟩ := h.get?_of_fixedArray? hf
    cases hd.symm.trans hd'
    refine ⟨s, by rw [hrun, hn], .refl h, fun n => ?_⟩
    split
    · next he => rw [he.1, ← hn, h.consistent.find?_name hd]; rfl
    · rw [Option.or_none]
  | none =>
    have hrun : fixedArrayOf length element s = .ok (.plain (fixedArrayName element length))
        ((s.mention (fixedArrayName element length)).insertFixedArray
          (s.newArray element length)).2 := by
      refine (bind_ok rfl).trans ((bind_ok rfl).trans ?_)
      rw [hc]
      rfl
    have hm := Advances.mention h (fixedArrayName element length)
    exact ⟨_, hrun, hm.trans (.insertFixedArray hm.wellTyped (he.advance h hm) rfl),
      hm.wellTyped.find?_insertFixedArray rfl⟩

theorem leads_fixedArrayOf (h : s.WellTyped) (length : Nat) {element : TypeRef}
    (he : s.Stands element.base) :
    (fixedArrayOf length element).Leads s fun ty t => t.Stands ty.base := by
  obtain ⟨t, ht, ha, hf⟩ := fixedArrayOf_eq_ok h length he
  rw [LowerM.Leads, ht]
  refine ⟨ha, ?_⟩
  cases hs : s.isSuppressed (fixedArrayName element length) with
  | true => exact .inr (.inr (by rw [ha.grows.isSuppressed]; exact hs))
  | false => exact .inl (by simp [hf, TypeRef.plain, hs])

@[simp] theorem base_openArrayOf (element : CType) (elementConst : Bool) (ty : TypeRef) :
    (openArrayOf element elementConst ty).base = ty.base := by
  unfold openArrayOf
  split
  · split <;> rfl
  · rfl

theorem leads_pointerTo (h : s.WellTyped) (pointeeConst : Bool) (hty : s.Stands ty.base) :
    (pointerTo pointeeConst ty).Leads s fun ty t => t.Stands ty.base := by
  refine .get_bind ?_
  split
  · exact .pure h hty
  · exact .pure h hty

theorem leads_named (h : s.WellTyped) (kind : NamelessKind) {name : Option String}
    (hn : ∀ n, name = some n → s.Stands n) :
    (named kind name).Leads s fun ty t => t.Stands ty.base := by
  cases name with
  | none => exact .throw h _
  | some n => exact .pure h (hn n rfl)

/-- A hint that names a delegate answers. -/
theorem resolveFirst_known {hint : Option String} {known : TypeRef}
    (hk : hint.bind s.delegate? = some known) (ctype : CType) (rules : LowerM TypeRef) :
    resolveFirst .none hint ctype rules s = .ok known s := by
  refine (bind_ok rfl).trans ?_
  rw [hk]
  rfl

/-- Where no delegate has the hint, the rules answer. -/
theorem resolveFirst_eq {hint : Option String} (hn : hint.bind s.delegate? = none) (ctype : CType)
    (rules : LowerM TypeRef) : resolveFirst .none hint ctype rules s = rules s := by
  refine (bind_ok rfl).trans ?_
  rw [hn]
  rfl

theorem leads_resolveFirst {hint : Option String} {ctype : CType} {rules : LowerM TypeRef}
    {P : TypeRef → Registry → Prop} (hk : ∀ known, hint.bind s.delegate? = some known → P known s)
    (h : s.WellTyped) (hr : rules.Leads s P) : (resolveFirst .none hint ctype rules).Leads s P := by
  unfold LowerM.Leads
  cases hd : hint.bind s.delegate? with
  | some known =>
    rw [resolveFirst_known hd]
    exact ⟨.refl h, hk known hd⟩
  | none =>
    rw [resolveFirst_eq hd]
    exact hr

theorem Registry.Stands.of_delegate? {hint : Option String} {known : TypeRef} (h : s.WellTyped)
    (hd : hint.bind s.delegate? = some known) : s.Stands known.base := by
  obtain ⟨n, -, hd⟩ := Option.bind_eq_some_iff.mp hd
  unfold delegate? at hd
  split at hd
  · next hk =>
    cases hd
    obtain ⟨id, d, hg, rfl, -⟩ := (kindOf?_eq_some_iff h.consistent).mp hk
    exact .of_get? h.consistent hg
  · cases hd

mutual

/-- Resolution advances the registry, and a reference that it answers with leads somewhere. -/
theorem leads_resolve : ∀ (ty : CType) (hint : Option String) (inStruct : Bool) {s : Registry},
    s.WellTyped → (resolve .none hint inStruct ty).Leads s fun ref t => t.Stands ref.base
  | .builtin b, hint, inStruct, s, h => by
    rw [resolve]
    exact leads_resolveFirst (fun _ => .of_delegate? h) h (leads_primitive h _)
  | .typedef name target, hint, inStruct, s, h => by
    rw [resolve]
    refine leads_resolveFirst (fun _ => .of_delegate? h) h ?_
    split
    · exact leads_primitive h _
    · exact leads_resolve target (some name) inStruct h
  | .array element (.constant length) _, hint, inStruct, s, h => by
    rw [resolve]
    exact leads_resolveFirst (fun _ => .of_delegate? h) h <|
      .bind (leads_resolve element hint true h) fun _ _ hst he =>
        leads_fixedArrayOf hst.wellTyped length he
  | .array element .incomplete _, hint, inStruct, s, h
  | .array element .variable _, hint, inStruct, s, h => by
    simp only [resolve]
    exact leads_resolveFirst (fun _ => .of_delegate? h) h <|
      .bind (leads_resolve element hint inStruct h) fun _ _ hst he =>
        .pure hst.wellTyped (by rwa [base_openArrayOf])
  | .record decl, hint, inStruct, s, h => by
    rw [resolve]
    exact leads_resolveFirst (fun _ => .of_delegate? h) h <|
      .bind (leads_makeStruct decl hint h) fun _ _ hst hn =>
        leads_named hst.wellTyped _ fun n he => (hn.2 n he).taken.stands
  | .enum decl, hint, inStruct, s, h => by
    rw [resolve]
    exact leads_resolveFirst (fun _ => .of_delegate? h) h <|
      .bind (leads_makeEnum h hint decl) fun _ _ hst hn =>
        leads_named hst.wellTyped _ fun n he => (hn.2 n he).stands
  | .pointer pointee pointeeConst, hint, inStruct, s, h => by
    rw [resolve]
    exact leads_resolveFirst (fun _ => .of_delegate? h) h <|
      .bind (leads_resolve pointee hint inStruct h) fun _ _ hst hty =>
        leads_pointerTo hst.wellTyped pointeeConst hty
  | .function ty, none, inStruct, s, h => by
    rw [resolve]
    exact leads_resolveFirst (fun _ => .of_delegate? h) h (.throw h _)
  | .function ty, some name, inStruct, s, h => by
    rw [resolve]
    exact leads_resolveFirst (fun _ => .of_delegate? h) h <|
      (leads_makeDelegate ty name inStruct h).mono fun _ _ _ hn => hn.1 ▸ hn.2.stands
  | .unsupported spelling, hint, inStruct, s, h => by
    rw [resolve]
    exact leads_resolveFirst (fun _ => .of_delegate? h) h (.throw h _)

/-- Whatever becomes of a record, its name is known beforehand and taken afterwards. -/
theorem leads_makeStruct : ∀ (decl : RecordDecl) (fallback : Option String) {s : Registry},
    s.WellTyped → (makeStruct .none fallback decl).Leads s fun name t =>
      name = declaredName? decl.name fallback ∧ ∀ n, name = some n → t.Declared n decl.isComplete
  | ⟨tag, fields, isUnion, doc⟩, fallback, s, h => by
    rw [makeStruct]
    split
    · next hn => exact .pure h ⟨hn.symm, nofun⟩
    next name hn =>
    rw [hn]
    refine .bind (.mention h name) fun _ s₁ h₁ _ => ?_
    have hc₁ := h₁.wellTyped.consistent
    refine .bind (P := fun id t => t.Taken name ∧ t.lookup? name = id)
      (.modifyGet (.structSlot h₁.wellTyped name)
        ⟨.structSlot hc₁ name, lookup?_structSlot hc₁ name⟩) fun id s₂ h₂ ⟨htaken, hl⟩ => ?_
    have hdone : ∀ {t : Registry} {complete : Bool}, t.Declared name complete →
        some name = some name ∧ ∀ n, some name = some n → t.Declared n complete :=
      fun hd => ⟨rfl, fun n he => Option.some.inj he ▸ hd⟩
    cases id with
    | none =>
      exact .pure h₂.wellTyped (hdone ⟨htaken, fun _ d hf => by simp [Registry.find?, hl] at hf⟩)
    | some id =>
      cases fields with
      | none => exact .pure h₂.wellTyped (hdone ⟨htaken, nofun⟩)
      | some decls =>
        -- the struct counts as complete from here on, whatever its fields come back to
        refine .bind (P := fun _ t => ∀ d, t.find? name = some (.structDef d) → d.complete = true)
          (.modifyGet (.beginStruct h₂.wellTyped id isUnion doc)
            fun d => complete_of_beginStruct hl) fun new s₃ h₃ hc => ?_
        have hd₃ : s₃.Declared name true := ⟨htaken.advance h₂.wellTyped h₃, fun _ => hc⟩
        dsimp only
        split
        · refine .bind (leads_lowerFields decls name .empty h₃.wellTyped) fun lowered s₄ h₄ hf => ?_
          refine .bind (P := fun _ _ => True) (.modify (.setFields h₄.wellTyped id hf) trivial)
            fun _ s₅ h₅ _ => .pure h₅.wellTyped (hdone (hd₃.advance h₃.wellTyped (h₄.trans h₅)))
        · exact .pure h₃.wellTyped (hdone hd₃)

theorem leads_lowerFields : ∀ (decls : List FieldDecl) (record : String) (run : BitFieldRun)
    {s : Registry}, s.WellTyped →
    (lowerFields .none record run decls).Leads s fun fields t => ∀ f ∈ fields, t.Stands f.ty.base
  | [], record, run, s, h => by
    rw [lowerFields]
    exact leads_flush h run record
  | ⟨name, _, some width, doc, _⟩ :: decls, record, run, s, h => by
    rw [lowerFields]
    exact leads_lowerFields decls record _ h
  | ⟨name, ty, none, doc, deprecation⟩ :: decls, record, run, s, h => by
    rw [lowerFields]
    refine .bind (leads_flush h run record) fun packed s₁ h₁ hp => ?_
    refine .bind (leads_resolve ty _ true h₁.wellTyped) fun ref s₂ h₂ hr => ?_
    refine .bind (leads_lowerFields decls record .empty h₂.wellTyped) fun rest s₃ h₃ hrest => ?_
    refine .pure h₃.wellTyped fun f hf => ?_
    rcases List.mem_append.mp hf with hf | hf
    · exact (hp f hf).advance h₁.wellTyped (h₂.trans h₃)
    rcases List.mem_cons.mp hf with rfl | hf
    · exact hr.advance h₂.wellTyped h₃
    · exact hrest f hf

theorem leads_makeDelegate : ∀ (ty : FunctionType) (name : String) (embedded : Bool) {s : Registry},
    s.WellTyped → (makeDelegate .none name embedded ty).Leads s fun ref t =>
      ref = .plain name ∧ t.Taken name
  | ⟨returnType, params, callConv⟩, name, embedded, s, h => by
    rw [makeDelegate]
    refine .bind (.mention h name) fun _ s₁ h₁ _ => .get_bind ?_
    dsimp only
    split
    · refine .bind (leads_resolve returnType none false h₁.wellTyped) fun ref s₂ h₂ hr => ?_
      refine .bind (leads_decayed h₂.wellTyped hr) fun ret s₃ h₃ hret => ?_
      refine .bind (leads_lowerParams params name 0 h₃.wellTyped) fun ps s₄ h₄ hps => ?_
      -- the return type was resolved before the parameters, and the registry has grown since
      have hall := suits_signature (hret.advance h₃.wellTyped h₄) hps
      refine .bind (P := fun _ t => t.Taken name) (.modifyGet (.insert h₄.wellTyped ?_)
        (.insert h₄.wellTyped.consistent _)) fun _ s₅ h₅ hn => .pure h₅.wellTyped ⟨rfl, hn⟩
      exact .of_suits hall nofun
    · next hl =>
      have hl : (s₁.lookup? name).isSome = true := by simpa [Option.isSome_iff_ne_none] using hl
      exact .pure h₁.wellTyped ⟨rfl, .of_lookup? h₁.wellTyped.consistent hl⟩

theorem leads_lowerParams : ∀ (decls : List ParamDecl) (owner : String) (i : Nat) {s : Registry},
    s.WellTyped → (lowerParams .none owner i decls).Leads s fun params t =>
      ∀ p ∈ params, t.Suits p.ty
  | [], owner, i, s, h => by
    rw [lowerParams]
    exact .pure h nofun
  | ⟨name, ty, doc⟩ :: decls, owner, i, s, h => by
    rw [lowerParams]
    refine .bind (leads_resolve ty _ false h) fun ref s₁ h₁ hr => ?_
    refine .bind (leads_decayed h₁.wellTyped hr) fun ref s₂ h₂ hr => ?_
    refine .bind (leads_lowerParams decls owner (i + 1) h₂.wellTyped) fun rest s₃ h₃ hrest => ?_
    refine .pure h₃.wellTyped fun p hp => ?_
    rcases List.mem_cons.mp hp with rfl | hp
    · exact hr.advance h₂.wellTyped h₃
    · exact hrest p hp

end

end Bindery
