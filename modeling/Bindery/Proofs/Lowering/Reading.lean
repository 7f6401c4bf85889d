import Bindery.Proofs.Lowering.Advance

/-!
# How a type is read

What a type resolves to depends on the registry only through the delegates that there are: those
that the hint may name when resolution begins, and those that a pointer may meet when it ends
(`leads_reading`). A type that is read again, with the delegates of the first time there from the
beginning, is read as before just when it is `steady`: no hint has become a delegate that stands for
less than the type did (`CType.reading_eq_iff`).
-/

namespace Bindery

open Registry

namespace CType

/-- A hint that is known answers for the type. -/
def readFirst (known : String → Bool) (hint : Option String) (rest : TypeRef) : TypeRef :=
  match hint.filter known with
  | some name => .plain name
  | none => rest

/-- A pointer to a known type is that type. -/
def readPointer (known : String → Bool) (pointeeConst : Bool) (pointee : TypeRef) : TypeRef :=
  if pointee.isPlain && known pointee.base then pointee
  else pointee.push (if pointeeConst then .constPointer else .pointer)

/-- What the type is on the host side, if resolution succeeds: `before` are the delegates that there
are when it begins, `after` those when it ends. -/
def reading (before after : String → Bool) (hint : Option String) (ty : CType) : TypeRef :=
  readFirst before hint <|
    match ty with
    | .builtin b => .plain b.primitive.name
    | .typedef name target =>
      if name = "size_t" then .plain Primitive.sizeT.name
      else target.reading before after (some name)
    | .array element (.constant length) _ =>
      .plain (fixedArrayName (element.reading before after hint) length)
    | .array element _ elementConst =>
      openArrayOf element elementConst (element.reading before after hint)
    | .record decl => .plain ((declaredName? decl.name hint).getD "")
    | .enum decl => .plain ((declaredName? decl.name hint).getD "")
    | .pointer pointee pointeeConst =>
      readPointer after pointeeConst (pointee.reading before after hint)
    | .function _ => .plain (hint.getD "")
    | .unsupported _ => .plain ""

/-- Whether the hint, if it is known by now, is all that was read at first. -/
def steadyFirst (known : String → Bool) (hint : Option String) (first : TypeRef) (rest : Bool) :
    Bool :=
  match hint.filter known with
  | some name => first == .plain name
  | none => rest

/-- Whether every hint that is a delegate after the first reading was all that the type below it was
read as. -/
def steady (before after : String → Bool) (hint : Option String) (ty : CType) : Bool :=
  steadyFirst after hint (ty.reading before after hint) <|
    match ty with
    | .typedef name target => name == "size_t" || target.steady before after (some name)
    | .array element _ _ => element.steady before after hint
    | .pointer pointee _ => pointee.steady before after hint
    | _ => true

end CType

theorem openArrayOf_eq_push (element : CType) (elementConst : Bool) :
    ∃ m, ∀ ty, openArrayOf element elementConst ty = ty.push m := by
  unfold openArrayOf
  split
  · next pointee _ =>
    cases pointee.isBuiltinLike with
    | true => exact ⟨_, fun _ => rfl⟩
    | false => exact ⟨_, fun _ => rfl⟩
  · exact ⟨_, fun _ => rfl⟩

/-! ### Reading again -/

/-- The new reference has another base than the old one, or fewer modifiers. -/
def TypeRef.Sheds (new old : TypeRef) : Prop :=
  new.base ≠ old.base ∨ new.modifiers.length < old.modifiers.length

/-- The new reference is the old one when that was steady, and sheds something of it otherwise. -/
def TypeRef.Rereads (steady : Bool) (new old : TypeRef) : Prop :=
  match steady with
  | true => new = old
  | false => new.Sheds old

namespace TypeRef

variable {new old : TypeRef} {steady : Bool}

theorem Sheds.ne (h : new.Sheds old) : new ≠ old := by
  rintro rfl
  exact h.elim (fun hb => hb rfl) (Nat.lt_irrefl _)

theorem Sheds.push (h : new.Sheds old) (m : Modifier) : (new.push m).Sheds (old.push m) :=
  h.imp_right fun hm => by simpa [TypeRef.push] using hm

theorem Sheds.fixedArray (h : new.Sheds old) (n : Nat) :
    (plain (fixedArrayName new n)).Sheds (plain (fixedArrayName old n)) := by
  refine .inl fun hn => ?_
  obtain ⟨hb, hm, -⟩ := fixedArrayName_inj.mp hn
  exact h.elim (fun hne => hne hb) (fun hlt => absurd hm (Nat.ne_of_lt hlt))

@[simp] theorem base_readPointer (known : String → Bool) (c : Bool) (ty : TypeRef) :
    (CType.readPointer known c ty).base = ty.base := by
  unfold CType.readPointer
  split <;> rfl

theorem Sheds.readPointer (h : new.Sheds old) (known : String → Bool) (c : Bool) :
    (CType.readPointer known c new).Sheds (CType.readPointer known c old) := by
  by_cases hb : new.base = old.base
  · have hlt := h.resolve_left (not_not_intro hb)
    -- what has lost a modifier had one, so its pointer has one more
    have hold : old.isPlain = false := by
      cases hm : old.modifiers with
      | nil => rw [hm] at hlt; cases hlt
      | cons => simp [isPlain, hm]
    unfold CType.readPointer
    rw [hold]
    split
    · exact .inr (by simpa [TypeRef.push] using Nat.lt_succ_of_lt hlt)
    · exact h.push _
  · exact .inl (by rwa [base_readPointer, base_readPointer])

theorem Rereads.eq_iff (h : Rereads steady new old) : new = old ↔ steady = true := by
  cases steady with
  | true => exact ⟨fun _ => rfl, fun _ => h⟩
  | false => exact ⟨fun he => absurd he h.ne, nofun⟩

theorem Rereads.map {f : TypeRef → TypeRef} (h : Rereads steady new old)
    (hf : new.Sheds old → (f new).Sheds (f old)) : Rereads steady (f new) (f old) := by
  cases steady with
  | true => exact congrArg f h
  | false => exact hf h

/-- Of a type that is read as its base only the base is left. -/
theorem Rereads.plain (hn : old.hostName = none) (name : String) :
    Rereads (old == .plain name) (.plain name) old := by
  cases he : old == .plain name with
  | true => exact (eq_of_beq he).symm
  | false =>
    refine Decidable.or_iff_not_imp_left.mpr fun hb => ?_
    obtain ⟨base, modifiers, hostName⟩ := old
    cases modifiers with
    | nil =>
      obtain rfl : name = base := Decidable.not_not.mp hb
      cases hn
      simp [TypeRef.plain] at he
    | cons m more => exact Nat.succ_pos _

theorem Rereads.refl (ty : TypeRef) : Rereads true ty ty := rfl

end TypeRef

namespace CType

variable {before after : String → Bool} {hint : Option String}

theorem readFirst_of_filter_eq {known : String → Bool} {rest : TypeRef}
    (h : hint.filter known = none) : readFirst known hint rest = rest := by
  rw [readFirst, h]

theorem hostName_readFirst {known : String → Bool} {rest : TypeRef} (h : rest.hostName = none) :
    (readFirst known hint rest).hostName = none := by
  unfold readFirst
  split
  · rfl
  · exact h

theorem hostName_reading (before after : String → Bool) : ∀ (ty : CType) (hint : Option String),
    (ty.reading before after hint).hostName = none
  | .builtin _, _ | .record _, _ | .enum _, _ | .function _, _ | .unsupported _, _
  | .array _ (.constant _) _, _ => by
    rw [reading]
    exact hostName_readFirst rfl
  | .typedef name target, hint => by
    rw [reading]
    refine hostName_readFirst ?_
    split
    · rfl
    · exact hostName_reading before after target _
  | .array element .incomplete c, hint | .array element .variable c, hint => by
    obtain ⟨m, hm⟩ := openArrayOf_eq_push element c
    simp only [reading, hm]
    exact hostName_readFirst (hostName_reading before after element hint)
  | .pointer pointee c, hint => by
    rw [reading]
    refine hostName_readFirst ?_
    unfold readPointer
    split
    · exact hostName_reading before after pointee hint
    · exact hostName_reading before after pointee hint

/-- The hint that has become known answers when the type is read again; else the rest does. -/
theorem rereads_readFirst (hle : ∀ n, before n = true → after n = true) {new old : TypeRef}
    {steady : Bool} (hn : (readFirst before hint old).hostName = none)
    (h : TypeRef.Rereads steady new old) :
    TypeRef.Rereads (steadyFirst after hint (readFirst before hint old) steady)
      (readFirst after hint new) (readFirst before hint old) := by
  unfold steadyFirst
  cases ha : hint.filter after with
  | none =>
    have hb : hint.filter before = none := by
      rw [Option.filter_eq_none_iff] at ha ⊢
      exact fun n hn' hb => ha n hn' (hle n hb)
    rw [readFirst_of_filter_eq ha, readFirst_of_filter_eq hb]
    exact h
  | some name =>
    have hnew : readFirst after hint new = .plain name := by rw [readFirst, ha]
    rw [hnew]
    exact .plain hn name

/-- What becomes of a type that is read again. -/
theorem rereads (hle : ∀ n, before n = true → after n = true) :
    ∀ (ty : CType) (hint : Option String),
    TypeRef.Rereads (ty.steady before after hint) (ty.reading after after hint)
      (ty.reading before after hint)
  | .builtin _, hint | .record _, hint | .enum _, hint | .function _, hint
  | .unsupported _, hint => by
    simp only [steady, reading]
    exact rereads_readFirst hle (hostName_readFirst rfl) (.refl _)
  | .typedef name target, hint => by
    have hn := hostName_reading before after (.typedef name target) hint
    simp only [steady, reading] at hn ⊢
    refine rereads_readFirst hle hn ?_
    by_cases hs : name = "size_t"
    · rw [if_pos hs, if_pos hs, beq_iff_eq.mpr hs]
      exact .refl _
    · rw [if_neg hs, if_neg hs, beq_eq_false_iff_ne.mpr hs]
      exact rereads hle target (some name)
  | .array element (.constant length) _, hint => by
    simp only [steady, reading]
    exact rereads_readFirst hle (hostName_readFirst rfl)
      ((rereads hle element hint).map (f := fun ty => .plain (fixedArrayName ty length))
        fun h => h.fixedArray length)
  | .array element .incomplete c, hint | .array element .variable c, hint => by
    have hn := hostName_reading before after (.array element .incomplete c) hint
    obtain ⟨m, hm⟩ := openArrayOf_eq_push element c
    simp only [steady, reading, hm] at hn ⊢
    exact rereads_readFirst hle hn <|
      (rereads hle element hint).map (f := fun ty => ty.push m) fun h => h.push m
  | .pointer pointee c, hint => by
    have hn := hostName_reading before after (.pointer pointee c) hint
    simp only [steady, reading] at hn ⊢
    exact rereads_readFirst hle hn ((rereads hle pointee hint).map fun h => h.readPointer after c)

/-- A type is read the same again just when it is steady. -/
theorem reading_eq_iff (hle : ∀ n, before n = true → after n = true) (ty : CType)
    (hint : Option String) :
    ty.reading after after hint = ty.reading before after hint ↔
      ty.steady before after hint = true :=
  (rereads hle ty hint).eq_iff

end CType

/-! ### What resolution answers -/

variable {s t : Registry} {hint : Option String}

namespace Registry

/-- Whether `name` is the name of a delegate. -/
def knows (r : Registry) (name : String) : Bool := r.kindOf? name == some .delegateDef

theorem knows_grow (hg : s.Grows t) (hs : s.WellTyped) (ht : t.WellTyped) (n : String)
    (hn : s.knows n = true) : t.knows n = true :=
  beq_iff_eq.mpr (hg.kindOf? hs.consistent ht.consistent (beq_iff_eq.mp hn))

theorem bind_delegate? (r : Registry) (hint : Option String) :
    hint.bind r.delegate? = (hint.filter r.knows).map TypeRef.plain := by
  cases hint with
  | none => rfl
  | some n =>
    by_cases hk : r.kindOf? n = some .delegateDef <;>
      simp [delegate?, knows, Option.filter, hk]

theorem delegate?_eq_none (h : hint.filter s.knows = none) : hint.bind s.delegate? = none := by
  rw [bind_delegate?, h]
  rfl

end Registry

/-- Arrays are no delegates. -/
theorem fixedArrayOf_knows (h : s.WellTyped) (length : Nat) {element : TypeRef}
    (he : s.Stands element.base) :
    ∃ t, fixedArrayOf length element s = .ok (.plain (fixedArrayName element length)) t ∧
      s.Advances t ∧ t.knows = s.knows := by
  obtain ⟨t, ht, hadv, hf⟩ := fixedArrayOf_eq_ok h length he
  refine ⟨t, ht, hadv, funext fun n => ?_⟩
  rw [knows, kindOf?, hf, knows, kindOf?]
  cases s.find? n with
  | some d => rfl
  | none =>
    split
    · rfl
    · rfl

theorem pointerTo_eq (s : Registry) (pointeeConst : Bool) (ty : TypeRef) :
    pointerTo pointeeConst ty s = .ok (CType.readPointer s.knows pointeeConst ty) s := by
  have hd : s.isDelegate ty = (ty.isPlain && s.knows ty.base) := rfl
  refine (bind_ok rfl).trans ?_
  rw [CType.readPointer, ← hd]
  cases s.isDelegate ty <;> rfl

theorem leads_readFirst {ctype : CType} {rules : LowerM TypeRef} {rest : Registry → TypeRef}
    (h : s.WellTyped) (hr : rules.Leads s fun ref t => ref = rest t) :
    (resolveFirst .none hint ctype rules).Leads s fun ref t =>
      ref = CType.readFirst s.knows hint (rest t) := by
  unfold CType.readFirst LowerM.Leads
  cases hk : hint.filter s.knows with
  | some n =>
    rw [resolveFirst_known (by rw [bind_delegate?, hk]; rfl)]
    exact ⟨.refl h, rfl⟩
  | none =>
    rw [resolveFirst_eq (delegate?_eq_none hk)]
    exact hr

theorem leads_named_eq (h : s.WellTyped) (kind : NamelessKind) (name : Option String) :
    (named kind name).Leads s fun ref _ => ref = .plain (name.getD "") := by
  cases name with
  | none => exact .throw h _
  | some n => exact .pure h rfl

/-- **What resolution answers** is read off the type and the delegates that there are before and
after. -/
theorem leads_reading : ∀ (ty : CType) (hint : Option String) (inStruct : Bool) {s : Registry},
    s.WellTyped → (resolve .none hint inStruct ty).Leads s fun ref t =>
      ref = ty.reading s.knows t.knows hint
  | .builtin b, hint, inStruct, s, h => by
    simp only [resolve, CType.reading]
    exact leads_readFirst h (.modifyGet (.mention h _) rfl)
  | .typedef name target, hint, inStruct, s, h => by
    simp only [resolve, CType.reading]
    refine leads_readFirst h ?_
    by_cases hs : name = "size_t"
    · simp only [if_pos hs]
      exact .modifyGet (.mention h _) rfl
    · simp only [if_neg hs]
      exact leads_reading target (some name) inStruct h
  | .array element (.constant length) _, hint, inStruct, s, h => by
    simp only [resolve, CType.reading]
    refine leads_readFirst h <|
      .bind ((leads_resolve element hint true h).and (leads_reading element hint true h))
        fun ty t hst hty => ?_
    obtain ⟨he, hty⟩ := hty
    obtain ⟨u, hu, htu, hk⟩ := fixedArrayOf_knows hst.wellTyped length he
    rw [LowerM.Leads, hu, hty]
    exact ⟨htu, by rw [hk]⟩
  | .array element .incomplete c, hint, inStruct, s, h
  | .array element .variable c, hint, inStruct, s, h => by
    simp only [resolve, CType.reading]
    exact leads_readFirst h <| .bind (leads_reading element hint inStruct h)
      fun _ _ hst hty => .pure hst.wellTyped (congrArg _ hty)
  | .record decl, hint, inStruct, s, h => by
    simp only [resolve, CType.reading]
    exact leads_readFirst h <| .bind (leads_makeStruct decl hint h) fun name _ hst hn =>
      hn.1 ▸ leads_named_eq hst.wellTyped _ name
  | .enum decl, hint, inStruct, s, h => by
    simp only [resolve, CType.reading]
    exact leads_readFirst h <| .bind (leads_makeEnum h hint decl) fun name _ hst hn =>
      hn.1 ▸ leads_named_eq hst.wellTyped _ name
  | .pointer pointee c, hint, inStruct, s, h => by
    simp only [resolve, CType.reading]
    refine leads_readFirst h <| .bind (leads_reading pointee hint inStruct h)
      fun ty t hst hty => ?_
    rw [LowerM.Leads, pointerTo_eq, hty]
    exact ⟨.refl hst.wellTyped, rfl⟩
  | .function ty, hint, inStruct, s, h => by
    cases hint with
    | none =>
      simp only [resolve, CType.reading]
      exact leads_readFirst h (.throw h _)
    | some name =>
      simp only [resolve, CType.reading]
      exact leads_readFirst h ((leads_makeDelegate ty name inStruct h).mono fun _ _ _ hn => hn.1)
  | .unsupported spelling, hint, inStruct, s, h => by
    simp only [resolve, CType.reading]
    exact leads_readFirst h (.throw h _)

end Bindery
