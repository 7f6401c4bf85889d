import Bindery.Proofs.Lowering.Reached
import Bindery.Proofs.Lowering.Reading

/-!
# Resolving again

A type that has been resolved once is resolved again in every later registry, and no delegate is
added then: what the first time registered is there, and what it could not register, because the
name is refused, is refused again (`succeeds_resolve`). With the reading of types this settles what
a second resolution answers (`Lowerer.Reached.resolve_again`).
-/

namespace Bindery

open Registry

variable {α β : Type} {s t u : Registry} {m : LowerM α} {f : α → LowerM β}
  {P : α → Registry → Prop} {Q : β → Registry → Prop}

/-- Started in `u` the step succeeds and adds no delegate, and its answer is as `post` says. -/
def LowerM.Succeeds (m : LowerM α) (u : Registry) (post : α → Registry → Prop) : Prop :=
  ∃ a u', m u = .ok a u' ∧ u.Advances u' ∧ u'.knows = u.knows ∧ post a u'

namespace LowerM.Succeeds

theorem of_eq {a : α} (hm : m u = .ok a u) (h : u.WellTyped) (ha : P a u) : m.Succeeds u P :=
  ⟨a, u, hm, .refl h, rfl, ha⟩

theorem pure {a : α} (h : u.WellTyped) (ha : P a u) : Succeeds (Pure.pure a) u P := of_eq rfl h ha

theorem bind (hm : m.Succeeds u P) (hf : ∀ a v, u.Advances v → P a v → (f a).Succeeds v Q) :
    (m >>= f).Succeeds u Q := by
  obtain ⟨a, v, hv, huv, hk, ha⟩ := hm
  obtain ⟨b, w, hw, hvw, hk', hb⟩ := hf a v huv ha
  exact ⟨b, w, (bind_ok hv).trans hw, huv.trans hvw, hk'.trans hk, hb⟩

/-- A step that leaves the registry as it is. -/
theorem modifyGet {g : Registry → α × Registry} {a : α} (hg : g u = (a, u)) (h : u.WellTyped)
    (ha : P a u) : Succeeds (MonadState.modifyGet g) u P := by
  refine of_eq (a := a) ?_ h ha
  change EStateM.Result.ok (g u).1 (g u).2 = _
  rw [hg]

theorem get_bind {g : Registry → LowerM α} (h : (g u).Succeeds u P) : Succeeds (get >>= g) u P := h

theorem and_leads {P' : α → Registry → Prop} (h : m.Succeeds u P) (h' : m.Leads u P') :
    m.Succeeds u fun a v => P a v ∧ P' a v := by
  obtain ⟨a, v, hv, huv, hk, ha⟩ := h
  exact ⟨a, v, hv, huv, hk, ha, (h'.of_ok hv).2⟩

theorem mention (h : u.WellTyped) (name : String) :
    (LowerM.mention name).Succeeds u fun _ v => v = u.mention name :=
  ⟨⟨⟩, _, rfl, .mention h name, rfl, rfl⟩

theorem primitive (h : u.WellTyped) (p : Primitive) :
    (LowerM.primitive p).Succeeds u fun _ _ => True :=
  ⟨_, _, rfl, .mention h _, rfl, trivial⟩

theorem decayed (h : u.WellTyped) (ty : TypeRef) :
    (Bindery.decayed ty).Succeeds u fun _ _ => True :=
  of_eq rfl h trivial

end LowerM.Succeeds

/-! ### Where the names are taken -/

theorem succeeds_makeEnum (h : u.WellTyped) (fallback : Option String) (decl : EnumDecl)
    (hn : ∀ n, declaredName? decl.name fallback = some n → u.Taken n) :
    (makeEnum fallback decl).Succeeds u fun name _ => name = declaredName? decl.name fallback := by
  unfold makeEnum
  cases hd : declaredName? decl.name fallback with
  | none => exact .pure h rfl
  | some name =>
    refine .bind (.mention h name) fun _ v huv hv => .get_bind ?_
    have ht : v.Taken name := (hn name hd).advance h huv
    rw [if_pos]
    · exact .pure huv.wellTyped rfl
    · rw [huv.wellTyped.consistent.lookup?_isSome, Bool.or_eq_true]
      exact ht

theorem structSlot_of_taken (h : u.Consistent) {name : String} (ht : u.Taken name) :
    u.structSlot name = (u.lookup? name, u) := by
  unfold structSlot
  cases hl : u.lookup? name with
  | some id => rfl
  | none =>
    exact (insert_of_taken (d := .structDef (.placeholder (.ofName name))) h ht).trans
      (congrArg (·, u) hl)

theorem beginStruct_of_declared {name : String} (hd : u.Declared name true)
    {id : DefId} (hl : u.lookup? name = some id) (isUnion : Bool) (doc : Doc) :
    u.beginStruct id isUnion doc = (false, u) := by
  unfold beginStruct
  split
  · next d hg => rw [if_pos (hd.filled rfl d (by rw [find?_eq_of_lookup? hl, hg]))]
  · rfl

theorem succeeds_makeStruct (h : u.WellTyped) (fallback : Option String) : ∀ (decl : RecordDecl),
    (∀ n, declaredName? decl.name fallback = some n → u.Declared n decl.isComplete) →
    (makeStruct .none fallback decl).Succeeds u fun name _ =>
      name = declaredName? decl.name fallback
  | ⟨tag, fields, isUnion, doc⟩, hn => by
    rw [makeStruct]
    dsimp only at hn ⊢
    cases hd : declaredName? tag fallback with
    | none => exact .pure h rfl
    | some name =>
      refine .bind (.mention h name) fun _ v huv _ => ?_
      have hv := huv.wellTyped
      have hdecl : v.Declared name fields.isSome := (hn name hd).advance h huv
      refine .bind (P := fun id w => id = v.lookup? name ∧ w = v)
        (.modifyGet (structSlot_of_taken hv.consistent hdecl.taken) hv ⟨rfl, rfl⟩)
        fun id w _ hw => ?_
      obtain ⟨rfl, rfl⟩ := hw
      cases hl : w.lookup? name with
      | none => exact .pure hv rfl
      | some id =>
        cases fields with
        | none => exact .pure hv rfl
        | some decls =>
          -- the first declaration filled the struct in, so its fields are not lowered again
          refine .bind (P := fun begun _ => begun = false)
            (.modifyGet (beginStruct_of_declared hdecl hl isUnion doc) hv rfl)
            fun begun x hwx hb => ?_
          rw [hb]
          exact .pure hwx.wellTyped rfl

theorem succeeds_named (h : u.WellTyped) (kind : NamelessKind) {name : Option String}
    (hn : name.isSome = true) : (named kind name).Succeeds u fun _ _ => True := by
  cases name with
  | none => cases hn
  | some n => exact .pure h trivial

theorem of_named_eq_ok {kind : NamelessKind} {name : Option String} {ref : TypeRef}
    (h : named kind name s = .ok ref t) : name.isSome = true ∧ s = t := by
  cases name with
  | none => cases h
  | some n => cases h; exact ⟨rfl, rfl⟩

/-! ### The second time -/

/-- What resolves resolves later too, if the rules do. -/
theorem succeeds_resolveFirst {hint : Option String} {ctype : CType} {rules : LowerM TypeRef}
    {ref : TypeRef} (hr : resolveFirst .none hint ctype rules s = .ok ref t) (hs : s.WellTyped)
    (hsu : s.Advances u) (h : rules s = .ok ref t → rules.Succeeds u fun _ _ => True) :
    (resolveFirst .none hint ctype rules).Succeeds u fun _ _ => True := by
  have hu := hsu.wellTyped
  cases hk : hint.filter u.knows with
  | some n => exact .of_eq (resolveFirst_known (by rw [bind_delegate?, hk]; rfl) _ _) hu trivial
  | none =>
    have hfirst : hint.filter s.knows = none := by
      rw [Option.filter_eq_none_iff] at hk ⊢
      exact fun n hn hb => hk n hn (knows_grow hsu.grows hs hu n hb)
    rw [resolveFirst_eq (delegate?_eq_none hfirst)] at hr
    obtain ⟨a, v, hv, hrest⟩ := h hr
    exact ⟨a, v, (resolveFirst_eq (delegate?_eq_none hk) _ _).trans hv, hrest⟩

/-- How a delegate whose name was free came to be registered. -/
theorem of_makeDelegate_eq_ok {returnType : CType} {params : List ParamDecl} {callConv : CallConv}
    {name : String} {embedded : Bool} {ref : TypeRef}
    (hr : makeDelegate .none name embedded ⟨returnType, params, callConv⟩ s = .ok ref t)
    (hl : s.lookup? name = none) :
    ∃ ret v ps w, resolve .none none false returnType (s.mention name) = .ok ret v ∧
      lowerParams .none name 0 params v = .ok ps w ∧ w.Grows t := by
  rw [makeDelegate] at hr
  obtain ⟨_, s₁, hm, hr₁⟩ := of_bind_eq_ok hr
  obtain ⟨_, _, hg, hr₂⟩ := of_bind_eq_ok hr₁
  cases hm
  cases hg
  have hl₁ : ((s.mention name).lookup? name).isNone = true := Option.isNone_iff_eq_none.mpr hl
  rw [if_pos hl₁] at hr₂
  obtain ⟨ret, v, hret, hr₃⟩ := of_bind_eq_ok hr₂
  obtain ⟨_, _, hd, hr₄⟩ := of_bind_eq_ok hr₃
  obtain ⟨ps, w, hps, hr₅⟩ := of_bind_eq_ok hr₄
  obtain ⟨_, _, hi, hp⟩ := of_bind_eq_ok hr₅
  cases hd
  cases hi
  cases hp
  exact ⟨ret, v, ps, w, hret, hps, .insert w _⟩

/-- How the first of several parameters came to be lowered. -/
theorem of_lowerParams_cons_eq_ok {name owner : String} {ty : CType} {doc : Doc}
    {decls : List ParamDecl} {i : Nat} {params : List Param}
    (hr : lowerParams .none owner i (⟨name, ty, doc⟩ :: decls) s = .ok params t) :
    ∃ ref v rest, resolve .none (some (paramName owner i name).2) false ty s = .ok ref v ∧
      lowerParams .none owner (i + 1) decls v = .ok rest t := by
  rw [lowerParams] at hr
  generalize paramName owner i name = p at hr ⊢
  obtain ⟨ref, v, hty, hr₁⟩ := of_bind_eq_ok hr
  obtain ⟨_, _, hd, hr₂⟩ := of_bind_eq_ok hr₁
  obtain ⟨rest, w, hrest, hp⟩ := of_bind_eq_ok hr₂
  cases hd
  cases hp
  exact ⟨ref, v, rest, hty, hrest⟩

mutual

/-- What has been resolved is resolved in every later registry, and adds no delegate there. -/
theorem succeeds_resolve : ∀ (ty : CType) (hint : Option String) (inStruct : Bool)
    {s t u : Registry} {ref : TypeRef}, s.WellTyped →
    resolve .none hint inStruct ty s = .ok ref t → t.Advances u →
    (resolve .none hint inStruct ty).Succeeds u fun _ _ => True
  | .builtin b, hint, inStruct, s, t, u, ref, hs, hr, htu => by
    have hsu := ((leads_resolve _ hint inStruct hs).of_ok hr).1.trans htu
    rw [resolve] at hr ⊢
    exact succeeds_resolveFirst hr hs hsu fun _ => .primitive htu.wellTyped _
  | .typedef name target, hint, inStruct, s, t, u, ref, hs, hr, htu => by
    have hsu := ((leads_resolve _ hint inStruct hs).of_ok hr).1.trans htu
    rw [resolve] at hr ⊢
    refine succeeds_resolveFirst hr hs hsu fun hr => ?_
    by_cases hn : name = "size_t"
    · rw [if_pos hn]
      exact .primitive htu.wellTyped _
    · rw [if_neg hn] at hr ⊢
      exact succeeds_resolve target (some name) inStruct hs hr htu
  | .array element (.constant length) _, hint, inStruct, s, t, u, ref, hs, hr, htu => by
    have hsu := ((leads_resolve _ hint inStruct hs).of_ok hr).1.trans htu
    rw [resolve] at hr ⊢
    refine succeeds_resolveFirst hr hs hsu fun hr => ?_
    obtain ⟨e, v, he, hv⟩ := of_bind_eq_ok hr
    obtain ⟨hsv, hst⟩ := (leads_resolve element hint true hs).of_ok he
    have hvt := ((leads_fixedArrayOf hsv.wellTyped length hst).of_ok hv).1
    refine .bind ((succeeds_resolve element hint true hs he (hvt.trans htu)).and_leads
      (leads_resolve element hint true htu.wellTyped)) fun e' w huw ⟨_, hst'⟩ => ?_
    obtain ⟨x, hx, hwx, hk⟩ := fixedArrayOf_knows huw.wellTyped length hst'
    exact ⟨_, x, hx, hwx, hk, trivial⟩
  | .array element .incomplete c, hint, inStruct, s, t, u, ref, hs, hr, htu
  | .array element .variable c, hint, inStruct, s, t, u, ref, hs, hr, htu => by
    have hsu := ((leads_resolve _ hint inStruct hs).of_ok hr).1.trans htu
    simp only [resolve] at hr ⊢
    refine succeeds_resolveFirst hr hs hsu fun hr => ?_
    obtain ⟨e, v, he, hv⟩ := of_bind_eq_ok hr
    cases hv
    exact .bind (succeeds_resolve element hint inStruct hs he htu)
      fun _ _ huw _ => .pure huw.wellTyped trivial
  | .record decl, hint, inStruct, s, t, u, ref, hs, hr, htu => by
    have hsu := ((leads_resolve _ hint inStruct hs).of_ok hr).1.trans htu
    rw [resolve] at hr ⊢
    refine succeeds_resolveFirst hr hs hsu fun hr => ?_
    obtain ⟨name, v, hm, hv⟩ := of_bind_eq_ok hr
    obtain ⟨hsome, rfl⟩ := of_named_eq_ok hv
    obtain ⟨hsv, hname, hdecl⟩ := (leads_makeStruct decl hint hs).of_ok hm
    refine .bind (succeeds_makeStruct htu.wellTyped hint decl fun n hn =>
      (hdecl n (hname.trans hn)).advance hsv.wellTyped htu) fun name' w huw hn' => ?_
    exact succeeds_named huw.wellTyped _ (by rwa [hn', ← hname])
  | .enum decl, hint, inStruct, s, t, u, ref, hs, hr, htu => by
    have hsu := ((leads_resolve _ hint inStruct hs).of_ok hr).1.trans htu
    rw [resolve] at hr ⊢
    refine succeeds_resolveFirst hr hs hsu fun hr => ?_
    obtain ⟨name, v, hm, hv⟩ := of_bind_eq_ok hr
    obtain ⟨hsome, rfl⟩ := of_named_eq_ok hv
    obtain ⟨hsv, hname, htaken⟩ := (leads_makeEnum hs hint decl).of_ok hm
    refine .bind (succeeds_makeEnum htu.wellTyped hint decl fun n hn =>
      (htaken n (hname.trans hn)).advance hsv.wellTyped htu) fun name' w huw hn' => ?_
    exact succeeds_named huw.wellTyped _ (by rwa [hn', ← hname])
  | .pointer pointee c, hint, inStruct, s, t, u, ref, hs, hr, htu => by
    have hsu := ((leads_resolve _ hint inStruct hs).of_ok hr).1.trans htu
    rw [resolve] at hr ⊢
    refine succeeds_resolveFirst hr hs hsu fun hr => ?_
    obtain ⟨e, v, he, hv⟩ := of_bind_eq_ok hr
    rw [pointerTo_eq] at hv
    cases hv
    exact .bind (succeeds_resolve pointee hint inStruct hs he htu)
      fun e' w huw _ => .of_eq (pointerTo_eq w c e') huw.wellTyped trivial
  | .function ty, none, inStruct, s, t, u, ref, hs, hr, htu => by
    have hsu := ((leads_resolve _ none inStruct hs).of_ok hr).1.trans htu
    rw [resolve] at hr ⊢
    exact succeeds_resolveFirst hr hs hsu nofun
  | .function ty, some name, inStruct, s, t, u, ref, hs, hr, htu => by
    have hsu := ((leads_resolve _ (some name) inStruct hs).of_ok hr).1.trans htu
    rw [resolve] at hr ⊢
    exact succeeds_resolveFirst hr hs hsu fun hr => succeeds_makeDelegate ty name inStruct hs hr htu
  | .unsupported spelling, hint, inStruct, s, t, u, ref, hs, hr, htu => by
    have hsu := ((leads_resolve _ hint inStruct hs).of_ok hr).1.trans htu
    rw [resolve] at hr ⊢
    exact succeeds_resolveFirst hr hs hsu nofun

theorem succeeds_makeDelegate : ∀ (ty : FunctionType) (name : String) (embedded : Bool)
    {s t u : Registry} {ref : TypeRef}, s.WellTyped →
    makeDelegate .none name embedded ty s = .ok ref t → t.Advances u →
    (makeDelegate .none name embedded ty).Succeeds u fun _ _ => True
  | ⟨returnType, params, callConv⟩, name, embedded, s, t, u, ref, hs, hr, htu => by
    obtain ⟨hst, -, htaken⟩ :=
      (leads_makeDelegate ⟨returnType, params, callConv⟩ name embedded hs).of_ok hr
    rw [makeDelegate]
    refine .bind (.mention htu.wellTyped name) fun _ u₁ huu₁ _ => .get_bind ?_
    have htu₁ := htu.trans huu₁
    dsimp only
    split
    · next hl =>
      -- the name was free the first time too, since names are never given up
      have hfree : s.lookup? name = none := by
        rw [Option.isNone_iff_eq_none, ← Option.not_isSome_iff_eq_none] at hl
        rw [← Option.not_isSome_iff_eq_none]
        exact fun hl₁ => hl <| (hst.trans htu₁).grows.lookup?_isSome hs.consistent
          htu₁.wellTyped.consistent hl₁
      obtain ⟨ret, v, ps, w, hret, hps, hwt⟩ := of_makeDelegate_eq_ok hr hfree
      have hs₁ := (Advances.mention hs name).wellTyped
      obtain ⟨hsv, -⟩ := (leads_resolve returnType none false hs₁).of_ok hret
      obtain ⟨hvw, -⟩ := (leads_lowerParams params name 0 hsv.wellTyped).of_ok hps
      have hwu : w.Advances u₁ := ⟨htu₁.wellTyped, hwt.trans htu₁.grows⟩
      refine .bind (succeeds_resolve returnType none false hs₁ hret (hvw.trans hwu))
        fun ret u₂ h₂ _ => ?_
      refine .bind (.decayed h₂.wellTyped ret) fun ret u₃ h₃ _ => ?_
      refine .bind (succeeds_lowerParams params name 0 hsv.wellTyped hps
        (hwu.trans (h₂.trans h₃))) fun ps u₄ h₄ _ => ?_
      have htu₄ := htu₁.trans (h₂.trans (h₃.trans h₄))
      -- it is refused, or there would have been a slot
      exact .bind (P := fun _ _ => True) (.modifyGet (insert_of_taken h₄.wellTyped.consistent
        (htaken.advance hst.wellTyped htu₄)) h₄.wellTyped trivial)
        fun _ u₅ h₅ _ => .pure h₅.wellTyped trivial
    · exact .pure huu₁.wellTyped trivial

theorem succeeds_lowerParams : ∀ (decls : List ParamDecl) (owner : String) (i : Nat)
    {s t u : Registry} {params : List Param}, s.WellTyped →
    lowerParams .none owner i decls s = .ok params t → t.Advances u →
    (lowerParams .none owner i decls).Succeeds u fun _ _ => True
  | [], owner, i, s, t, u, params, hs, hr, htu => by
    rw [lowerParams]
    exact .pure htu.wellTyped trivial
  | ⟨name, ty, doc⟩ :: decls, owner, i, s, t, u, params, hs, hr, htu => by
    obtain ⟨ref, v, rest, hty, hrest⟩ := of_lowerParams_cons_eq_ok hr
    obtain ⟨hsv, -⟩ := (leads_resolve ty _ false hs).of_ok hty
    obtain ⟨hvt, -⟩ := (leads_lowerParams decls owner (i + 1) hsv.wellTyped).of_ok hrest
    rw [lowerParams]
    refine .bind (succeeds_resolve ty _ false hs hty (hvt.trans htu)) fun ref x hux _ => ?_
    refine .bind (.decayed hux.wellTyped ref) fun ref y hxy _ => ?_
    exact .bind (succeeds_lowerParams decls owner (i + 1) hsv.wellTyped hrest
      (htu.trans (hux.trans hxy))) fun rest z hyz _ => .pure hyz.wellTyped trivial

end

/-- What has been resolved is resolved again, and read with the delegates that are there now. -/
theorem resolve_eq_reading {hint : Option String} {inStruct : Bool} {ty : CType} {ref : TypeRef}
    (hs : s.WellTyped) (hr : resolve .none hint inStruct ty s = .ok ref t) :
    ∃ ref' u, resolve .none hint inStruct ty t = .ok ref' u ∧ u.knows = t.knows ∧
      ref' = ty.reading t.knows t.knows hint := by
  have ht := ((leads_resolve ty hint inStruct hs).of_ok hr).1.wellTyped
  obtain ⟨ref', u, hu, -, hk, -⟩ := succeeds_resolve ty hint inStruct hs hr (.refl ht)
  have hread := ((leads_reading ty hint inStruct ht).of_ok hu).2
  exact ⟨ref', u, hu, hk, by rwa [hk] at hread⟩

namespace Lowerer

variable {l : Lowerer} {r : Registry} {hint : Option String} {inStruct : Bool} {ty : CType}
  {ref : TypeRef}

/-- **Resolving again.** What has been resolved is resolved again afterwards, and the answer is the
same just when the type is steady under the delegates that have come. A third resolution answers as
the second did. -/
theorem Reached.resolve_again (h : l.Reached)
    (hr : Bindery.resolve l.override hint inStruct ty l.registry = .ok ref r) :
    ∃ ref' r', Bindery.resolve l.override hint inStruct ty r = .ok ref' r' ∧
      (ref' = ref ↔ ty.steady l.registry.knows r.knows hint = true) ∧
      ∃ r'', Bindery.resolve l.override hint inStruct ty r' = .ok ref' r'' := by
  rw [h.sound.override] at hr ⊢
  obtain ⟨hlr, hfirst⟩ := (leads_reading ty hint inStruct h.wellTyped).of_ok hr
  obtain ⟨ref', r', hr', hk, hsecond⟩ := resolve_eq_reading h.wellTyped hr
  obtain ⟨ref'', r'', hr'', -, hthird⟩ := resolve_eq_reading hlr.wellTyped hr'
  rw [hk, ← hsecond] at hthird
  refine ⟨ref', r', hr', ?_, r'', hthird ▸ hr''⟩
  rw [hsecond, hfirst]
  exact CType.reading_eq_iff (knows_grow hlr.grows h.wellTyped hlr.wellTyped) ty hint

/-- A callback that takes a struct and an array. -/
def loggerCallback (name : String) : CType :=
  .typedef name <| .pointer (.function ⟨.builtin .void,
    [⟨"logger", .pointer (.record ⟨some "logger", some [⟨"id", .builtin .int, none, .none, none⟩],
        false, .none⟩) false, .none⟩,
      ⟨"levels", .array (.builtin .int) (.constant 4) false, .none⟩], .c⟩) false

/-- The typedef of a callback is its delegate, the first time and later. -/
theorem resolve_again_loggerCallback :
    new.Reached ∧ ∃ ref r,
      resolve new.override none false (loggerCallback "log") new.registry = .ok ref r ∧
      ref = .plain "log" ∧ (loggerCallback "log").steady new.registry.knows r.knows none = true ∧
      ∃ ref' r', resolve new.override none false (loggerCallback "log") r = .ok ref' r' ∧
        (ref' = ref ↔ (loggerCallback "log").steady new.registry.knows r.knows none = true) ∧
        ∃ r'', resolve new.override none false (loggerCallback "log") r' = .ok ref' r'' := by
  obtain ⟨ref, r, hr, href, hs⟩ : ∃ ref r,
      resolve new.override none false (loggerCallback "log") new.registry = .ok ref r ∧
      ref = .plain "log" ∧ (loggerCallback "log").steady new.registry.knows r.knows none = true :=
    ⟨_, _, rfl, rfl, rfl⟩
  exact ⟨.new, ref, r, hr, href, hs, Reached.new.resolve_again hr⟩

/-- Four callbacks under one name. -/
def fourCallbacks (name : String) : CType :=
  .typedef name <|
    .array (.pointer (.function ⟨.builtin .void, [], .c⟩) false) (.constant 4) false

/-- Four callbacks are an array at first, and then they are taken for one callback. -/
theorem resolve_fourCallbacks_twice :
    new.Reached ∧ ∃ r r',
      resolve new.override none true (fourCallbacks "handlers") new.registry =
        .ok (.plain "handlers_array4") r ∧
      resolve new.override none true (fourCallbacks "handlers") r = .ok (.plain "handlers") r' :=
  ⟨.new, _, _, rfl, rfl⟩

end Lowerer

end Bindery
