import Bindery.Proofs.Lowering.Again
import Bindery.Proofs.Lowering.Filling

/-!
# Data that is taken for a callback

No function type stands in a datum, so its resolution makes no delegate of it. But what it resolves
to goes by a name, and a delegate of that name may be there: the hint, which is asked before the
shape of the type, the name of a typedef on the way down, the host name of a primitive type or the
name of a fixed array. Hints are put together from owners and members, so an unrelated callback may
have the hint of an `int` (`Lowerer.resolve_int_eq_callback`). There is no other way
(`Lowerer.Reached.resolve_delegate_iff`); the tag of a struct or enum never becomes a delegate's.
-/

namespace Bindery

open Registry

namespace CType

/-- Behind typedefs, pointers and arrays there is no function type, and a record or enum has a tag
that is not `known` as a delegate's. -/
def isDatum (known : String → Bool) : CType → Bool
  | .builtin _ | .unsupported _ => true
  | .typedef _ ty | .pointer ty _ | .array ty _ _ => ty.isDatum known
  | .record decl => (declaredName? decl.name none).any fun tag => !known tag
  | .enum decl => (declaredName? decl.name none).any fun tag => !known tag
  | .function _ => false

/-- Whether a delegate has a name that resolution of the datum asks for: `before` are the delegates
that there are when it begins, `after` those when it ends. -/
def isCaptured (before after : String → Bool) (hint : Option String) (ty : CType) : Bool :=
  hint.any before ||
    match ty with
    | .builtin b => before b.primitive.name
    | .typedef name target =>
      if name = "size_t" then before Primitive.sizeT.name
      else target.isCaptured before after (some name)
    | .array element (.constant length) _ =>
      after (fixedArrayName (element.reading before after hint) length)
    | .array element _ _ => element.isCaptured before after hint
    | .pointer pointee _ => pointee.isCaptured before after hint
    | .record _ | .enum _ | .function _ | .unsupported _ => false

end CType

variable {α : Type} {x : ExportMap} {s t : Registry} {n : String} {hint : Option String}
  {m : LowerM α} {P Q : α → Registry → Prop} {log : List Sighting}

/-! ### Names that no delegate takes -/

/-- The tag of a datum is its name under every hint. -/
theorem declaredName?_of_any {tag : Option String}
    (h : (declaredName? tag none).any (fun name => !s.knows name) = true)
    (fallback : Option String) :
    ∃ n, declaredName? tag fallback = some n ∧ s.knows n = false := by
  cases tag with
  | none => cases h
  | some tag =>
    change (declaredName? (some tag) fallback).any _ = true at h
    cases hn : declaredName? (some tag) fallback with
    | none => rw [hn] at h; cases h
    | some n =>
      rw [hn, Option.any_some, Bool.not_eq_true'] at h
      exact ⟨n, rfl, h⟩

/-- A name does not become a delegate's, if something else is the first to be seen under it. -/
theorem Registry.Accounts.knows_eq_false (h : s.Accounts log t) (hk : s.Keeps t)
    (hn : s.knows n = false) (hfirst : ∀ e, firstNamed n log = some e → e.kind ≠ .delegateDef) :
    t.knows n = false := by
  rw [knows, kindOf?, beq_eq_false_iff_ne] at hn ⊢
  intro ht
  obtain ⟨d', hd', hkind⟩ := Option.map_eq_some_iff.mp ht
  cases hs : s.find? n with
  | some d =>
    -- it was there before, and it keeps its kind
    obtain ⟨d'', hd'', hc⟩ := hk.completes hs
    cases hd'.symm.trans hd''
    refine hn ?_
    rw [hs, Option.map_some, ← hc.kind_eq, hkind]
  | none =>
    obtain ⟨e, he, hm⟩ := h.made hs hd'
    exact hfirst e he (hm.kind_eq.symm.trans hkind)

theorem LowerM.Leads.of_run (h : m.Leads s P) (hq : ∀ a t, m s = .ok a t → P a t → Q a t) :
    m.Leads s Q := by
  unfold LowerM.Leads
  cases hm : m s with
  | error e t => exact h.of_error hm
  | ok a t =>
    obtain ⟨hst, ha⟩ := h.of_ok hm
    exact ⟨hst, hq a t hm ha⟩

theorem firstNamed_recordSightings {fallback : Option String} (decl : RecordDecl)
    (hn : declaredName? decl.name fallback = some n) (s : Registry) :
    firstNamed n (recordSightings fallback decl s) = some (.record n decl) := by
  obtain ⟨tag, fields, isUnion, doc⟩ := decl
  rw [recordSightings]
  dsimp only at hn ⊢
  rw [hn]
  exact List.find?_cons_of_pos (beq_self_eq_true n)

/-- The name of a record is not a delegate's afterwards, if it was none before. -/
theorem leads_makeStruct_knows (h : s.WellTyped) (decl : RecordDecl) {fallback : Option String}
    (hn : declaredName? decl.name fallback = some n) (hk : s.knows n = false) :
    (makeStruct .none fallback decl).Leads s fun name t =>
      name = some n ∧ t.knows n = false := by
  refine (leads_makeStruct decl fallback h).of_run fun name t hrun hname => ?_
  obtain ⟨hcarries, hlog⟩ := (logs_makeStruct (x := .empty) decl fallback h).of_ok hrun
  refine ⟨hname.1.trans hn, hlog.knows_eq_false hcarries.toKeeps hk fun e he => ?_⟩
  cases (firstNamed_recordSightings decl hn s).symm.trans he
  exact fun hk => by cases hk

/-- The name of an enum is not a delegate's afterwards, if it was none before. -/
theorem leads_makeEnum_knows (h : s.WellTyped) (decl : EnumDecl) {fallback : Option String}
    (hn : declaredName? decl.name fallback = some n) (hk : s.knows n = false) :
    (makeEnum fallback decl).Leads s fun name t => name = some n ∧ t.knows n = false := by
  refine (leads_makeEnum h fallback decl).of_run fun name t hrun hname => ?_
  obtain ⟨hcarries, hlog⟩ := (logs_makeEnum (x := .empty) h fallback decl).of_ok hrun
  refine ⟨hname.1.trans hn, hlog.knows_eq_false hcarries.toKeeps hk fun e he => ?_⟩
  have hfirst : firstNamed n (enumSightings fallback decl) = some (.enum n decl) := by
    simp [enumSightings, hn, firstNamed, Sighting.name]
  cases hfirst.symm.trans he
  exact fun hk => by cases hk

theorem leads_named_knows (h : s.WellTyped) (kind : NamelessKind) (hk : s.knows n = false) :
    (named kind (some n)).Leads s fun ref t => t.knows ref.base = false :=
  .pure h hk

/-! ### What a datum resolves to -/

/-- A hint that is a delegate's captures the type, whatever the rules say. -/
theorem leads_resolveFirst_knows {ctype : CType} {rules : LowerM TypeRef}
    {captured : Registry → Bool} (h : s.WellTyped)
    (hr : rules.Leads s fun ref t => t.knows ref.base = captured t) :
    (resolveFirst .none hint ctype rules).Leads s fun ref t =>
      t.knows ref.base = (hint.any s.knows || captured t) := by
  unfold LowerM.Leads
  cases hk : hint.filter s.knows with
  | some name =>
    obtain ⟨rfl, hname⟩ := Option.filter_eq_some_iff.mp hk
    rw [resolveFirst_known (by rw [bind_delegate?, hk]; rfl)]
    refine ⟨.refl h, ?_⟩
    change s.knows name = _
    rw [Option.any_some, hname, Bool.true_or]
  | none =>
    have hany : hint.any s.knows = false := by
      cases hint with
      | none => rfl
      | some name => simpa using Option.filter_eq_none_iff.mp hk name rfl
    have hrules : rules.Leads s fun ref t => t.knows ref.base = (false || captured t) :=
      hr.mono fun _ _ _ hc => by rw [hc, Bool.false_or]
    rw [resolveFirst_eq (delegate?_eq_none hk), hany]
    exact hrules

/-- **What a datum resolves to** is a delegate just when the datum is captured. -/
theorem leads_resolve_knows : ∀ (ty : CType) (hint : Option String) (inStruct : Bool)
    {s : Registry}, s.WellTyped → ty.isDatum s.knows = true →
    (resolve .none hint inStruct ty).Leads s fun ref t =>
      t.knows ref.base = ty.isCaptured s.knows t.knows hint
  | .builtin b, hint, inStruct, s, h, _ => by
    simp only [resolve, CType.isCaptured]
    exact leads_resolveFirst_knows h (.modifyGet (.mention h _) rfl)
  | .typedef name target, hint, inStruct, s, h, hd => by
    simp only [resolve, CType.isCaptured]
    refine leads_resolveFirst_knows h ?_
    by_cases hs : name = "size_t"
    · simp only [if_pos hs]
      exact .modifyGet (.mention h _) rfl
    · simp only [if_neg hs]
      rw [CType.isDatum] at hd
      exact leads_resolve_knows target (some name) inStruct h hd
  | .array element (.constant length) _, hint, inStruct, s, h, _ => by
    simp only [resolve, CType.isCaptured]
    refine leads_resolveFirst_knows h <|
      .bind ((leads_resolve element hint true h).and (leads_reading element hint true h))
        fun ty t hst hty => ?_
    obtain ⟨he, hty⟩ := hty
    obtain ⟨u, hu, htu, hk⟩ := fixedArrayOf_knows hst.wellTyped length he
    rw [LowerM.Leads, hu, hty]
    exact ⟨htu, by rw [hk]; rfl⟩
  | .array element .incomplete c, hint, inStruct, s, h, hd
  | .array element .variable c, hint, inStruct, s, h, hd => by
    simp only [resolve, CType.isCaptured]
    rw [CType.isDatum] at hd
    refine leads_resolveFirst_knows h <| .bind (leads_resolve_knows element hint inStruct h hd)
      fun _ _ hst hty => .pure hst.wellTyped ?_
    rw [base_openArrayOf, hty]
  | .record decl, hint, inStruct, s, h, hd => by
    simp only [resolve, CType.isCaptured]
    rw [CType.isDatum] at hd
    obtain ⟨n, htag, hk⟩ := declaredName?_of_any hd hint
    refine leads_resolveFirst_knows h <| .bind (leads_makeStruct_knows h decl htag hk)
      fun name t hst hn => ?_
    obtain ⟨rfl, hkt⟩ := hn
    exact leads_named_knows hst.wellTyped _ hkt
  | .enum decl, hint, inStruct, s, h, hd => by
    simp only [resolve, CType.isCaptured]
    rw [CType.isDatum] at hd
    obtain ⟨n, htag, hk⟩ := declaredName?_of_any hd hint
    refine leads_resolveFirst_knows h <| .bind (leads_makeEnum_knows h decl htag hk)
      fun name t hst hn => ?_
    obtain ⟨rfl, hkt⟩ := hn
    exact leads_named_knows hst.wellTyped _ hkt
  | .pointer pointee c, hint, inStruct, s, h, hd => by
    simp only [resolve, CType.isCaptured]
    rw [CType.isDatum] at hd
    refine leads_resolveFirst_knows h <| .bind (leads_resolve_knows pointee hint inStruct h hd)
      fun ty t hst hty => ?_
    rw [LowerM.Leads, pointerTo_eq]
    exact ⟨.refl hst.wellTyped, by rw [TypeRef.base_readPointer, hty]⟩
  | .function ty, hint, inStruct, s, h, hd => by
    rw [CType.isDatum] at hd
    cases hd
  | .unsupported spelling, hint, inStruct, s, h, _ => by
    simp only [resolve, CType.isCaptured]
    exact leads_resolveFirst_knows h (.throw h _)

namespace Lowerer

variable {l : Lowerer} {r : Registry} {inStruct : Bool} {ty : CType} {ref : TypeRef}

/-- **When a datum is taken for a callback.** In a lowerer that is reached, under any hint, a type
without function types whose records and enums have tags that are no delegates' resolves to a
delegate just when a delegate bears a name that it asks for: the hint, the name of a typedef, of a
primitive type or of a fixed array. -/
theorem Reached.resolve_delegate_iff (h : l.Reached)
    (hd : ty.isDatum l.registry.knows = true)
    (hr : Bindery.resolve l.override hint inStruct ty l.registry = .ok ref r) :
    r.kindOf? ref.base = some .delegateDef ↔
      ty.isCaptured l.registry.knows r.knows hint = true := by
  rw [h.sound.override] at hr
  obtain ⟨-, hk⟩ := (leads_resolve_knows ty hint inStruct h.wellTyped hd).of_ok hr
  rw [← hk, knows, beq_iff_eq]

/-- A header of a library that polls: `poll` takes a callback `on_event`. -/
def pollHeader : Header :=
  ⟨"poll.h", false, [], [], [], [],
    [⟨"poll", .builtin .void, [⟨"on_event", .pointer (.function ⟨.builtin .void, [], .c⟩) false,
      .none⟩], .c, false, none, .none⟩]⟩

/-- The lowerer that has seen the header and the exports of its library. -/
def afterPoll : Lowerer :=
  (new.addExports ["poll", "poll_on"] "native" true).after (process [pollHeader])

/-- Four events under one name, each known by its tag. -/
def fourEvents (name : String) : CType :=
  .typedef name <| .array (.pointer (.record ⟨some "event", none, false, .none⟩) false)
    (.constant 4) false

/-- Four events are an array where nothing is in their way. -/
theorem resolve_delegate_iff_fourEvents :
    let ty := fourEvents "events"
    afterPoll.Reached ∧ ty.isDatum afterPoll.registry.knows = true ∧ ∃ ref r,
      Bindery.resolve afterPoll.override (some "poll_on_all") false ty afterPoll.registry =
        .ok ref r ∧
      ref = .plain "event_ptrArray4" ∧
      ty.isCaptured afterPoll.registry.knows r.knows (some "poll_on_all") = false ∧
      (r.kindOf? ref.base = some .delegateDef ↔
        ty.isCaptured afterPoll.registry.knows r.knows (some "poll_on_all") = true) := by
  intro ty
  have h : afterPoll.Reached := .process (.addExports .new _ _ _) _
  have hd : ty.isDatum afterPoll.registry.knows = true := rfl
  obtain ⟨ref, r, hr, href, hc⟩ : ∃ ref r,
      Bindery.resolve afterPoll.override (some "poll_on_all") false ty afterPoll.registry =
        .ok ref r ∧ ref = .plain "event_ptrArray4" ∧
      ty.isCaptured afterPoll.registry.knows r.knows (some "poll_on_all") = false :=
    ⟨_, _, rfl, rfl, rfl⟩
  exact ⟨h, hd, ref, r, hr, href, hc, h.resolve_delegate_iff hd hr⟩

/-- The parameter `event` of `poll_on` is an `int`, and it is taken for the callback `on_event` of
`poll`. -/
theorem resolve_int_eq_callback :
    afterPoll.Reached ∧ (CType.builtin .int).isDatum afterPoll.registry.knows = true ∧
    (paramName "poll_on" 0 "event").2 = "poll_on_event" ∧ ∃ ref r,
      Bindery.resolve afterPoll.override (some "poll_on_event") false (.builtin .int)
        afterPoll.registry = .ok ref r ∧
      r.kindOf? ref.base = some .delegateDef := by
  refine ⟨.process (.addExports .new _ _ _) _, rfl, rfl, ?_⟩
  exact ⟨_, _, rfl, rfl⟩

end Lowerer

end Bindery
