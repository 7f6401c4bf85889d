import Bindery.Proofs.Lowering.Sighting
import Bindery.Proofs.Lowering.WellTyped

/-!
# Accounting for a registry by what was seen

`Registry.Keeps` says what becomes of the definitions that are there: nothing, except that a struct
that waits for its fields may get them. `Registry.Accounts` says where the rest comes from: what is
new under a name is made by the first sighting of the name, and what is newly complete is filled by
the first complete record of the name. Both are transitive, so they hold of a run because they hold
of its steps (`Accounts.trans`): a name that was seen is taken for good, so what is new later was
not seen before.
-/

namespace Bindery

/-! ### What becomes of a definition -/

/-- A definition stays what it is, or a struct that waits for its fields gets them. -/
inductive Definition.Completes : Definition → Definition → Prop where
  | refl (d : Definition) : Completes d d
  | fill {d d' : StructDef} (hl : d'.label = { d.label with doc := d'.label.doc })
      (ha : d'.attributes = d.attributes) (hc : d.complete = false) (hc' : d'.complete = true) :
      Completes (structDef d) (structDef d')

namespace Definition.Completes

variable {d d' d'' : Definition}

theorem trans (h : Completes d d') (h' : Completes d' d'') : Completes d d'' := by
  cases h with
  | refl => exact h'
  | fill hl ha hc hc' =>
    cases h' with
    | refl => exact .fill hl ha hc hc'
    | fill hl' ha' _ hc'' => exact .fill (by rw [hl', hl]) (ha'.trans ha) hc hc''

theorem eq_of_complete {d : StructDef} (h : Completes (structDef d) d') (hc : d.complete = true) :
    d' = structDef d := by
  cases h with
  | refl => rfl
  | fill _ _ hc' => rw [hc] at hc'; cases hc'

/-- Only a struct becomes a struct. -/
theorem of_structDef {d' : StructDef} (h : Completes d (structDef d')) : ∃ e, d = structDef e := by
  cases h with
  | refl => exact ⟨d', rfl⟩
  | fill => exact ⟨_, rfl⟩

theorem kind_eq (h : Completes d d') : d'.kind = d.kind := by
  cases h <;> rfl

end Definition.Completes

/-- Nothing is left to classify: the macro has no type, or it is written in host syntax. -/
def MacroDef.Settled (m : MacroDef) : Prop :=
  m.ty = none ∨ m.expr = none ∨ m.hostText.isSome = true

/-- A macro is classified and a function belongs to the library that exports it. -/
def Definition.Settled (x : ExportMap) : Definition → Prop
  | macroDef m => m.Settled
  | functionDef f => x.get? f.label.name = some ⟨f.library, f.libraryIsConst⟩
  | _ => True

theorem Definition.Completes.settled {x : ExportMap} {d d' : Definition} (h : d.Completes d')
    (hd : d.Settled x) : d'.Settled x := by
  cases h with
  | refl => exact hd
  | fill => trivial

/-! ### What a declaration makes -/

/-- The signature is what the return type and the parameters of `owner` become between the
registries `s` and `t`. -/
structure Signature.LoweredFrom (owner : String) (returnType : CType) (params : List ParamDecl)
    (callConv : CallConv) (s t : Registry) (sig : Signature) : Prop where
  types : ∃ u v w, s.Advances u ∧
    resolveInSignature .none none returnType u = .ok sig.returnType v ∧
    lowerParams .none owner 0 params v = .ok sig.params w ∧ w.Advances t
  callingConvention : sig.callingConvention = callConv.toHost
  returnAttributes : sig.returnAttributes = []

/-- The struct `d` is what the complete record makes of it between the registries `s` and `t`: it
has the flag and the documentation of the record, and its fields are lowered while the struct is
there and counts as complete. -/
structure RecordDecl.Fills (decl : RecordDecl) (name : String) (s t : Registry) (d : StructDef) :
    Prop where
  isUnion : d.isUnion = decl.isUnion
  doc : d.label.doc = decl.doc
  fields : ∃ decls u v d₀, decl.fields = some decls ∧ s.Advances u ∧
    u.find? name = some (.structDef d₀) ∧ d₀.complete = true ∧ d = { d₀ with fields := d.fields } ∧
    lowerFields .none name .empty decls u = .ok d.fields v ∧ v.Advances t

/-- The definition is the one that is registered, between `s` and `t`, for what was seen. Of a
record only a struct is asked; what fills it may come later. -/
def Sighting.Makes (s t : Registry) : Sighting → Definition → Prop
  | macroDef decl, d => ∃ env m, d = .macroDef m ∧
      { m with constant := false, hostText := none } = MacroDef.ofDecl env decl
  | enum name decl, d => ∃ underlying, integerUnderlying? decl.underlying = some underlying ∧
      d = .enumDef (.ofDecl name underlying decl)
  | record _ _, d => ∃ e, d = .structDef e
  | callback name ty embedded, d => ∃ sig, d = .delegateDef ⟨.ofName name, sig, embedded⟩ ∧
      sig.LoweredFrom name ty.returnType ty.params ty.callConv s t
  | array element length, d => ∃ elementIsPrimitive, d = .fixedArray
      ⟨.ofName (fixedArrayName element length), element, length, elementIsPrimitive⟩
  | function decl e, d => ∃ sig, d = .functionDef ⟨{ Label.ofName decl.name with doc := decl.doc },
        sig, e.library, e.libraryIsConst, decl.deprecation⟩ ∧
      sig.LoweredFrom decl.name decl.returnType decl.params decl.callConv s t

variable {r s t u s' t' : Registry} {n : String} {d d' : Definition} {e : Sighting}

theorem Signature.LoweredFrom.widen {owner : String} {returnType : CType} {params : List ParamDecl}
    {callConv : CallConv} {sig : Signature}
    (h : sig.LoweredFrom owner returnType params callConv s t) (hs : s'.Advances s)
    (ht : t.Advances t') : sig.LoweredFrom owner returnType params callConv s' t' := by
  obtain ⟨u, v, w, hsu, hret, hparams, hwt⟩ := h.types
  exact ⟨⟨u, v, w, hs.trans hsu, hret, hparams, hwt.trans ht⟩, h.callingConvention,
    h.returnAttributes⟩

theorem RecordDecl.Fills.widen {decl : RecordDecl} {d : StructDef} (h : decl.Fills n s t d)
    (hs : s'.Advances s) (ht : t.Advances t') : decl.Fills n s' t' d := by
  obtain ⟨decls, u, v, d₀, hd, hsu, hu⟩ := h.fields
  obtain ⟨hf, hc, he, hl, hvt⟩ := hu
  exact ⟨h.isUnion, h.doc, decls, u, v, d₀, hd, hs.trans hsu, hf, hc, he, hl, hvt.trans ht⟩

namespace Sighting.Makes

theorem kind_eq (h : e.Makes s t d) : d.kind = e.kind := by
  cases e with
  | macroDef => obtain ⟨_, _, rfl, -⟩ := h; rfl
  | enum => obtain ⟨_, -, rfl⟩ := h; rfl
  | record => obtain ⟨_, rfl⟩ := h; rfl
  | callback => obtain ⟨_, rfl, -⟩ := h; rfl
  | array => obtain ⟨_, rfl⟩ := h; rfl
  | function => obtain ⟨_, rfl, -⟩ := h; rfl

theorem widen (h : e.Makes s t d) (hs : s'.Advances s) (ht : t.Advances t') :
    e.Makes s' t' d := by
  cases e with
  | callback | function =>
    obtain ⟨sig, hd, hsig⟩ := h
    exact ⟨sig, hd, hsig.widen hs ht⟩
  | _ => exact h

theorem completes (h : e.Makes s t d) (hd : d.Completes d') : e.Makes s t d' := by
  cases hd with
  | refl => exact h
  | fill =>
    cases e with
    | record => exact ⟨_, rfl⟩
    | _ => cases h.kind_eq

end Sighting.Makes

/-! ### What is there before and after -/

namespace Registry

def Settled (x : ExportMap) (r : Registry) : Prop := ∀ n d, r.find? n = some d → d.Settled x

/-- Every definition that was there is found under its name afterwards, and nothing has become of it
but that a struct was filled in. -/
structure Keeps (s t : Registry) : Prop where
  advances : s.Advances t
  completes : ∀ {n d}, s.find? n = some d → ∃ d', t.find? n = some d' ∧ d.Completes d'

/-- What was there is kept, and what is new is settled if that was. -/
structure Carries (x : ExportMap) (s t : Registry) : Prop extends s.Keeps t where
  settled : s.Settled x → t.Settled x

/-- No complete struct is called `n`. -/
def Awaits (r : Registry) (n : String) : Prop :=
  ∀ d, r.find? n = some (.structDef d) → d.complete = false

/-- The sightings account for what the registry `t` has more than `s`. -/
structure Accounts (s : Registry) (log : List Sighting) (t : Registry) : Prop where
  /-- Whatever was seen has its name taken, and a complete record fills the struct, if it is one. -/
  seen : ∀ e ∈ log, t.Declared e.name e.isComplete
  /-- What is new is made by the first sighting of its name. -/
  made : ∀ {n d}, s.find? n = none → t.find? n = some d →
    ∃ e, firstNamed n log = some e ∧ e.Makes s t d
  /-- What is newly complete is filled by the first complete record of its name. -/
  filled : ∀ {n d}, t.find? n = some (.structDef d) → d.complete = true →
    s.find? n = some (.structDef d) ∨
      (s.Awaits n ∧ ∃ decl, firstBody n log = some decl ∧ decl.Fills n s t d)

theorem find?_empty (n : String) : empty.find? n = none := rfl

theorem Settled.empty (x : ExportMap) : Registry.empty.Settled x := by
  intro n d hd
  rw [find?_empty] at hd
  cases hd

/-- A taken name that is not refused is registered. -/
theorem Taken.find? (h : t.Taken n) (hs : t.isSuppressed n = false) : ∃ d, t.find? n = some d := by
  rcases h with hf | hr
  · exact Option.isSome_iff_exists.mp hf
  · rw [hs] at hr
    cases hr

theorem Declared.of_taken (h : t.Taken n) : t.Declared n false := ⟨h, nofun⟩

theorem Consistent.isSuppressed_of_find? (h : r.Consistent) (hf : r.find? n = some d) :
    r.isSuppressed n = false := by
  obtain ⟨id, hd, rfl⟩ := h.find?_eq_some_iff.mp hf
  exact h.not_suppressed hd

namespace Keeps

theorem refl (h : s.WellTyped) : s.Keeps s := ⟨.refl h, fun hd => ⟨_, hd, .refl _⟩⟩

theorem trans (h : s.Keeps t) (h' : t.Keeps u) : s.Keeps u := by
  refine ⟨h.advances.trans h'.advances, fun hd => ?_⟩
  obtain ⟨d', hd', hc⟩ := h.completes hd
  obtain ⟨d'', hd'', hc'⟩ := h'.completes hd'
  exact ⟨d'', hd'', hc.trans hc'⟩

theorem find?_of_complete {d : StructDef} (h : s.Keeps t) (hf : s.find? n = some (.structDef d))
    (hc : d.complete = true) : t.find? n = some (.structDef d) := by
  obtain ⟨d', hf', hd⟩ := h.completes hf
  rw [hf', hd.eq_of_complete hc]

theorem awaits (h : s.Keeps t) (ht : t.Awaits n) : s.Awaits n := by
  intro d hf
  cases hc : d.complete with
  | false => rfl
  | true => exact hc ▸ ht d (h.find?_of_complete hf hc)

end Keeps

theorem Carries.refl {x : ExportMap} (h : s.WellTyped) : s.Carries x s := ⟨.refl h, id⟩

theorem Carries.trans {x : ExportMap} (h : s.Carries x t) (h' : t.Carries x u) : s.Carries x u :=
  ⟨h.toKeeps.trans h'.toKeeps, h'.settled ∘ h.settled⟩

/-- A struct under the name may take the place of what was carried there, if it completes what
there was before. -/
theorem Carries.of_structDef {x : ExportMap} {d : StructDef} (h : s.Carries x t)
    (ha : t.Advances u) (hu : ∀ m, u.find? m = if m = n then some (.structDef d) else t.find? m)
    (hd : ∀ {d₀}, s.find? n = some d₀ → d₀.Completes (.structDef d)) : s.Carries x u := by
  refine ⟨⟨h.advances.trans ha, fun {m d₀} hm => ?_⟩, fun hs m d' hm => ?_⟩
  · rw [hu]
    split
    · next he => exact ⟨_, rfl, hd (he ▸ hm)⟩
    · exact h.completes hm
  · rw [hu] at hm
    split at hm
    · cases hm
      trivial
    · exact h.settled hs m d' hm

end Registry

namespace Registry.Accounts

variable {l₁ l₂ : List Sighting}

/-- A name that was free before and is registered now was not seen before. -/
theorem firstNamed_eq_none (h : s.Accounts l₁ t) (ha : t.Advances u) (ht : t.find? n = none)
    (hu : u.find? n = some d) : firstNamed n l₁ = none := by
  rw [← Option.not_isSome_iff_eq_none, Option.isSome_iff_exists]
  rintro ⟨e, he⟩
  obtain ⟨hm, rfl⟩ := firstNamed_eq_some he
  have hs := ha.wellTyped.consistent.isSuppressed_of_find? hu
  rw [ha.grows.isSuppressed] at hs
  obtain ⟨d', hd'⟩ := (h.seen e hm).taken.find? hs
  cases ht.symm.trans hd'

/-- While a struct waits for its fields, no complete record of its name has been seen. -/
theorem firstBody_eq_none (h : s.Accounts l₁ t) (hk : t.Keeps u) (ht : t.Awaits n)
    {d : StructDef} (hu : u.find? n = some (.structDef d)) : firstBody n l₁ = none := by
  rw [← Option.not_isSome_iff_eq_none, Option.isSome_iff_exists]
  rintro ⟨decl, hb⟩
  obtain ⟨hm, hc⟩ := firstBody_eq_some hb
  have hdecl : t.Declared n decl.isComplete := h.seen _ hm
  have hs := hk.advances.wellTyped.consistent.isSuppressed_of_find? hu
  rw [hk.advances.grows.isSuppressed] at hs
  obtain ⟨d', hd'⟩ := hdecl.taken.find? hs
  obtain ⟨d'', hd'', hcomp⟩ := hk.completes hd'
  cases hu.symm.trans hd''
  obtain ⟨d₀, rfl⟩ := hcomp.of_structDef
  have := hdecl.filled hc d₀ hd'
  rw [ht d₀ hd'] at this
  cases this

theorem trans (hs : s.WellTyped) (hst : s.Keeps t) (htu : t.Keeps u) (h₁ : s.Accounts l₁ t)
    (h₂ : t.Accounts l₂ u) : s.Accounts (l₁ ++ l₂) u := by
  refine ⟨fun e he => ?_, fun {n d} hn hd => ?_, fun {n d} hd hc => ?_⟩
  · rcases List.mem_append.mp he with he | he
    · exact (h₁.seen e he).grow htu.advances.grows hst.advances.wellTyped.consistent
        htu.advances.wellTyped.consistent
    · exact h₂.seen e he
  · rw [firstNamed_append]
    cases ht : t.find? n with
    | none =>
      obtain ⟨e, he, hm⟩ := h₂.made ht hd
      rw [h₁.firstNamed_eq_none htu.advances ht hd]
      exact ⟨e, he, hm.widen hst.advances (.refl htu.advances.wellTyped)⟩
    | some d₀ =>
      -- the second part can only have completed it
      obtain ⟨e, he, hm⟩ := h₁.made hn ht
      obtain ⟨d', hd', hcomp⟩ := htu.completes ht
      cases hd.symm.trans hd'
      rw [he]
      exact ⟨e, rfl, (hm.completes hcomp).widen (.refl hs) htu.advances⟩
  · rw [firstBody_append]
    rcases h₂.filled hd hc with ht | ⟨ht, decl, hb, hfill⟩
    · rcases h₁.filled ht hc with hs' | ⟨ha, decl, hb, hfill⟩
      · exact .inl hs'
      · rw [hb]
        exact .inr ⟨ha, decl, rfl, hfill.widen (.refl hs) htu.advances⟩
    · -- it still waited in between, so the first part has shown no fields
      rw [h₁.firstBody_eq_none htu ht hd]
      exact .inr ⟨hst.awaits ht, decl, hb,
        hfill.widen hst.advances (.refl htu.advances.wellTyped)⟩

end Registry.Accounts

end Bindery
