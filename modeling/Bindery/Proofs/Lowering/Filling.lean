import Bindery.Proofs.Lowering.Logging

/-!
# Filling a struct

When a complete record meets a struct that waits for its fields, the struct is marked as complete,
the fields are lowered and then they are set. In between the struct is there like any other, so a
field that comes back to the record finds it complete and leaves it alone. `makeStruct_cases` says
once what lowering a record does, and `Waits` is the situation in which a struct gets its fields.
With that, the sightings of a type account for what its resolution registers (`logs_resolve`).
-/

namespace Bindery

open Registry

/-! ### What one operation finds -/

/-- The struct once its fields are being lowered. -/
def StructDef.begun (d : StructDef) (decl : RecordDecl) : StructDef :=
  { d with complete := true, isUnion := decl.isUnion, label := { d.label with doc := decl.doc } }

/-- The registry whose struct in the slot is begun. -/
def Registry.begun (s : Registry) (id : DefId) (d : StructDef) (decl : RecordDecl) : Registry :=
  s.modify id fun _ => .structDef (d.begun decl)

namespace Registry

variable {r s : Registry} {id : DefId} {d : Definition} {n name : String}

theorem Consistent.find?_modify (h : r.Consistent) (hl : r.lookup? name = some id)
    (f : Definition → Definition) (n : String) :
    (r.modify id f).find? n = if n = name then (r.find? n).map f else r.find? n := by
  cases hn : r.lookup? n with
  | none =>
    have hne : n ≠ name := fun he => by rw [he, hl] at hn; cases hn
    have hn' : (r.modify id f).lookup? n = none := hn
    rw [if_neg hne, Registry.find?, hn', Registry.find?, hn]
    rfl
  | some other =>
    have hn' : (r.modify id f).lookup? n = some other := hn
    rw [find?_eq_of_lookup? hn', find?_eq_of_lookup? hn, get?_modify]
    by_cases he : n = name
    · rw [he, hl] at hn
      cases hn
      rw [if_pos rfl, if_pos he]
    · rw [if_neg he, if_neg]
      rintro rfl
      -- a slot has one name only
      obtain ⟨d, hd, hdn⟩ := h.lookup?_iff.mp hn
      exact he (hdn.symm.trans (h.name_eq hd hl))

theorem Consistent.find?_structSlot (h : s.Consistent) (name n : String) :
    (s.structSlot name).2.find? n = (s.find? n).or
      (if n = name ∧ s.isSuppressed n = false
        then some (.structDef (.placeholder (.ofName name))) else none) := by
  unfold structSlot
  split
  · next id hl =>
    split
    · next he =>
      have hf : (s.find? n).isSome = true := by rw [← h.lookup?_isSome, he.1, hl]; rfl
      rw [Option.or_of_isSome hf]
    · rw [Option.or_none]
  · exact h.find?_insert _ n

/-- Either nothing is done, or a struct that waited for its fields is begun. -/
theorem beginStruct_cases (s : Registry) (id : DefId) (decl : RecordDecl) :
    s.beginStruct id decl.isUnion decl.doc = (false, s) ∨
    ∃ d : StructDef, s.get? id = some (.structDef d) ∧ d.complete = false ∧
      s.beginStruct id decl.isUnion decl.doc = (true, s.begun id d decl) := by
  unfold beginStruct
  split
  · next d hd =>
    cases hc : d.complete with
    | true => exact .inl rfl
    | false => exact .inr ⟨d, hd, hc, rfl⟩
  · exact .inl rfl

end Registry

variable {α β : Type} {x : ExportMap} {r s t : Registry} {log : List Sighting} {id : DefId}
  {n name : String}

theorem modifyGet_ok {g : Registry → α × Registry} {a : α} (h : g s = (a, t)) :
    (modifyGet g : LowerM α) s = .ok a t := by
  change EStateM.Result.ok (g s).1 (g s).2 = _
  rw [h]

/-- The registry in which the struct called `name` has a slot, if the name is not refused. -/
def Registry.slotted (s : Registry) (name : String) : Registry :=
  ((s.mention name).structSlot name).2

/-- A record is noted and nothing more, or it fills the struct of its name: the struct is begun, the
fields are lowered and, if that succeeds, set. -/
theorem makeStruct_cases {o : TypeOverride} {fallback : Option String} (decl : RecordDecl)
    (hn : declaredName? decl.name fallback = some name) (h : s.Consistent) :
    (makeStruct o fallback decl s = .ok (some name) (s.slotted name) ∧
      recordSightings fallback decl s = [.record name decl]) ∨
    ∃ id d, (s.slotted name).lookup? name = some id ∧
      (s.slotted name).get? id = some (.structDef d) ∧ d.complete = false ∧
      decl.isComplete = true ∧ ∀ decls, decl.fields = some decls →
      makeStruct o fallback decl s = (lowerFields o name .empty decls >>= fun fields => do
        modify fun r : Registry => r.setFields id fields
        return some name) ((s.slotted name).begun id d decl) ∧
      recordSightings fallback decl s =
        .record name decl ::
          fieldSightings name .empty decls ((s.slotted name).begun id d decl) := by
  obtain ⟨tag, fields, isUnion, doc⟩ := decl
  have hl := lookup?_structSlot (h.mention name) name
  rw [makeStruct, recordSightings, Registry.slotted]
  dsimp only at hn ⊢
  rw [hn]
  dsimp only
  generalize hslot : (s.mention name).structSlot name = p at hl
  obtain ⟨slot, t⟩ := p
  have hstart : ∀ {k : Option DefId → LowerM (Option String)}, (do
      LowerM.mention name
      let slot ← modifyGet fun r : Registry => r.structSlot name
      k slot) s = k slot t := (bind_ok rfl).trans (bind_ok (modifyGet_ok hslot))
  rw [hstart]
  cases slot with
  | none => exact .inl ⟨rfl, rfl⟩
  | some id =>
    cases fields with
    | none => exact .inl ⟨rfl, rfl⟩
    | some decls =>
      have hbegin : ∀ {b : Bool} {u : Registry}, t.beginStruct id isUnion doc = (b, u) →
          (modifyGet fun r : Registry => r.beginStruct id isUnion doc : LowerM Bool) t =
            .ok b u := fun hb => modifyGet_ok (g := fun r => r.beginStruct id isUnion doc) hb
      rcases beginStruct_cases t id ⟨tag, some decls, isUnion, doc⟩ with hb | ⟨d, hd, hc, hb⟩
      · refine .inl ⟨bind_ok (hbegin hb), ?_⟩
        dsimp only
        rw [hb]
        rfl
      · refine .inr ⟨id, d, hl, hd, hc, rfl, fun decls he => ?_⟩
        cases he
        refine ⟨bind_ok (hbegin hb), ?_⟩
        dsimp only
        rw [hb]
        rfl

/-! ### A struct that is filled in -/

/-- In `s` the struct called `name`, with the slot `id`, waits for the fields of `decl`, and since
`r` only the struct itself has come. -/
structure Registry.Waits (x : ExportMap) (r s : Registry) (name : String) (id : DefId)
    (d : StructDef) : Prop where
  carries : r.Carries x s
  others : ∀ n, n ≠ name → s.find? n = r.find? n
  lookup? : s.lookup? name = some id
  get? : s.get? id = some (.structDef d)
  incomplete : d.complete = false

namespace Registry.Waits

variable {d : StructDef} {decl : RecordDecl} {fields : List Field}

theorem consistent (h : Waits x r s name id d) : s.Consistent :=
  h.carries.advances.wellTyped.consistent

theorem find?_name (h : Waits x r s name id d) : s.find? name = some (.structDef d) := by
  rw [find?_eq_of_lookup? h.lookup?, h.get?]

theorem label_name (h : Waits x r s name id d) : d.label.name = name :=
  h.consistent.name_eq h.get? h.lookup?

theorem awaits (h : Waits x r s name id d) : r.Awaits name := by
  refine h.carries.awaits fun d' hd => ?_
  cases h.find?_name.symm.trans hd
  exact h.incomplete

theorem find?_begun (h : Waits x r s name id d) (decl : RecordDecl) (n : String) :
    (s.begun id d decl).find? n =
      if n = name then some (.structDef (d.begun decl)) else s.find? n := by
  rw [begun, h.consistent.find?_modify h.lookup?]
  split
  · next hn => rw [hn, h.find?_name]; rfl
  · rfl

/-- What was found under the name before is completed by the struct when it has its fields. -/
theorem completes (h : Waits x r s name id d) (decl : RecordDecl) (fields : List Field)
    {d₀ : Definition} (hd : r.find? name = some d₀) :
    d₀.Completes (.structDef { d.begun decl with fields }) := by
  obtain ⟨d', hd', hc⟩ := h.carries.completes hd
  cases h.find?_name.symm.trans hd'
  exact hc.trans (.fill rfl rfl h.incomplete rfl)

theorem carries_begun (h : Waits x r s name id d) (decl : RecordDecl) :
    r.Carries x (s.begun id d decl) := by
  have hs := h.carries.advances.wellTyped
  refine h.carries.of_structDef (.modify hs id fun d' hd => ?_) (h.find?_begun decl)
    (h.completes decl d.fields)
  cases h.get?.symm.trans hd
  exact ⟨.ofStruct rfl fun _ => rfl, (hs.admits h.get?).stands, nofun, nofun⟩

/-- The struct is there, complete and without its fields, when they have been lowered. -/
theorem find?_setFields (h : Waits x r s name id d)
    (hk : (s.begun id d decl).Carries x t) (fields : List Field)
    (n : String) : (t.setFields id fields).find? n =
      if n = name then some (.structDef { d.begun decl with fields }) else t.find? n := by
  have hbegun : (s.begun id d decl).find? name =
      some (.structDef (d.begun decl)) := by rw [h.find?_begun, if_pos rfl]
  have hname : t.find? name = some (.structDef (d.begun decl)) :=
    hk.find?_of_complete hbegun rfl
  have hid : (s.begun id d decl).get? id = some (.structDef (d.begun decl)) := by
    rw [begun, get?_modify, if_pos rfl, h.get?]
    rfl
  obtain ⟨d', hd', hb⟩ := hk.advances.grows.becomes hid
  have ht := hk.advances.wellTyped.consistent
  have hl : t.lookup? name = some id := by
    rw [← hb.name_eq.trans h.label_name]
    exact ht.lookup?_name hd'
  rw [Registry.setFields, ht.find?_modify hl]
  split
  · next hn => rw [hn, hname]; rfl
  · rfl

theorem carries_setFields (h : Waits x r s name id d)
    (hk : (s.begun id d decl).Carries x t)
    (ha : t.Advances (t.setFields id fields)) : r.Carries x (t.setFields id fields) :=
  ((h.carries_begun decl).trans hk).of_structDef ha (h.find?_setFields hk fields)
    (h.completes decl fields)

theorem accounts_setFields (h : Waits x r s name id d) {decls : List FieldDecl}
    (hdecls : decl.fields = some decls)
    (hrun : lowerFields .none name .empty decls (s.begun id d decl) =
      .ok fields t)
    (hk : (s.begun id d decl).Carries x t)
    (ha : t.Advances (t.setFields id fields))
    (hlog : (s.begun id d decl).Accounts log t) :
    r.Accounts (.record name decl :: log) (t.setFields id fields) := by
  have hcomplete : decl.isComplete = true := by rw [RecordDecl.isComplete, hdecls]; rfl
  have hbegun := (h.carries_begun decl).advances
  have hfind := h.find?_setFields hk fields
  refine ⟨fun e he => ?_, fun {n d'} hn hd => ?_, fun {n d'} hd hc => ?_⟩
  · rcases List.mem_cons.mp he with rfl | he
    · refine ⟨.inl (by rw [Sighting.name, hfind, if_pos rfl]; rfl), fun _ d' hd => ?_⟩
      rw [Sighting.name, hfind, if_pos rfl] at hd
      cases hd
      rfl
    · exact (hlog.seen e he).grow ha.grows hk.advances.wellTyped.consistent ha.wellTyped.consistent
  · -- made by the record itself, or by what its fields show
    rw [hfind] at hd
    split at hd
    · next he =>
      cases hd
      exact ⟨.record name decl, by simp [firstNamed, Sighting.name, he], _, rfl⟩
    · next he =>
      have hn' : (s.begun id d decl).find? n = none := by
        rw [h.find?_begun, if_neg he, h.others n he, hn]
      obtain ⟨e, hfirst, hm⟩ := hlog.made hn' hd
      refine ⟨e, ?_, hm.widen hbegun ha⟩
      have hne : (Sighting.record name decl).name ≠ n := Ne.symm he
      simpa [firstNamed, hne] using hfirst
  · -- a record of the name among the fields comes too late: the struct counts as complete
    rw [hfind] at hd
    split at hd
    · next he =>
      cases hd
      subst he
      refine .inr ⟨h.awaits, decl, ?_, rfl, rfl, decls, _, t, d.begun decl, hdecls, hbegun, ?_⟩
      · simp [firstBody, Sighting.body?, hcomplete]
      · exact ⟨by rw [h.find?_begun, if_pos rfl], rfl, rfl, hrun, ha⟩
    · next he =>
      rcases hlog.filled hd hc with hs | ⟨hs, decl', hb, hfill⟩
      · rw [h.find?_begun, if_neg he, h.others n he] at hs
        exact .inl hs
      · refine .inr ⟨(h.carries_begun decl).awaits hs, decl', ?_, hfill.widen hbegun ha⟩
        have hne : (Sighting.record name decl).body? n = none := if_neg fun hn => he hn.1.symm
        simpa [firstBody, hne] using hb

end Registry.Waits

/-- A step that fills the struct logs the record before what its fields log. -/
theorem logs_of_waits {d : StructDef} {decl : RecordDecl} {decls : List FieldDecl}
    {m : LowerM (Option String)} (h : Waits x r s name id d)
    (hdecls : decl.fields = some decls)
    (hm : m r = (lowerFields .none name .empty decls >>= fun fields => do
      modify fun r : Registry => r.setFields id fields
      return some name) (s.begun id d decl))
    (hfields : (lowerFields .none name .empty decls).Logs x (s.begun id d decl) log) :
    m.Logs x r (.record name decl :: log) := by
  have hbegun := h.carries_begun decl
  unfold LowerM.Logs
  rw [hm]
  cases hrun : lowerFields .none name .empty decls (s.begun id d decl) with
  | error e t =>
    rw [bind_error hrun]
    exact hbegun.trans (hfields.of_error hrun)
  | ok fields t =>
    obtain ⟨hk, hlog⟩ := hfields.of_ok hrun
    have hstands :=
      ((leads_lowerFields decls name .empty hbegun.advances.wellTyped).of_ok hrun).2
    have ha := Advances.setFields hk.advances.wellTyped id hstands
    rw [bind_ok hrun]
    exact ⟨h.carries_setFields hk ha, h.accounts_setFields hdecls hrun hk ha hlog⟩

/-! ### The recursion -/

mutual

/-- The sightings of a type account for what its resolution registers. -/
theorem logs_resolve : ∀ (ty : CType) (hint : Option String) (inStruct : Bool) {s : Registry},
    s.WellTyped → (resolve .none hint inStruct ty).Logs x s (sightings hint inStruct ty s)
  | .builtin b, hint, inStruct, s, h => by
    rw [resolve, sightings]
    exact logs_resolveFirst h (.primitive h _)
  | .typedef name target, hint, inStruct, s, h => by
    rw [resolve, sightings]
    refine logs_resolveFirst h ?_
    split
    · exact .primitive h _
    · exact logs_resolve target (some name) inStruct h
  | .array element (.constant length) _, hint, inStruct, s, h => by
    rw [resolve, sightings]
    exact logs_resolveFirst h <| (logs_resolve element hint true h).bind h fun ref t ht hst =>
      logs_fixedArrayOf hst length ((leads_resolve element hint true h).of_ok ht).2
  | .array element .incomplete _, hint, inStruct, s, h
  | .array element .variable _, hint, inStruct, s, h => by
    simp only [resolve, sightings]
    exact logs_resolveFirst h <| (logs_resolve element hint inStruct h).before_quiet h
      fun _ _ _ ht => .pure ht _
  | .record decl, hint, inStruct, s, h => by
    rw [resolve, sightings]
    exact logs_resolveFirst h <| (logs_makeStruct decl hint h).before_quiet h
      fun name _ _ ht => logs_named ht _ name
  | .enum decl, hint, inStruct, s, h => by
    rw [resolve, sightings]
    exact logs_resolveFirst h <| (logs_makeEnum h hint decl).before_quiet h
      fun name _ _ ht => logs_named ht _ name
  | .pointer pointee c, hint, inStruct, s, h => by
    rw [resolve, sightings]
    exact logs_resolveFirst h <| (logs_resolve pointee hint inStruct h).before_quiet h
      fun ref _ _ ht => logs_pointerTo ht c ref
  | .function ty, none, inStruct, s, h => by
    rw [resolve, sightings]
    exact logs_resolveFirst h (.throw h _)
  | .function ty, some name, inStruct, s, h => by
    rw [resolve, sightings]
    exact logs_resolveFirst h (logs_makeDelegate ty name inStruct h)
  | .unsupported spelling, hint, inStruct, s, h => by
    rw [resolve, sightings]
    exact logs_resolveFirst h (.throw h _)

theorem logs_makeStruct : ∀ (decl : RecordDecl) (fallback : Option String) {s : Registry},
    s.WellTyped → (makeStruct .none fallback decl).Logs x s (recordSightings fallback decl s)
  | ⟨tag, fields, isUnion, doc⟩, fallback, s, h => by
    cases hn : declaredName? tag fallback with
    | none =>
      rw [makeStruct, recordSightings, hn]
      exact .pure h _
    | some name =>
      have hm := Advances.mention h name
      have hst : s.Advances (s.slotted name) := hm.trans (.structSlot hm.wellTyped name)
      have hi : s.Inserts (.structDef (.placeholder (.ofName name))) (s.slotted name) :=
        hm.wellTyped.consistent.find?_structSlot name
      have hdecl := leads_makeStruct ⟨tag, fields, isUnion, doc⟩ fallback h
      rcases makeStruct_cases ⟨tag, fields, isUnion, doc⟩ hn h.consistent with
        ⟨hrun, hlog⟩ | ⟨id, d, hl, hd, hc, hf, hrest⟩
      · have hdecl := (hdecl.of_ok hrun).2.2 name rfl
        rw [hlog]
        exact .of_eq hrun (hi.carries hst trivial) <|
          hi.accounts h hst rfl ⟨_, rfl⟩ (fun _ he => by cases he; rfl) hdecl
      · cases fields with
        | none => cases hf
        | some decls =>
          obtain ⟨hrun, hlog⟩ := hrest decls rfl
          have hw : Waits x s (s.slotted name) name id d :=
            ⟨hi.carries hst trivial,
              fun n hne => by rw [hi, if_neg fun hc => hne hc.1, Option.or_none], hl, hd, hc⟩
          have hbegun := hw.carries_begun ⟨tag, some decls, isUnion, doc⟩
          rw [hlog]
          exact logs_of_waits hw rfl hrun
            (logs_lowerFields decls name .empty hbegun.advances.wellTyped)

theorem logs_lowerFields : ∀ (decls : List FieldDecl) (record : String) (run : BitFieldRun)
    {s : Registry}, s.WellTyped →
    (lowerFields .none record run decls).Logs x s (fieldSightings record run decls s)
  | [], record, run, s, h => by
    rw [lowerFields, fieldSightings]
    exact logs_flush h run record
  | ⟨name, _, some width, doc, _⟩ :: decls, record, run, s, h => by
    rw [lowerFields, fieldSightings]
    exact logs_lowerFields decls record _ h
  | ⟨name, ty, none, doc, deprecation⟩ :: decls, record, run, s, h => by
    rw [lowerFields, fieldSightings]
    refine (logs_flush h run record).after_quiet h fun packed s₁ _ h₁ => ?_
    refine (logs_resolve ty _ true h₁).bind h₁ fun ref s₂ _ h₂ => ?_
    exact (logs_lowerFields decls record .empty h₂).before_quiet h₂ fun _ _ _ ht => .pure ht _

theorem logs_makeDelegate : ∀ (ty : FunctionType) (name : String) (embedded : Bool) {s : Registry},
    s.WellTyped →
    (makeDelegate .none name embedded ty).Logs x s (callbackSightings name embedded ty s)
  | ⟨returnType, params, callConv⟩, name, embedded, s, h => by
    rw [makeDelegate, callbackSightings_eq]
    have hm := Advances.mention h name
    refine .mention_bind h name (.get_bind ?_)
    dsimp only
    split
    · have hret := logs_resolveInSignature (x := x) hm.wellTyped
        (logs_resolve returnType none false hm.wellTyped)
      have := logs_signature callConv
        (d := fun sig => .delegateDef ⟨.ofName name, sig, embedded⟩)
        (e := .callback name ⟨returnType, params, callConv⟩ embedded)
        (k := fun ret ps => do
          let _ ← LowerM.insert
            (.delegateDef ⟨.ofName name, ⟨ret, ps, callConv.toHost, []⟩, embedded⟩)
          return TypeRef.plain name)
        hm.wellTyped hret (logs_lowerParams params name 0) (fun ret ps t ht hsuits => ?_)
        (fun _ => ⟨rfl, rfl, trivial⟩) nofun (fun sig _ hsig => ⟨sig, rfl, hsig⟩)
      · rw [resolveInSignature, bind_assoc] at this
        exact this
      · exact ⟨_, _, rfl, .insert ht (.of_suits hsuits nofun), ht.consistent.find?_insert _⟩
    · next hl =>
      have hl : ((s.mention name).lookup? name).isSome = true := by
        simpa [Option.isSome_iff_ne_none] using hl
      refine .of_eq rfl (.refl hm.wellTyped) (.of_find?_eq (fun _ => rfl) fun e he => ?_)
      rw [List.nil_append] at he
      rw [List.mem_singleton.mp he]
      exact .of_taken (.of_lookup? hm.wellTyped.consistent hl)

theorem logs_lowerParams : ∀ (decls : List ParamDecl) (owner : String) (i : Nat) {s : Registry},
    s.WellTyped → (lowerParams .none owner i decls).Logs x s (paramSightings owner i decls s)
  | [], owner, i, s, h => by
    rw [lowerParams, paramSightings]
    exact .pure h _
  | ⟨name, ty, doc⟩ :: decls, owner, i, s, h => by
    rw [lowerParams, paramSightings]
    generalize paramName owner i name = p
    have hty := logs_resolveInSignature (x := x) h (logs_resolve ty (some p.2) false h)
    have := hty.bind (K := fun _ t => paramSightings owner (i + 1) decls t)
      (f := fun ref => do
        let rest ← lowerParams .none owner (i + 1) decls
        return { Param.ofType p.1 ref with doc } :: rest) h fun ref t _ ht =>
      (logs_lowerParams decls owner (i + 1) ht).before_quiet ht fun _ _ _ ht => .pure ht _
    rwa [resolveInSignature, bind_assoc] at this

end

end Bindery
