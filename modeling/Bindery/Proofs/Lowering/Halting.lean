import Bindery.Proofs.Lowering.Filling
import Bindery.Proofs.Lowering.Sparing

/-!
# Structs whose fields fail

A struct counts as complete while its fields are lowered, so that a record may refer to itself. When
one of the fields fails, nothing takes that back: the struct stays complete, with the flag and the
documentation of the record and without fields, and since complete structs are left alone no later
record of the name fills it (`Lowerer.Used.makeStruct_halts`). The same becomes of every record
around the one that failed. All other structs that have become complete have their fields
(`Registry.Builds`). This holds with any override.
-/

namespace Bindery

open Registry

/-! ### What becomes of structs -/

/-- In `u` the struct `d` in the slot has been begun for the complete record, and nothing more. -/
structure RecordDecl.Begins (decl : RecordDecl) (decls : List FieldDecl) (name : String)
    (u : Registry) (id : DefId) (d : StructDef) : Prop where
  decls : decl.fields = some decls
  lookup? : u.lookup? name = some id
  get? : u.get? id = some (.structDef d)
  complete : d.complete = true
  isUnion : d.isUnion = decl.isUnion
  doc : d.label.doc = decl.doc
  fields : d.fields = []

namespace Registry

/-- A consistent registry in which a struct that waits for its fields has none. -/
structure Tidy (r : Registry) : Prop where
  consistent : r.Consistent
  blank : ∀ {id d}, r.get? id = some (.structDef d) → d.complete = false → d.fields = []

/-- How the struct in the slot has come to be complete between `s` and `t`, under the override `o`.
The errors are as `p` says. -/
inductive Fate (o : TypeOverride) (p : LowerError → Prop) (s t : Registry) (id : DefId) :
    StructDef → Prop where
  /-- The override has made it. -/
  | handle (name : String) (void : TypeRef) : Fate o p s t id (TypeOverride.handleStruct name void)
  /-- It has been begun for a record, and then it has got the fields of the record. -/
  | filled {decl : RecordDecl} {decls : List FieldDecl} {name : String} {u v : Registry}
      {d : StructDef} {fields : List Field} (hu : decl.Begins decls name u id d) (hsu : s.Grows u)
      (hrun : lowerFields o name .empty decls u = .ok fields v) (hvt : v.Grows t) :
      Fate o p s t id { d with fields }
  /-- It has been begun for a record, and then the fields of the record have failed. -/
  | halted {decl : RecordDecl} {decls : List FieldDecl} {name : String} {u v : Registry}
      {d : StructDef} {e : LowerError} (hu : decl.Begins decls name u id d) (hsu : s.Grows u)
      (hrun : lowerFields o name .empty decls u = .error e v) (he : p e) (hvt : v.Grows t) :
      Fate o p s t id d

/-- Growth in which complete structs stay as they are, and others become complete as `Fate` says. -/
structure Builds (o : TypeOverride) (p : LowerError → Prop) (s t : Registry) : Prop where
  tidy : t.Tidy
  grows : s.Grows t
  stays : ∀ {id d}, s.get? id = some (.structDef d) → d.complete = true →
    t.get? id = some (.structDef d)
  fate : ∀ {id d}, t.get? id = some (.structDef d) → d.complete = true →
    s.get? id = some (.structDef d) ∨ Fate o p s t id d

end Registry

variable {α β : Type} {o : TypeOverride} {p q : LowerError → Prop} {r s t u s' t' : Registry}
  {n name : String} {id other : DefId} {d : StructDef} {decl : RecordDecl} {decls : List FieldDecl}
  {fields : List Field} {e : LowerError} {m : LowerM α} {f : α → LowerM β}

namespace Registry

theorem Fate.widen (h : Fate o p s t id d) (hs : s'.Grows s) (ht : t.Grows t') :
    Fate o p s' t' id d := by
  cases h with
  | handle name void => exact .handle name void
  | filled hu hsu hrun hvt => exact .filled hu (hs.trans hsu) hrun (hvt.trans ht)
  | halted hu hsu hrun he hvt => exact .halted hu (hs.trans hsu) hrun he (hvt.trans ht)

theorem Fate.mono (h : Fate o p s t id d) (hp : ∀ e, p e → q e) : Fate o q s t id d := by
  cases h with
  | handle name void => exact .handle name void
  | filled hu hsu hrun hvt => exact .filled hu hsu hrun hvt
  | halted hu hsu hrun he hvt => exact .halted hu hsu hrun (hp _ he) hvt

theorem Grows.mention (s : Registry) (name : String) : s.Grows (s.mention name) :=
  ⟨rfl, fun hd => ⟨_, hd, .refl _⟩⟩

namespace Builds

theorem refl (h : s.Tidy) : s.Builds o p s :=
  ⟨h, .refl s, fun hd _ => hd, fun hd _ => .inl hd⟩

theorem trans (h : s.Builds o p t) (h' : t.Builds o p u) : s.Builds o p u := by
  refine ⟨h'.tidy, h.grows.trans h'.grows, fun hd hc => h'.stays (h.stays hd hc) hc,
    fun hd hc => ?_⟩
  rcases h'.fate hd hc with ht | hf
  · rcases h.fate ht hc with hs | hf
    · exact .inl hs
    · exact .inr (hf.widen (.refl s) h'.grows)
  · exact .inr (hf.widen h.grows (.refl u))

theorem mono (h : s.Builds o p t) (hp : ∀ e, p e → q e) : s.Builds o q t :=
  ⟨h.tidy, h.grows, h.stays, fun hd hc => (h.fate hd hc).imp_right fun hf => hf.mono hp⟩

/-- Where all structs are the same nothing has become of them. -/
theorem of_spares (h : s.Tidy) (hs : s.Spares .structDef t) (hg : s.Grows t) : s.Builds o p t := by
  have hsame : ∀ {id d}, t.get? id = some (.structDef d) ↔ s.get? id = some (.structDef d) :=
    hs.get?_iff rfl
  exact ⟨⟨hs.consistent h.consistent, fun hd => h.blank (hsame.mp hd)⟩, hg,
    fun hd _ => hsame.mpr hd, fun hd _ => .inl (hsame.mp hd)⟩

theorem mention (h : s.Tidy) (name : String) : s.Builds o p (s.mention name) :=
  .of_spares h (.mention _ s name) (.mention s name)

/-- A new struct waits for its fields, or the override has made it. -/
theorem insert (h : s.Tidy) {d : StructDef}
    (hd : (d.complete = false ∧ d.fields = []) ∨
      ∃ name void, d = TypeOverride.handleStruct name void) :
    s.Builds o p (s.insert (.structDef d)).2 := by
  refine ⟨⟨h.consistent.insert _, fun {id d'} hd' hc => ?_⟩, .insert s _, fun {id d'} hd' _ => ?_,
    fun {id d'} hd' hc => ?_⟩
  · rcases of_get?_insert hd' with he | hs
    · cases he
      rcases hd with ⟨-, hf⟩ | ⟨name, void, rfl⟩
      · exact hf
      · cases hc
    · exact h.blank hs hc
  · rcases insert_cases s (.structDef d) with ⟨-, hi⟩ | ⟨_, -, hi⟩ | ⟨-, -, hi⟩ <;> rw [hi]
    · exact hd'
    · exact hd'
    · rw [get?_append, if_neg, hd']
      rintro rfl
      exact Nat.lt_irrefl _ (index_lt_of_get? hd')
  · rcases of_get?_insert hd' with he | hs
    · cases he
      rcases hd with ⟨hw, -⟩ | ⟨name, void, rfl⟩
      · rw [hw] at hc
        cases hc
      · exact .inr (.handle name void)
    · exact .inl hs

theorem insertFixedArray (h : s.Tidy) (a : FixedArray) :
    s.Builds o p (s.insertFixedArray a).2 := by
  refine .of_spares h (Spares.insertFixedArray (k := .structDef) nofun a) ?_
  rcases insertFixedArray_cases s a with ⟨id, -, hi⟩ | ⟨-, hi⟩ | ⟨id, r, hr, hi⟩ <;> rw [hi]
  · exact .refl s
  · exact .refl s
  · have hg := Grows.insert s (.fixedArray a)
    rw [hr] at hg
    exact ⟨hg.suppressed, hg.becomes⟩

theorem slotted (h : s.Tidy) (name : String) : s.Builds o p (s.slotted name) := by
  have hm : s.Builds o p (s.mention name) := mention h name
  refine hm.trans ?_
  unfold Registry.slotted Registry.structSlot
  split
  · exact refl hm.tidy
  · exact insert hm.tidy (.inl ⟨rfl, rfl⟩)

theorem insert_other (h : s.Tidy) {d : Definition} (hd : d.kind ≠ .structDef) :
    s.Builds o p (s.insert d).2 :=
  .of_spares h (.insert hd) (.insert s d)

theorem override (h : s.Tidy) (ty : CType) (o' : TypeOverride) :
    s.Builds o p (o'.resolve? ty s).2 := by
  have hkeeps : TypeOverride.Keeps fun s t => s.Tidy → s.Builds o p t :=
    ⟨fun _ => refl, fun hst htu hs => (hst hs).trans (htu (hst hs).tidy),
      fun _ name hs => mention hs name, fun _ name void hs => insert hs (.inr ⟨name, void, rfl⟩)⟩
  exact hkeeps.resolve? ty o' s h

end Builds

theorem Grows.foldl {f : Registry → α → Registry} (hf : ∀ (s : Registry) a, s.Grows (f s a))
    (as : List α) : s.Grows (as.foldl f s) := by
  induction as generalizing s with
  | nil => exact .refl s
  | cons a as ih => exact (hf s a).trans ih

theorem Grows.classifyMacro (s : Registry) (id : DefId) : s.Grows (s.classifyMacro id) := by
  unfold Registry.classifyMacro
  split
  · next m hm =>
    split
    · refine .modify id fun d hd => ?_
      cases hm.symm.trans hd
      exact .ofMacro rfl
    · exact .refl s
  · exact .refl s

theorem Grows.lowerMacros (s : Registry) (skips : MacroDecl → Bool) (decls : List MacroDecl) :
    s.Grows (s.lowerMacros skips decls) :=
  have hinsert : ∀ (s : Registry) (decl : MacroDecl), s.Grows (s.insertMacro decl) :=
    fun s decl => (Grows.mention s decl.name).trans (.insert _ _)
  .trans (.foldl hinsert _) (.foldl classifyMacro _)

/-! ### A struct that is begun -/

theorem get?_begun (hd : s.get? id = some (.structDef d)) (decl : RecordDecl) (other : DefId) :
    (s.begun id d decl).get? other =
      if other = id then some (.structDef (d.begun decl)) else s.get? other := by
  rw [begun, get?_modify]
  split
  · next he => rw [he, hd]; rfl
  · rfl

theorem get?_setFields (hd : t.get? id = some (.structDef d)) (fields : List Field)
    (other : DefId) : (t.setFields id fields).get? other =
      if other = id then some (.structDef { d with fields }) else t.get? other := by
  rw [setFields, get?_modify]
  split
  · next he => rw [he, hd]; rfl
  · rfl

theorem Grows.begun (hd : s.get? id = some (.structDef d)) (decl : RecordDecl) :
    s.Grows (s.begun id d decl) := by
  refine .modify id fun d' hd' => ?_
  cases hd.symm.trans hd'
  exact .ofStruct rfl fun _ => rfl

theorem Grows.setFields (hd : t.get? id = some (.structDef d)) (fields : List Field) :
    t.Grows (t.setFields id fields) := by
  refine .modify id fun d' hd' => ?_
  cases hd.symm.trans hd'
  exact .ofStruct rfl fun hc => hc

/-- In the tidy registry `s` the struct called `name`, with the slot `id`, waits for the fields of
the record. -/
structure Pending (s : Registry) (name : String) (id : DefId) (d : StructDef) (decl : RecordDecl)
    (decls : List FieldDecl) : Prop where
  tidy : s.Tidy
  lookup? : s.lookup? name = some id
  get? : s.get? id = some (.structDef d)
  incomplete : d.complete = false
  decls : decl.fields = some decls

namespace Pending

theorem begins (h : s.Pending name id d decl decls) :
    decl.Begins decls name (s.begun id d decl) id (d.begun decl) := by
  have hg : (s.begun id d decl).get? id = some (.structDef (d.begun decl)) := by
    rw [get?_begun h.get?, if_pos rfl]
  have hblank : d.fields = [] := h.tidy.blank h.get? h.incomplete
  exact ⟨h.decls, h.lookup?, hg, rfl, rfl, rfl, hblank⟩

theorem tidy_begun (h : s.Pending name id d decl decls) : (s.begun id d decl).Tidy := by
  refine ⟨h.tidy.consistent.modify id fun d' hd' => ?_, fun {other d'} hd' hc => ?_⟩
  · cases h.get?.symm.trans hd'
    rfl
  · rw [get?_begun h.get?] at hd'
    split at hd'
    · cases hd'
      cases hc
    · exact h.tidy.blank hd' hc

/-- The structs that are complete already do not notice. -/
theorem stays (h : s.Pending name id d decl decls) {d' : StructDef}
    (hd : s.get? other = some (.structDef d')) (hc : d'.complete = true) :
    other ≠ id ∧ (s.begun id d decl).get? other = some (.structDef d') := by
  have hne : other ≠ id := by
    rintro rfl
    cases h.get?.symm.trans hd
    rw [h.incomplete] at hc
    cases hc
  exact ⟨hne, by rw [get?_begun h.get?, if_neg hne, hd]⟩

/-- When the fields have failed, the struct is left as it was begun. -/
theorem builds_of_error (h : s.Pending name id d decl decls)
    (hrun : lowerFields o name .empty decls (s.begun id d decl) = .error e t)
    (hb : (s.begun id d decl).Builds o (· = e) t) : s.Builds o (· = e) t := by
  have hg := Grows.begun h.get? decl
  refine ⟨hb.tidy, hg.trans hb.grows, fun hd hc => hb.stays (h.stays hd hc).2 hc,
    fun {other d'} hd hc => ?_⟩
  rcases hb.fate hd hc with hs | hf
  · -- it was complete when the fields began, so it is the struct itself or an older one
    rw [get?_begun h.get?] at hs
    split at hs
    · next he =>
      cases hs
      subst he
      exact .inr (.halted h.begins hg hrun rfl (.refl t))
    · exact .inl hs
  · exact .inr (hf.widen hg (.refl t))

/-- When the fields have been lowered, the struct gets them. -/
theorem builds_of_ok (h : s.Pending name id d decl decls)
    (hrun : lowerFields o name .empty decls (s.begun id d decl) = .ok fields t)
    (hb : (s.begun id d decl).Builds o p t) : s.Builds o p (t.setFields id fields) := by
  have hg := Grows.begun h.get? decl
  have ht : t.get? id = some (.structDef (d.begun decl)) := hb.stays h.begins.get? rfl
  have hset := get?_setFields ht fields
  have hgset := Grows.setFields ht fields
  refine ⟨⟨hb.tidy.consistent.modify id fun d' hd => ?_, fun {other d'} hd hc => ?_⟩,
    hg.trans (hb.grows.trans hgset), fun {other d'} hd hc => ?_, fun {other d'} hd hc => ?_⟩
  · cases ht.symm.trans hd
    rfl
  · rw [hset] at hd
    split at hd
    · cases hd
      cases hc
    · exact hb.tidy.blank hd hc
  · obtain ⟨hne, hbegun⟩ := h.stays hd hc
    rw [hset, if_neg hne]
    exact hb.stays hbegun hc
  · rw [hset] at hd
    split at hd
    · next he =>
      cases hd
      subst he
      exact .inr (.filled h.begins hg hrun hgset)
    · next hne =>
      rcases hb.fate hd hc with hs | hf
      · rw [get?_begun h.get?, if_neg hne] at hs
        exact .inl hs
      · exact .inr (hf.widen hg hgset)

end Pending

end Registry

/-! ### Steps -/

/-- Started in `s` the step builds structs: all of them get their fields if it answers, and if it
fails the others are left behind by this very error. -/
def LowerM.Builds (o : TypeOverride) (m : LowerM α) (s : Registry) : Prop :=
  s.Tidy → match m s with
    | .ok _ t => s.Builds o (fun _ => False) t
    | .error e t => s.Builds o (· = e) t

namespace LowerM.Builds

theorem of_ok (h : m.Builds o s) (hs : s.Tidy) {a : α} (hm : m s = .ok a t) :
    s.Builds o (fun _ => False) t := by
  have := h hs
  rwa [hm] at this

theorem of_error (h : m.Builds o s) (hs : s.Tidy) (hm : m s = .error e t) :
    s.Builds o (· = e) t := by
  have := h hs
  rwa [hm] at this

theorem pure (s : Registry) (a : α) : Builds o (Pure.pure a) s := fun hs => .refl hs

theorem throw (s : Registry) (e : LowerError) :
    Builds o (MonadExcept.throw e : LowerM α) s := fun hs => .refl hs

theorem get_bind {g : Registry → LowerM α} (h : (g s).Builds o s) : Builds o (get >>= g) s := h

theorem bind (hm : m.Builds o s) (hf : ∀ a t, (f a).Builds o t) : (m >>= f).Builds o s := by
  intro hs
  cases hrun : m s with
  | error e t => rw [bind_error hrun]; exact hm.of_error hs hrun
  | ok a t =>
    have hst := hm.of_ok hs hrun
    rw [bind_ok hrun]
    cases hfa : f a t with
    | error e u =>
      have hst' : s.Builds o (· = e) t := hst.mono fun _ hfalse => hfalse.elim
      exact hst'.trans ((hf a t).of_error hst.tidy hfa)
    | ok b u => exact hst.trans ((hf a t).of_ok hst.tidy hfa)

theorem mention (s : Registry) (name : String) : (LowerM.mention name).Builds o s :=
  fun hs => .mention hs name

theorem primitive (s : Registry) (p : Primitive) : (LowerM.primitive p).Builds o s :=
  fun hs => .mention hs p.name

theorem insert (s : Registry) {d : Definition} (hd : d.kind ≠ .structDef) :
    (LowerM.insert d).Builds o s := fun hs => .insert_other hs hd

end LowerM.Builds

theorem builds_flush (run : BitFieldRun) (record : String) (s : Registry) :
    (run.flush record).Builds o s := by
  unfold BitFieldRun.flush
  split
  · exact .pure s _
  split
  · exact .throw s _
  · exact .bind (.primitive s _) fun _ t => .pure t _

theorem builds_decayed (ty : TypeRef) (s : Registry) : (decayed ty).Builds o s :=
  .get_bind (.pure s _)

theorem builds_named (kind : NamelessKind) (name : Option String) (s : Registry) :
    (named kind name).Builds o s := by
  cases name with
  | none => exact .throw s _
  | some n => exact .pure s _

theorem builds_pointerTo (pointeeConst : Bool) (ty : TypeRef) (s : Registry) :
    (pointerTo pointeeConst ty).Builds o s := by
  refine .get_bind ?_
  split
  · exact .pure s _
  · exact .pure s _

theorem builds_fixedArrayOf (length : Nat) (element : TypeRef) (s : Registry) :
    (fixedArrayOf length element).Builds o s := by
  refine .get_bind (.get_bind ?_)
  split
  · exact .pure s _
  · exact .bind (.mention s _) fun _ t => .get_bind fun ht => .insertFixedArray ht _

theorem builds_makeEnum (fallback : Option String) (decl : EnumDecl) (s : Registry) :
    (makeEnum fallback decl).Builds o s := by
  unfold makeEnum
  split
  · exact .pure s _
  · refine .bind (.mention s _) fun _ t => .get_bind ?_
    split
    · exact .pure t _
    split
    · exact .throw t _
    · exact .bind (.insert t fun hk => by cases hk) fun _ u => .pure u _

theorem builds_resolveFirst (o' : TypeOverride) (hint : Option String) (ty : CType)
    {rules : LowerM TypeRef} (h : ∀ t, rules.Builds o t) (s : Registry) :
    (resolveFirst o' hint ty rules).Builds o s := by
  refine .get_bind ?_
  split
  · exact .pure s _
  · have hoverride : (modifyGet (o'.resolve? ty) : LowerM (Option TypeRef)).Builds o s :=
      fun hs => .override hs ty o'
    refine hoverride.bind fun answer t => ?_
    split
    · exact .pure t _
    · exact h t

theorem makeStruct_nameless {fallback : Option String} {decl : RecordDecl}
    (hn : declaredName? decl.name fallback = none) (s : Registry) :
    makeStruct o fallback decl s = .ok none s := by
  obtain ⟨tag, fields, isUnion, doc⟩ := decl
  rw [makeStruct]
  dsimp only at hn ⊢
  rw [hn]
  rfl

/-- A record is noted and nothing more, or its struct is pending and its fields are lowered. -/
theorem makeStruct_pending {fallback : Option String} (decl : RecordDecl)
    (hn : declaredName? decl.name fallback = some name) (hs : s.Tidy) :
    makeStruct o fallback decl s = .ok (some name) (s.slotted name) ∨
    ∃ id d decls, (s.slotted name).Pending name id d decl decls ∧
      makeStruct o fallback decl s = (lowerFields o name .empty decls >>= fun fields => do
        modify fun r : Registry => r.setFields id fields
        return some name) ((s.slotted name).begun id d decl) := by
  have hslotted : s.Builds o (fun _ => False) (s.slotted name) := .slotted hs name
  rcases makeStruct_cases (o := o) decl hn hs.consistent with
    ⟨hrun, -⟩ | ⟨id, d, hl, hd, hc, hcomplete, hrest⟩
  · exact .inl hrun
  · obtain ⟨decls, hdecls⟩ := Option.isSome_iff_exists.mp hcomplete
    exact .inr ⟨id, d, decls, ⟨hslotted.tidy, hl, hd, hc, hdecls⟩, (hrest decls hdecls).1⟩

/-- Lowering a record builds structs if lowering its fields does. -/
theorem builds_makeStruct_of_fields {fallback : Option String} (decl : RecordDecl)
    (hfields : ∀ decls name t, decl.fields = some decls →
      (lowerFields o name .empty decls).Builds o t) (s : Registry) :
    (makeStruct o fallback decl).Builds o s := by
  intro hs
  cases hn : declaredName? decl.name fallback with
  | none =>
    rw [makeStruct_nameless hn]
    exact .refl hs
  | some name =>
    have hslotted : ∀ {p}, s.Builds o p (s.slotted name) := .slotted hs name
    rcases makeStruct_pending (o := o) decl hn hs with hrun | ⟨id, d, decls, hpending, hrun⟩
    · rw [hrun]
      exact hslotted
    · have hbuilds := hfields decls name ((s.slotted name).begun id d decl) hpending.decls
      rw [hrun]
      cases hf : lowerFields o name .empty decls ((s.slotted name).begun id d decl) with
      | error e t =>
        rw [bind_error hf]
        have hb := hbuilds.of_error hpending.tidy_begun hf
        exact hslotted.trans (hpending.builds_of_error hf hb)
      | ok fields t =>
        rw [bind_ok hf]
        have hb := hbuilds.of_ok hpending.tidy_begun hf
        exact hslotted.trans (hpending.builds_of_ok hf hb)

mutual

/-- Whatever becomes of the resolution of a type, it builds structs. -/
theorem builds_resolve (o : TypeOverride) : ∀ (ty : CType) (hint : Option String) (inStruct : Bool)
    (s : Registry), (resolve o hint inStruct ty).Builds o s
  | .builtin b, hint, inStruct, s => by
    rw [resolve]
    exact builds_resolveFirst o hint _ (fun t => .primitive t _) s
  | .typedef name target, hint, inStruct, s => by
    rw [resolve]
    refine builds_resolveFirst o hint _ (fun t => ?_) s
    split
    · exact .primitive t _
    · exact builds_resolve o target (some name) inStruct t
  | .array element (.constant length) _, hint, inStruct, s => by
    rw [resolve]
    exact builds_resolveFirst o hint _ (fun t => .bind (builds_resolve o element hint true t)
      fun _ => builds_fixedArrayOf length _) s
  | .array element .incomplete _, hint, inStruct, s
  | .array element .variable _, hint, inStruct, s => by
    simp only [resolve]
    exact builds_resolveFirst o hint _ (fun t => .bind (builds_resolve o element hint inStruct t)
      fun _ u => .pure u _) s
  | .record decl, hint, inStruct, s => by
    rw [resolve]
    exact builds_resolveFirst o hint _ (fun t => .bind (builds_makeStruct o decl hint t)
      fun _ => builds_named _ _) s
  | .enum decl, hint, inStruct, s => by
    rw [resolve]
    exact builds_resolveFirst o hint _ (fun t => .bind (builds_makeEnum hint decl t)
      fun _ => builds_named _ _) s
  | .pointer pointee pointeeConst, hint, inStruct, s => by
    rw [resolve]
    exact builds_resolveFirst o hint _ (fun t => .bind (builds_resolve o pointee hint inStruct t)
      fun _ => builds_pointerTo pointeeConst _) s
  | .function ty, none, inStruct, s => by
    rw [resolve]
    exact builds_resolveFirst o none _ (fun t => .throw t _) s
  | .function ty, some name, inStruct, s => by
    rw [resolve]
    exact builds_resolveFirst o (some name) _ (builds_makeDelegate o ty name inStruct) s
  | .unsupported spelling, hint, inStruct, s => by
    rw [resolve]
    exact builds_resolveFirst o hint _ (fun t => .throw t _) s

theorem builds_makeStruct (o : TypeOverride) : ∀ (decl : RecordDecl) (fallback : Option String)
    (s : Registry), (makeStruct o fallback decl).Builds o s
  | ⟨tag, none, isUnion, doc⟩, fallback, s =>
    builds_makeStruct_of_fields _ (fun _ _ _ hdecls => by cases hdecls) s
  | ⟨tag, some decls, isUnion, doc⟩, fallback, s => by
    refine builds_makeStruct_of_fields _ (fun decls' name t hdecls => ?_) s
    cases hdecls
    exact builds_lowerFields o decls name .empty t

theorem builds_lowerFields (o : TypeOverride) : ∀ (decls : List FieldDecl) (record : String)
    (run : BitFieldRun) (s : Registry), (lowerFields o record run decls).Builds o s
  | [], record, run, s => by
    rw [lowerFields]
    exact builds_flush run record s
  | ⟨name, _, some width, doc, _⟩ :: decls, record, run, s => by
    rw [lowerFields]
    exact builds_lowerFields o decls record _ s
  | ⟨name, ty, none, doc, deprecation⟩ :: decls, record, run, s => by
    rw [lowerFields]
    exact .bind (builds_flush run record s) fun _ t => .bind (builds_resolve o ty _ true t)
      fun _ u => .bind (builds_lowerFields o decls record .empty u) fun _ v => .pure v _

theorem builds_makeDelegate (o : TypeOverride) : ∀ (ty : FunctionType) (name : String)
    (embedded : Bool) (s : Registry), (makeDelegate o name embedded ty).Builds o s
  | ⟨returnType, params, callConv⟩, name, embedded, s => by
    rw [makeDelegate]
    refine .bind (.mention s _) fun _ t => .get_bind ?_
    dsimp only
    split
    · refine .bind (builds_resolve o returnType none false t) fun _ u =>
        .bind (builds_decayed _ u) fun _ v => .bind (builds_lowerParams o params name 0 v)
          fun _ w => ?_
      exact .bind (.insert w nofun) fun _ x => .pure x _
    · exact .pure t _

theorem builds_lowerParams (o : TypeOverride) : ∀ (decls : List ParamDecl) (owner : String)
    (i : Nat) (s : Registry), (lowerParams o owner i decls).Builds o s
  | [], owner, i, s => by
    rw [lowerParams]
    exact .pure s _
  | ⟨name, ty, doc⟩ :: decls, owner, i, s => by
    rw [lowerParams]
    exact .bind (builds_resolve o ty _ false s) fun _ t => .bind (builds_decayed _ t) fun _ u =>
      .bind (builds_lowerParams o decls owner (i + 1) u) fun _ v => .pure v _

end

/-- A record that fails leaves the struct of its name as it was begun. -/
theorem of_makeStruct_eq_error {fallback : Option String} (hs : s.Tidy)
    (hr : makeStruct o fallback decl s = .error e t) :
    ∃ name id d, declaredName? decl.name fallback = some name ∧
      t.get? id = some (.structDef d) ∧ d.label.name = name ∧ d.complete = true ∧ d.fields = [] ∧
      d.isUnion = decl.isUnion ∧ d.label.doc = decl.doc := by
  cases hn : declaredName? decl.name fallback with
  | none => cases (makeStruct_nameless hn s).symm.trans hr
  | some name =>
    rcases makeStruct_pending decl hn hs with hrun | ⟨id, d, decls, hpending, hrun⟩
    · cases hrun.symm.trans hr
    cases hf : lowerFields o name .empty decls ((s.slotted name).begun id d decl) with
    | ok fields v => cases (hrun.trans (bind_ok hf)).symm.trans hr
    | error e' v =>
      cases (hrun.trans (bind_error hf)).symm.trans hr
      have hb := (builds_lowerFields o decls name .empty _).of_error hpending.tidy_begun hf
      have hname : d.label.name = name :=
        hpending.tidy.consistent.name_eq hpending.get? hpending.lookup?
      -- no step among the fields changes a struct that counts as complete
      have hget := hb.stays hpending.begins.get? rfl
      exact ⟨name, id, d.begun decl, rfl, hget, hname, rfl, hpending.begins.fields, rfl, rfl⟩

namespace Lowerer

variable {l l' l₀ : Lowerer} {fallback : Option String}

/-! ### Whole headers -/

/-- Since `l₀` the override has stayed the same, and structs have been built. -/
structure BuiltFrom (l₀ l : Lowerer) : Prop where
  override : l.override = l₀.override
  builds : l₀.registry.Builds l₀.override (fun _ => True) l.registry

namespace BuiltFrom

theorem refl (h : l.registry.Tidy) : BuiltFrom l l := ⟨rfl, .refl h⟩

theorem onRegistry (h : BuiltFrom l₀ l) (hm : m.Builds l₀.override l.registry) :
    BuiltFrom l₀ (l.after (onRegistry m)) := by
  have htidy := h.builds.tidy
  unfold after Lowerer.onRegistry
  cases hs : m l.registry with
  | ok a t =>
    have ht := (hm.of_ok htidy hs).mono (q := fun _ => True) fun _ _ => trivial
    exact ⟨h.override, h.builds.trans ht⟩
  | error e t =>
    have ht := (hm.of_error htidy hs).mono (q := fun _ => True) fun _ _ => trivial
    exact ⟨h.override, h.builds.trans ht⟩

theorem lowerEnum (decl : EnumDecl) : Preserves (BuiltFrom l₀) (lowerEnum decl) :=
  .lowerEnum fun _ h => h.onRegistry (builds_makeEnum none decl _)

theorem lowerRecord (fallback : Option String) (decl : RecordDecl) :
    Preserves (BuiltFrom l₀) (lowerRecord fallback decl) := by
  refine .lowerRecord fun l h l' h' => ?_
  rw [h.override]
  exact h'.onRegistry (builds_makeStruct _ decl fallback _)

theorem builds_exportFunction (o : TypeOverride) (e : Export) (decl : FunctionDecl)
    (s : Registry) : (exportFunction o e decl).Builds o s := by
  refine .bind (.bind (builds_resolve o decl.returnType none false s) builds_decayed)
    fun _ t => ?_
  refine .bind (builds_lowerParams o decl.params decl.name 0 t) fun _ u => ?_
  refine .bind (.mention u _) fun _ v => ?_
  exact .bind (.insert v nofun) fun _ w => .pure w _

theorem lowerFunction (decl : FunctionDecl) : Preserves (BuiltFrom l₀) (lowerFunction decl) := by
  refine .lowerFunction (fun l h => ⟨h.override, h.builds⟩) fun l e h l' h' => ?_
  rw [h.override]
  exact h'.onRegistry (builds_exportFunction _ e decl _)

theorem process (headers : List Header) : Preserves (BuiltFrom l₀) (process headers) := by
  refine .process (.lowerHeader (fun l decls h => ?_) lowerEnum lowerRecord lowerFunction) headers
  have hspares : l.registry.Spares .structDef
      (l.registry.lowerMacros l.filters.skipsMacro decls) :=
    Spares.lowerMacros (k := .structDef) nofun _ _ _
  exact ⟨h.override, h.builds.trans (.of_spares h.builds.tidy hspares (.lowerMacros _ _ _))⟩

end BuiltFrom

/-- The lowerers that come from the new one by any use of it: by choosing exports, filters and an
override, by refusing names, by processing headers and by resolving types, with success or not. -/
inductive Used : Lowerer → Prop where
  | new : Used new
  | configure {l : Lowerer} (h : Used l) (exports : ExportMap) (filters : DeclFilters)
      (override : TypeOverride) : Used { l with exports, filters, override }
  | suppress {l : Lowerer} (h : Used l) (name : String) : Used (l.suppress name)
  | process {l : Lowerer} (h : Used l) (headers : List Header) : Used (l.after (process headers))
  | resolve {l : Lowerer} (h : Used l) (hint : Option String) (inStruct : Bool) (ty : CType) :
      Used (l.after (onRegistry (Bindery.resolve l.override hint inStruct ty)))

theorem Used.tidy (h : l.Used) : l.registry.Tidy := by
  induction h with
  | new => exact ⟨.empty, fun hd => nomatch hd⟩
  | configure _ _ _ _ ih => exact ih
  | suppress _ name ih =>
    exact ⟨ih.consistent.suppress name, fun hd => ih.blank (of_get?_suppress hd)⟩
  | process _ headers ih => exact (BuiltFrom.process headers _ (.refl ih)).builds.tidy
  | @resolve l _ hint inStruct ty ih =>
    have hbuilds := builds_resolve l.override ty hint inStruct l.registry
    exact ((BuiltFrom.refl ih).onRegistry hbuilds).builds.tidy

/-- Further headers leave a complete struct as it is. -/
theorem find?_of_complete (h : l.registry.Tidy) (hd : l.registry.get? id = some (.structDef d))
    (hc : d.complete = true) (runs : List (List Header)) :
    (runs.foldl (fun l headers => l.after (Lowerer.process headers)) l).registry.find?
      d.label.name = some (.structDef d) := by
  induction runs generalizing l with
  | nil => exact h.consistent.find?_name hd
  | cons headers runs ih =>
    have hb := (BuiltFrom.process headers l (.refl h)).builds
    exact ih hb.tidy (hb.stays hd hc)

/-- **A record that fails is left behind.** Whatever the lowerer was used for and whatever error the
lowering of a record ends with, at whatever depth, the struct of its name is complete afterwards and
has no fields, and no headers change that later. Every other struct that has become complete was
made by the override, or it has its fields, or it was left behind by the same error. -/
theorem Used.makeStruct_halts (h : l.Used)
    (hr : onRegistry (makeStruct l.override fallback decl) l = .error e l') :
    ∃ name d, declaredName? decl.name fallback = some name ∧
      l'.registry.find? name = some (.structDef d) ∧
      d.complete = true ∧ d.fields = [] ∧ d.isUnion = decl.isUnion ∧ d.label.doc = decl.doc ∧
      l.registry.Builds l.override (· = e) l'.registry ∧
      ∀ runs : List (List Header),
        (runs.foldl (fun l headers => l.after (Lowerer.process headers)) l').registry.find? name =
          some (.structDef d) := by
  rw [onRegistry] at hr
  cases hm : makeStruct l.override fallback decl l.registry with
  | ok a t => rw [hm] at hr; cases hr
  | error e' t =>
    rw [hm] at hr
    cases hr
    have hb := (builds_makeStruct l.override decl fallback _).of_error h.tidy hm
    obtain ⟨name, id, d, hn, hd, rfl, hc, hf, hu, hdoc⟩ := of_makeStruct_eq_error h.tidy hm
    have hlater := fun runs => find?_of_complete (l := { l with registry := t }) hb.tidy hd hc runs
    exact ⟨d.label.name, d, hn, hlater [], hc, hf, hu, hdoc, hb, hlater⟩

/-- A record of one field. -/
def oneField (tag field : String) (ty : CType) : RecordDecl :=
  ⟨some tag, some [⟨field, ty, none, .none, none⟩], false, .none⟩

/-- A filter with its range and its curve; the curve is made of complex numbers. -/
def filterRecord : RecordDecl :=
  ⟨some "filter", some [
    ⟨"range", .record (oneField "range" "width" (.builtin .int)), none, .none, none⟩,
    ⟨"curve", .pointer (.record (oneField "curve" "pole" (.unsupported "_Complex double"))) false,
      none, .none, none⟩], false, .none⟩

/-- Name, completeness and fields of the structs of a registry. -/
def structsOf (r : Registry) : List (String × Bool × List String) :=
  r.definitions.filterMap fun
    | .structDef d => some (d.label.name, d.complete, d.fields.map Field.name)
    | _ => none

/-- The curve fails and takes the filter with it, while the range has its fields. -/
theorem makeStruct_halts_filterRecord :
    new.Used ∧ ∃ l', onRegistry (makeStruct new.override none filterRecord) new =
        .error (.unsupportedType "_Complex double") l' ∧
      structsOf l'.registry =
        [("filter", true, []), ("range", true, ["width"]), ("curve", true, [])] ∧
      ∃ name d, declaredName? filterRecord.name none = some name ∧
        l'.registry.find? name = some (.structDef d) ∧
        d.complete = true ∧ d.fields = [] ∧ d.isUnion = filterRecord.isUnion ∧
        d.label.doc = filterRecord.doc ∧
        new.registry.Builds new.override (· = .unsupportedType "_Complex double") l'.registry ∧
        ∀ runs : List (List Header),
          (runs.foldl (fun l headers => l.after (Lowerer.process headers)) l').registry.find?
            name = some (.structDef d) := by
  obtain ⟨l', hr, hs⟩ : ∃ l', onRegistry (makeStruct new.override none filterRecord) new =
        .error (.unsupportedType "_Complex double") l' ∧
      structsOf l'.registry =
        [("filter", true, []), ("range", true, ["width"]), ("curve", true, [])] := ⟨_, rfl, rfl⟩
  exact ⟨.new, l', hr, hs, Used.new.makeStruct_halts hr⟩

/-- A header that declares one record and nothing else. -/
def headerOf (decl : RecordDecl) : Header := ⟨"s.h", false, [], [], [decl], [], []⟩

/-- A record with a complex number fails, and the corrected record of the same name, which is
processed after it, does not fill the struct. -/
theorem structS_stays_behind :
    ∃ l₁ l₂ d, Lowerer.process [headerOf (oneField "S" "z" (.unsupported "_Complex double"))] new =
        .error (.unsupportedType "_Complex double") l₁ ∧
      l₁.registry.find? "S" = some (.structDef d) ∧ d.complete = true ∧ d.fields = [] ∧
      Lowerer.process [headerOf (oneField "S" "x" (.builtin .int))] l₁ = .ok ⟨⟩ l₂ ∧
      l₂.registry.find? "S" = some (.structDef d) :=
  ⟨_, _, _, rfl, rfl, rfl, rfl, rfl, rfl⟩

end Lowerer

end Bindery
