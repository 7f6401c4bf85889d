import Bindery.Proofs.Lowering.Rules

/-!
# Names that have been met

Lowering notes every name that it meets, and never looks at what has been noted. `Blind` says of a
step that it comes out the same, answer or error, whatever names have been met before, and leaves
the same definitions. Resolution with any override is blind (`blind_resolve`).
-/

namespace Bindery

namespace Registry

variable {α : Type} {s : Registry} {names : Interner}

/-- The registry with other names met. -/
def withNames (s : Registry) (names : Interner) : Registry := { s with names }

@[simp] theorem lookup?_withNames (s : Registry) (names : Interner) :
    (s.withNames names).lookup? = s.lookup? := rfl

@[simp] theorem get?_withNames (s : Registry) (names : Interner) :
    (s.withNames names).get? = s.get? := rfl

@[simp] theorem isSuppressed_withNames (s : Registry) (names : Interner) :
    (s.withNames names).isSuppressed = s.isSuppressed := rfl

@[simp] theorem fixedArray?_withNames (s : Registry) (names : Interner) :
    (s.withNames names).fixedArray? = s.fixedArray? := rfl

@[simp] theorem insert_withNames (s : Registry) (names : Interner) (d : Definition) :
    (s.withNames names).insert d = ((s.insert d).1, (s.insert d).2.withNames names) := by
  cases hs : s.isSuppressed d.name with
  | true => simp [Registry.insert, hs]
  | false =>
    cases hl : s.lookup? d.name with
    | some id => simp [Registry.insert, hs, hl]
    | none =>
      simp only [Registry.insert, isSuppressed_withNames, lookup?_withNames, hs, hl]
      rfl

theorem insertFixedArray_withNames (s : Registry) (names : Interner) (a : FixedArray) :
    (s.withNames names).insertFixedArray a =
      ((s.insertFixedArray a).1, (s.insertFixedArray a).2.withNames names) := by
  simp only [insertFixedArray, fixedArray?_withNames, insert_withNames]
  cases s.fixedArray? a.element a.length with
  | some id => rfl
  | none =>
    generalize s.insert (.fixedArray a) = r
    obtain ⟨_ | id, r⟩ := r <;> rfl

theorem structSlot_withNames (s : Registry) (names : Interner) (name : String) :
    (s.withNames names).structSlot name =
      ((s.structSlot name).1, (s.structSlot name).2.withNames names) := by
  simp only [structSlot, lookup?_withNames, insert_withNames]
  cases s.lookup? name <;> rfl

theorem beginStruct_withNames (s : Registry) (names : Interner) (id : DefId) (isUnion : Bool)
    (doc : Doc) : (s.withNames names).beginStruct id isUnion doc =
      ((s.beginStruct id isUnion doc).1, (s.beginStruct id isUnion doc).2.withNames names) := by
  simp only [beginStruct, get?_withNames]
  split
  · split <;> rfl
  · rfl

end Registry

open Registry

variable {α β : Type}

/-! ### Steps that do not look -/

/-- What the function answers, and what it makes of the definitions, does not depend on the names
that have been met. -/
def Registry.Blind (g : StateM Registry α) : Prop :=
  ∀ s names, ∃ names', g (s.withNames names) = ((g s).1, (g s).2.withNames names')

namespace Registry.Blind

variable {g : StateM Registry α} {f : α → StateM Registry β}

theorem pure (a : α) : Registry.Blind (Pure.pure a : StateM Registry α) :=
  fun _ names => ⟨names, rfl⟩

theorem bind (hg : Registry.Blind g) (hf : ∀ a, Registry.Blind (f a)) :
    Registry.Blind (g >>= f) := by
  intro s names
  obtain ⟨names', hn⟩ := hg s names
  change ∃ names'', f (g (s.withNames names)).1 (g (s.withNames names)).2 = _
  rw [hn]
  exact hf (g s).1 (g s).2 names'

theorem map (h : α → β) (hg : Registry.Blind g) : Registry.Blind (h <$> g) :=
  bind hg fun a => pure (h a)

theorem get_bind {g : Registry → StateM Registry α}
    (hg : ∀ s names, g (s.withNames names) = g s) (h : ∀ s, Registry.Blind (g s)) :
    Registry.Blind (get >>= g) := by
  intro s names
  change ∃ names', g (s.withNames names) (s.withNames names) = _
  rw [hg]
  exact h s s names

theorem modify {g : Registry → Registry}
    (hg : ∀ s names, ∃ names', g (s.withNames names) = (g s).withNames names') :
    Registry.Blind (MonadState.modifyGet fun r => (⟨⟩, g r) : StateM Registry PUnit) := by
  intro s names
  obtain ⟨names', hn⟩ := hg s names
  exact ⟨names', congrArg (Prod.mk PUnit.unit) hn⟩

theorem primitive (p : Primitive) :
    Registry.Blind (modifyGet (·.primitive p) : StateM Registry TypeRef) :=
  fun _ names => ⟨names.add p.name, rfl⟩

end Registry.Blind

/-- Both steps have come out the same, the names that have been met aside. -/
inductive LowerM.Alike :
    EStateM.Result LowerError Registry α → EStateM.Result LowerError Registry α → Prop where
  | ok (a : α) (s : Registry) (names : Interner) : Alike (.ok a s) (.ok a (s.withNames names))
  | error (e : LowerError) (s : Registry) (names : Interner) :
      Alike (.error e s) (.error e (s.withNames names))

/-- The step does not look at the names that have been met. -/
def LowerM.Blind (m : LowerM α) : Prop := ∀ s names, Alike (m s) (m (s.withNames names))

namespace LowerM.Blind

variable {m : LowerM α} {f : α → LowerM β}

theorem of_ok {a : α} {s t : Registry} (hm : m.Blind) (h : m s = .ok a t) (names : Interner) :
    ∃ names', m (s.withNames names) = .ok a (t.withNames names') := by
  have hs := hm s names
  rw [h] at hs
  generalize m (s.withNames names) = y at hs ⊢
  cases hs with
  | ok a t names' => exact ⟨names', rfl⟩

theorem pure (a : α) : Blind (Pure.pure a : LowerM α) := fun s names => .ok a s names

theorem throw (e : LowerError) : Blind (MonadExcept.throw e : LowerM α) :=
  fun s names => .error e s names

theorem bind (hm : m.Blind) (hf : ∀ a, (f a).Blind) : (m >>= f).Blind := by
  intro s names
  have h := hm s names
  change Alike (EStateM.bind m f s) (EStateM.bind m f (s.withNames names))
  unfold EStateM.bind
  generalize m s = x at h ⊢
  generalize m (s.withNames names) = y at h ⊢
  cases h with
  | ok a t names => exact hf a t names
  | error e t names => exact .error e t names

/-- What a step reads off the registry has to be there whatever names have been met. -/
theorem get_bind {g : Registry → LowerM α} (hg : ∀ s names, g (s.withNames names) = g s)
    (h : ∀ s, (g s).Blind) : Blind (get >>= g) := by
  intro s names
  change Alike (g s s) (g (s.withNames names) (s.withNames names))
  rw [hg]
  exact h s s names

theorem modifyGet {g : Registry → α × Registry} (hg : Registry.Blind g) :
    Blind (MonadState.modifyGet g : LowerM α) := by
  intro s names
  obtain ⟨names', hn⟩ := hg s names
  change Alike (.ok (g s).1 (g s).2) (.ok (g (s.withNames names)).1 (g (s.withNames names)).2)
  rw [hn]
  exact .ok _ _ names'

theorem insert (d : Definition) : (LowerM.insert d).Blind :=
  modifyGet fun s names => ⟨names, s.insert_withNames names d⟩

end LowerM.Blind

/-! ### Overrides -/

namespace TypeOverride

theorem blind_resolveHandle (name : String) : Registry.Blind (resolveHandle name) := by
  unfold resolveHandle
  refine .bind (.modify fun _ names => ⟨names.add name, rfl⟩) fun _ =>
    .get_bind (fun _ _ => rfl) fun s => ?_
  split
  · exact .bind (.primitive _) fun void =>
      .bind (.modify fun s names => ⟨names, by rw [insert_withNames]⟩) fun _ => .pure _
  · exact .pure _

mutual

/-- An override does not look at the names that have been met. -/
theorem blind_resolve? (ty : CType) : ∀ o : TypeOverride, Registry.Blind (o.resolve? ty)
  | .none => .pure _
  | .opaqueHandles start stop => by
    unfold TypeOverride.resolve?
    split
    · split
      · exact .map _ (blind_resolveHandle _)
      · exact .pure _
    · exact .pure _
  | .boolTypedef name => by
    unfold TypeOverride.resolve?
    split
    · split
      · exact .map _ (.primitive _)
      · exact .pure _
    · exact .pure _
  | .chain overrides => by
    rw [TypeOverride.resolve?]
    exact blind_resolveFirst? ty overrides

theorem blind_resolveFirst? (ty : CType) :
    ∀ os : List TypeOverride, Registry.Blind (resolveFirst? ty os)
  | [] => .pure _
  | o :: os => by
    rw [resolveFirst?]
    refine .bind (blind_resolve? ty o) fun answer => ?_
    cases answer with
    | some ref => exact .pure _
    | none => exact blind_resolveFirst? ty os

end

end TypeOverride

/-! ### The steps of resolution -/

/-- Nothing that resolution is put together from looks at the names that have been met. -/
theorem LowerM.rules_blind : LowerM.Rules (fun m => m.Blind) where
  pure := .pure
  throw := .throw
  bind := .bind
  mention name := .modifyGet fun _ names => ⟨names.add name, rfl⟩
  ifFree name _ _ hm hn := .get_bind (fun _ _ => rfl) fun s => by
    split
    · exact hm
    · exact hn
  resolveFirst o hint ty _ hr := .get_bind (fun _ _ => rfl) fun s => by
    split
    · exact .pure _
    · refine .bind (.modifyGet (o.blind_resolve? ty)) fun answer => ?_
      split
      · exact .pure _
      · exact hr
  pointerTo pointeeConst ty := .get_bind (fun _ _ => rfl) fun s => by
    split
    · exact .pure _
    · exact .pure _
  decayed ty := .get_bind (fun _ _ => rfl) fun _ => .pure _
  makeEnum fallback decl := by
    unfold makeEnum
    split
    · exact .pure _
    · refine .bind (.modifyGet fun _ names => ⟨names.add _, rfl⟩) fun _ =>
        .get_bind (fun _ _ => rfl) fun s => ?_
      split
      · exact .pure _
      split
      · exact .throw _
      · exact .bind (.insert _) fun _ => .pure _
  fixedArrayOf length element :=
    .get_bind (fun _ _ => rfl) fun s => .get_bind (fun _ _ => rfl) fun s' => by
      split
      · exact .pure _
      · refine .bind (.modifyGet fun _ names => ⟨names.add _, rfl⟩) fun _ t names => ?_
        change LowerM.Alike (.ok _ (t.insertFixedArray (t.newArray element length)).2)
          (.ok _ ((t.withNames names).insertFixedArray (t.newArray element length)).2)
        rw [insertFixedArray_withNames]
        exact .ok _ _ names
  structSlot name := .modifyGet fun s names => ⟨names, s.structSlot_withNames names name⟩
  beginStruct id isUnion doc :=
    .modifyGet fun s names => ⟨names, s.beginStruct_withNames names id isUnion doc⟩
  setFields id fields := .modifyGet fun _ names => ⟨names, rfl⟩
  insertDelegate d := .insert _

/-- Resolution does not look at the names that have been met. -/
theorem blind_resolve (o : TypeOverride) (ty : CType) (hint : Option String) (inStruct : Bool) :
    (resolve o hint inStruct ty).Blind :=
  LowerM.rules_blind.resolve o ty hint inStruct

end Bindery
