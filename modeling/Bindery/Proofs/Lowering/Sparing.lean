import Bindery.Proofs.Lowering.Reached
import Bindery.Proofs.Lowering.Rules

/-!
# What resolution leaves alone

Types lead to structs, enums, delegates and fixed arrays, and resolution registers nothing else.
`Spares k` says of a step that it leaves the definitions of kind `k` as they are, each in its slot,
whether it answers or fails. No step of resolution concerns macros or functions
(`Registry.steps_spares`), so all that is built from these steps spares them, and a property of a
lowerer that sees only definitions of such a kind outlasts enums and records (`Lowerer.Concerns`).
-/

namespace Bindery

/-- The kinds of what a type may lead to. -/
def Kind.isType : Kind → Bool
  | structDef | enumDef | delegateDef | fixedArray => true
  | macroDef | functionDef => false

namespace Registry

/-- The definitions of kind `k` are the same in both registries, and the second is consistent if the
first is. -/
structure Spares (k : Kind) (s t : Registry) : Prop where
  consistent : s.Consistent → t.Consistent
  get?_iff : ∀ {id d}, d.kind = k → (t.get? id = some d ↔ s.get? id = some d)

namespace Spares

variable {k : Kind} {s t u : Registry} {id : DefId} {d : Definition}

theorem refl (k : Kind) (s : Registry) : s.Spares k s := ⟨fun h => h, fun _ => Iff.rfl⟩

theorem trans (h : s.Spares k t) (h' : t.Spares k u) : s.Spares k u :=
  ⟨fun hs => h'.consistent (h.consistent hs), fun hd => (h'.get?_iff hd).trans (h.get?_iff hd)⟩

theorem mention (k : Kind) (s : Registry) (name : String) : s.Spares k (s.mention name) :=
  ⟨fun h => h.mention name, fun _ => Iff.rfl⟩

theorem insert (hd : d.kind ≠ k) : s.Spares k (s.insert d).2 := by
  refine ⟨fun h => h.insert d, fun {id d'} hd' => ?_⟩
  rcases insert_cases s d with ⟨-, hi⟩ | ⟨_, -, hi⟩ | ⟨-, -, hi⟩ <;> rw [hi]
  rw [get?_append]
  split
  · next he =>
    -- the slot is new, and what is in it is of another kind
    have hnone : s.get? ⟨s.slots.size⟩ = none := get?_eq_none_of_size_le (Nat.le_refl _)
    rw [he, hnone]
    refine ⟨fun hs => ?_, nofun⟩
    cases hs
    exact absurd hd' hd
  · exact Iff.rfl

theorem insertFixedArray (hk : k ≠ .fixedArray) (a : FixedArray) :
    s.Spares k (s.insertFixedArray a).2 := by
  rcases insertFixedArray_cases s a with ⟨id, -, hi⟩ | ⟨-, hi⟩ | ⟨id, r', hr, hi⟩
  · rw [hi]
    exact refl k s
  · rw [hi]
    exact refl k s
  · have hspares : s.Spares k (s.insert (.fixedArray a)).2 := insert fun he => hk he.symm
    rw [hr] at hspares
    refine ⟨fun h => h.insertFixedArray a, fun hd => ?_⟩
    rw [hi]
    exact hspares.get?_iff hd

theorem modify {f : Definition → Definition}
    (hf : ∀ d, s.get? id = some d → d.kind ≠ k ∧ (f d).kind ≠ k ∧ (f d).name = d.name) :
    s.Spares k (s.modify id f) := by
  refine ⟨fun h => h.modify id fun d hd => (hf d hd).2.2, fun {other d'} hd' => ?_⟩
  rw [get?_modify]
  split
  · next he =>
    subst he
    cases hd : s.get? other with
    | none => exact Iff.rfl
    | some d =>
      obtain ⟨hne, hne', -⟩ := hf d hd
      constructor
      · intro h
        cases h
        exact absurd hd' hne'
      · intro h
        cases h
        exact absurd hd' hne
  · exact Iff.rfl

theorem structSlot (hk : k ≠ .structDef) (name : String) : s.Spares k (s.structSlot name).2 := by
  unfold Registry.structSlot
  split
  · exact refl k s
  · exact insert fun he => hk he.symm

theorem beginStruct (hk : k ≠ .structDef) (id : DefId) (isUnion : Bool) (doc : Doc) :
    s.Spares k (s.beginStruct id isUnion doc).2 := by
  unfold Registry.beginStruct
  split
  · next d hd =>
    split
    · exact refl k s
    · refine modify fun d' hd' => ?_
      cases hd.symm.trans hd'
      exact ⟨fun he => hk he.symm, fun he => hk he.symm, rfl⟩
  · exact refl k s

theorem setFields (hk : k ≠ .structDef) (id : DefId) (fields : List Field) :
    s.Spares k (s.setFields id fields) := by
  by_cases hs : ∃ d, s.get? id = some (.structDef d)
  · obtain ⟨d, hd⟩ := hs
    refine modify fun d' hd' => ?_
    cases hd.symm.trans hd'
    exact ⟨fun he => hk he.symm, fun he => hk he.symm, rfl⟩
  · have hsame : ∀ other, (s.setFields id fields).get? other = s.get? other := by
      intro other
      rw [Registry.setFields, get?_modify]
      split
      · next he =>
        subst he
        cases hd : s.get? other with
        | none => rfl
        | some d =>
          cases d with
          | structDef d => exact absurd ⟨d, hd⟩ hs
          | _ => rfl
      · rfl
    exact ⟨fun h => h.of_names_eq rfl rfl rfl fun id => by rw [hsame], fun _ => by rw [hsame]⟩

theorem foldl {α : Type} {f : Registry → α → Registry} (hf : ∀ (s : Registry) a, s.Spares k (f s a))
    (as : List α) : s.Spares k (as.foldl f s) := by
  induction as generalizing s with
  | nil => exact refl k s
  | cons a as ih => exact (hf s a).trans ih

theorem insertMacro (hk : k ≠ .macroDef) (s : Registry) (decl : MacroDecl) :
    s.Spares k (s.insertMacro decl) :=
  (mention k s decl.name).trans (insert fun he => hk he.symm)

theorem classifyMacro (hk : k ≠ .macroDef) (s : Registry) (id : DefId) :
    s.Spares k (s.classifyMacro id) := by
  unfold Registry.classifyMacro
  split
  · next m hm =>
    split
    · refine modify fun d hd => ?_
      cases hm.symm.trans hd
      exact ⟨fun he => hk he.symm, fun he => hk he.symm, rfl⟩
    · exact refl k s
  · exact refl k s

theorem lowerMacros (hk : k ≠ .macroDef) (s : Registry) (skips : MacroDecl → Bool)
    (decls : List MacroDecl) : s.Spares k (s.lowerMacros skips decls) :=
  (foldl (insertMacro hk) _).trans (foldl (classifyMacro hk) _)

/-- What is spared is found as before. -/
theorem find?_iff (h : s.Spares k t) (hs : s.Consistent) {n : String} (hd : d.kind = k) :
    t.find? n = some d ↔ s.find? n = some d := by
  rw [hs.find?_eq_some_iff, (h.consistent hs).find?_eq_some_iff]
  simp only [h.get?_iff hd]

end Spares

end Registry

open Registry

variable {α : Type} {k : Kind}

/-! ### Steps on the registry -/

/-- The step spares the definitions of kind `k`, whether it answers or fails. -/
def LowerM.Spares (k : Kind) (m : LowerM α) : Prop :=
  ∀ s, match m s with
    | .ok _ t => s.Spares k t
    | .error _ t => s.Spares k t

namespace LowerM.Spares

variable {m : LowerM α}

theorem of_ok (h : m.Spares k) {s t : Registry} {a : α} (hm : m s = .ok a t) : s.Spares k t :=
  LowerM.Keeps.of_ok h hm

theorem of_error (h : m.Spares k) {s t : Registry} {e : LowerError} (hm : m s = .error e t) :
    s.Spares k t :=
  LowerM.Keeps.of_error h hm

theorem mention (k : Kind) (name : String) : (LowerM.mention name).Spares k :=
  fun s => .mention k s name

end LowerM.Spares

theorem ne_of_isType (hk : k.isType = false) {d : Definition} (hd : d.kind.isType = true) :
    d.kind ≠ k := by
  rintro rfl
  rw [hk] at hd
  cases hd

/-- Nothing that resolution does to a registry concerns macros and functions. -/
theorem Registry.steps_spares (hk : k.isType = false) : Steps (Registry.Spares k) :=
  have hstruct : k ≠ .structDef := fun he => by
    rw [he] at hk
    cases hk
  have harray : k ≠ .fixedArray := fun he => by
    rw [he] at hk
    cases hk
  { refl := .refl k
    trans := .trans
    mention := .mention k
    handle := fun _ _ _ => .insert (ne_of_isType hk rfl)
    insertEnum := fun _ _ => .insert (ne_of_isType hk rfl)
    insertDelegate := fun _ _ => .insert (ne_of_isType hk rfl)
    insertFixedArray := fun _ _ _ => .insertFixedArray harray _
    structSlot := fun _ name => .structSlot hstruct name
    beginStruct := fun _ id isUnion doc => .beginStruct hstruct id isUnion doc
    setFields := fun _ id fields => .setFields hstruct id fields }

/-! ### The steps of resolution -/

theorem spares_makeEnum (hk : k.isType = false) (fallback : Option String) (decl : EnumDecl) :
    (makeEnum fallback decl).Spares k :=
  (steps_spares hk).rules.makeEnum fallback decl

theorem spares_makeStruct (hk : k.isType = false) (o : TypeOverride) (decl : RecordDecl)
    (fallback : Option String) : (makeStruct o fallback decl).Spares k :=
  (steps_spares hk).rules.makeStruct o decl fallback

theorem spares_lowerParams (hk : k.isType = false) (o : TypeOverride) (decls : List ParamDecl)
    (owner : String) (i : Nat) : (lowerParams o owner i decls).Spares k :=
  (steps_spares hk).rules.lowerParams o decls owner i

theorem spares_resolveInSignature (hk : k.isType = false) (o : TypeOverride)
    (hint : Option String) (ty : CType) : (resolveInSignature o hint ty).Spares k :=
  (steps_spares hk).rules.resolveInSignature o hint ty

/-- To export a function spares everything but functions. -/
theorem spares_exportFunction (o : TypeOverride) (e : Export) (decl : FunctionDecl) :
    (Lowerer.exportFunction o e decl).Spares .macroDef := by
  have hsteps : Steps (Registry.Spares .macroDef) := steps_spares rfl
  refine hsteps.rules.bind (hsteps.rules.resolveInSignature o none _) fun _ =>
    hsteps.rules.bind (hsteps.rules.lowerParams o _ _ _) fun _ =>
      hsteps.rules.bind (hsteps.rules.mention _) fun _ => ?_
  exact hsteps.rules.bind (.modifyGet fun _ => .insert nofun) fun _ => hsteps.rules.pure _

/-! ### The steps of a header -/

namespace Lowerer

/-- The property sees only the definitions of kind `k` in the registry. -/
def Concerns (k : Kind) (I : Lowerer → Prop) : Prop :=
  ∀ {l : Lowerer} {t : Registry}, I l → l.registry.Spares k t → I { l with registry := t }

namespace Concerns

variable {I : Lowerer → Prop}

theorem onRegistry (h : Concerns k I) {m : LowerM α} (hm : m.Spares k) :
    Preserves I (onRegistry m) := by
  intro l hl
  unfold after Lowerer.onRegistry
  cases hs : m l.registry with
  | ok a t => exact h hl (hm.of_ok hs)
  | error e t => exact h hl (hm.of_error hs)

theorem lowerEnum (h : Concerns k I) (hk : k.isType = false) (decl : EnumDecl) :
    Preserves I (lowerEnum decl) :=
  .lowerEnum (h.onRegistry (spares_makeEnum hk none decl))

theorem lowerRecord (h : Concerns k I) (hk : k.isType = false) (fallback : Option String)
    (decl : RecordDecl) : Preserves I (lowerRecord fallback decl) :=
  .lowerRecord fun l _ => h.onRegistry (spares_makeStruct hk l.override decl fallback)

end Concerns

end Lowerer

end Bindery
