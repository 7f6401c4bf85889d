import Bindery.Proofs.Lowering.ArrayName
import Bindery.Proofs.Registry.Consistent

/-!
# Well-typed registries

In a well-typed registry every type reference of a definition leads somewhere, no signature holds a
fixed array itself, and a fixed array goes by the name that its element and length give it.
`Grows` says what a registry becomes while declarations are lowered: definitions are added, structs
are filled in and macros are classified, and nothing else changes. A reference that leads somewhere
then does so for good. `Advances` is growth into a well-typed registry.
-/

namespace Bindery

/-- The type references of a signature: return type and parameter types. -/
def Definition.signatureRefs : Definition → List TypeRef
  | functionDef d => d.signature.returnType :: d.signature.params.map Param.ty
  | delegateDef d => d.signature.returnType :: d.signature.params.map Param.ty
  | _ => []

/-- What may become of a definition while declarations are lowered. -/
inductive Definition.Becomes : Definition → Definition → Prop where
  | refl (d : Definition) : Becomes d d
  /-- A struct is filled in; what is complete stays so. -/
  | ofStruct {d d' : StructDef} (hn : d'.label.name = d.label.name)
      (hc : d.complete = true → d'.complete = true) : Becomes (structDef d) (structDef d')
  /-- A macro is classified. -/
  | ofMacro {d d' : MacroDef} (hn : d'.label.name = d.label.name) :
      Becomes (macroDef d) (macroDef d')

namespace Definition.Becomes

variable {d d' d'' : Definition}

theorem name_eq (h : Becomes d d') : d'.name = d.name := by
  cases h with
  | refl => rfl
  | ofStruct hn _ => exact hn
  | ofMacro hn => exact hn

theorem kind_eq (h : Becomes d d') : d'.kind = d.kind := by
  cases h <;> rfl

theorem eq_of_fixedArray {a : FixedArray} (h : Becomes d (fixedArray a)) : d = fixedArray a := by
  cases h
  rfl

theorem trans (h : Becomes d d') (h' : Becomes d' d'') : Becomes d d'' := by
  cases h with
  | refl => exact h'
  | ofStruct hn hc =>
    cases h' with
    | refl => exact .ofStruct hn hc
    | ofStruct hn' hc' => exact .ofStruct (hn'.trans hn) (hc' ∘ hc)
  | ofMacro hn =>
    cases h' with
    | refl => exact .ofMacro hn
    | ofMacro hn' => exact .ofMacro (hn'.trans hn)

end Definition.Becomes

/-- The reference of a structure, without a display name. -/
def TypeKey.ref (key : TypeKey) : TypeRef := ⟨key.base, key.modifiers, none⟩

namespace Registry

variable {r s t u : Registry} {id : DefId} {d d' : Definition} {n : String} {ty : TypeRef}

theorem kindOf?_eq_some_iff (h : r.Consistent) {k : Kind} :
    r.kindOf? n = some k ↔ ∃ id d, r.get? id = some d ∧ d.name = n ∧ d.kind = k := by
  simp only [kindOf?, Option.map_eq_some_iff, h.find?_eq_some_iff]
  constructor
  · rintro ⟨d, ⟨id, hd, hn⟩, hk⟩
    exact ⟨id, d, hd, hn, hk⟩
  · rintro ⟨id, d, hd, hn, hk⟩
    exact ⟨d, ⟨id, hd, hn⟩, hk⟩

/-! ### Growth -/

/-- What a registry becomes while declarations are lowered. -/
structure Grows (s t : Registry) : Prop where
  suppressed : t.suppressed = s.suppressed
  becomes : ∀ {id d}, s.get? id = some d → ∃ d', t.get? id = some d' ∧ d.Becomes d'

namespace Grows

theorem refl (s : Registry) : s.Grows s := ⟨rfl, fun hd => ⟨_, hd, .refl _⟩⟩

theorem trans (h : s.Grows t) (h' : t.Grows u) : s.Grows u := by
  refine ⟨h'.suppressed.trans h.suppressed, fun hd => ?_⟩
  obtain ⟨d', hd', hb⟩ := h.becomes hd
  obtain ⟨d'', hd'', hb'⟩ := h'.becomes hd'
  exact ⟨d'', hd'', hb.trans hb'⟩

theorem append (s : Registry) (d : Definition) : s.Grows (s.append d) := by
  refine ⟨rfl, fun {id d'} hd => ⟨d', ?_, .refl d'⟩⟩
  rw [get?_append, if_neg, hd]
  rintro rfl
  exact Nat.lt_irrefl _ (index_lt_of_get? hd)

theorem insert (s : Registry) (d : Definition) : s.Grows (s.insert d).2 := by
  rcases insert_cases s d with ⟨-, hi⟩ | ⟨id, -, hi⟩ | ⟨-, -, hi⟩ <;> rw [hi]
  · exact refl s
  · exact refl s
  · exact append s d

theorem modify (id : DefId) {f : Definition → Definition}
    (hf : ∀ d, s.get? id = some d → d.Becomes (f d)) : s.Grows (s.modify id f) := by
  refine ⟨rfl, fun {other d} hd => ?_⟩
  rw [get?_modify]
  split
  · next he => exact ⟨f d, by rw [hd]; rfl, hf d (he ▸ hd)⟩
  · exact ⟨d, hd, .refl d⟩

theorem isSuppressed (h : s.Grows t) (n : String) : t.isSuppressed n = s.isSuppressed n := by
  rw [Registry.isSuppressed, Registry.isSuppressed, h.suppressed]

theorem find? (h : s.Grows t) (hs : s.Consistent) (ht : t.Consistent) (hf : s.find? n = some d) :
    ∃ d', t.find? n = some d' ∧ d.Becomes d' := by
  obtain ⟨id, hd, rfl⟩ := hs.find?_eq_some_iff.mp hf
  obtain ⟨d', hd', hb⟩ := h.becomes hd
  exact ⟨d', ht.find?_eq_some_iff.mpr ⟨id, hd', hb.name_eq⟩, hb⟩

theorem kindOf? (h : s.Grows t) (hs : s.Consistent) (ht : t.Consistent) {k : Kind}
    (hk : s.kindOf? n = some k) : t.kindOf? n = some k := by
  obtain ⟨d, hf, rfl⟩ := Option.map_eq_some_iff.mp hk
  obtain ⟨d', hf', hb⟩ := h.find? hs ht hf
  rw [Registry.kindOf?, hf', ← hb.kind_eq]
  rfl

theorem lookup?_isSome (h : s.Grows t) (hs : s.Consistent) (ht : t.Consistent)
    (hl : (s.lookup? n).isSome = true) : (t.lookup? n).isSome = true := by
  rw [hs.lookup?_isSome] at hl
  obtain ⟨d, hf⟩ := Option.isSome_iff_exists.mp hl
  obtain ⟨d', hf', -⟩ := h.find? hs ht hf
  rw [ht.lookup?_isSome, hf']
  rfl

end Grows

/-! ### References -/

/-- The name stands for a definition or a primitive type, or it is refused. -/
def Stands (r : Registry) (name : String) : Prop :=
  (r.find? name).isSome = true ∨ (Primitive.ofName? name).isSome = true ∨ r.isSuppressed name = true

/-- The name is registered or refused, so nothing new is registered under it. -/
def Taken (r : Registry) (name : String) : Prop :=
  (r.find? name).isSome = true ∨ r.isSuppressed name = true

/-- What a record declaration leaves: the name is taken, and when the declaration was complete, not
by a struct that waits for its fields. -/
structure Declared (r : Registry) (name : String) (complete : Bool) : Prop where
  taken : r.Taken name
  filled : complete = true → ∀ d, r.find? name = some (.structDef d) → d.complete = true

/-- The type is not a fixed array itself. -/
def Passes (r : Registry) (ty : TypeRef) : Prop :=
  ty.isPlain = true → r.kindOf? ty.base ≠ some .fixedArray

/-- Every fixed array goes by the name of its structure. -/
def ArraysNamed (r : Registry) : Prop :=
  ∀ {id a}, r.get? id = some (.fixedArray a) → a.label.name = fixedArrayName a.element a.length

theorem Taken.stands (h : r.Taken n) : r.Stands n := h.elim .inl (.inr ∘ .inr)

theorem Taken.grow (h : s.Taken n) (hg : s.Grows t) (hs : s.Consistent) (ht : t.Consistent) :
    t.Taken n := by
  rcases h with hf | hr
  · obtain ⟨d, hf⟩ := Option.isSome_iff_exists.mp hf
    obtain ⟨d', hf', -⟩ := hg.find? hs ht hf
    exact .inl (by rw [hf']; rfl)
  · exact .inr (by rwa [hg.isSuppressed])

theorem Taken.of_lookup? (h : r.Consistent) (hl : (r.lookup? n).isSome = true) : r.Taken n :=
  .inl (h.lookup?_isSome ▸ hl)

theorem Taken.insert (h : s.Consistent) (d : Definition) : (s.insert d).2.Taken d.name := by
  cases hs : s.isSuppressed d.name with
  | true => exact .inr (by rwa [Registry.insert, if_pos hs])
  | false => exact .inl (by rw [h.find?_insert]; simp [hs])

/-- Nothing is registered under a taken name. -/
theorem insert_of_taken (h : r.Consistent) (ht : r.Taken d.name) :
    r.insert d = (r.lookup? d.name, r) := by
  rcases insert_cases r d with ⟨hs, hi⟩ | ⟨id, hl, hi⟩ | ⟨hs, hl, -⟩
  · rw [hi, h.refused hs]
  · rw [hi, hl]
  · rcases ht with hf | hr
    · rw [← h.lookup?_isSome, hl] at hf
      cases hf
    · rw [hs] at hr
      cases hr

theorem Declared.grow {complete : Bool} (h : s.Declared n complete) (hg : s.Grows t)
    (hs : s.Consistent) (ht : t.Consistent) : t.Declared n complete := by
  refine ⟨h.taken.grow hg hs ht, fun hc d' hf' => ?_⟩
  rcases h.taken with hf | hr
  · obtain ⟨d, hf⟩ := Option.isSome_iff_exists.mp hf
    obtain ⟨d'', hf'', hb⟩ := hg.find? hs ht hf
    cases hf'.symm.trans hf''
    cases hb with
    | refl => exact h.filled hc d' hf
    | ofStruct _ hcomplete => exact hcomplete (h.filled hc _ hf)
  · obtain ⟨id, hd, rfl⟩ := ht.find?_eq_some_iff.mp hf'
    have := ht.not_suppressed hd
    rw [hg.isSuppressed, hr] at this
    cases this

theorem Stands.grow (h : s.Stands n) (hg : s.Grows t) (hs : s.Consistent) (ht : t.Consistent) :
    t.Stands n := by
  rcases h with hf | hp | hr
  · exact (Taken.grow (.inl hf) hg hs ht).stands
  · exact .inr (.inl hp)
  · exact (Taken.grow (.inr hr) hg hs ht).stands

/-- What a name stands for does not become a fixed array later. -/
theorem Passes.grow (h : s.Passes ty) (hb : s.Stands ty.base) (hg : s.Grows t) (hs : s.Consistent)
    (ht : t.Consistent) (hn : t.ArraysNamed) : t.Passes ty := by
  intro hp hk
  obtain ⟨id, d, hd, hname, hkind⟩ := (kindOf?_eq_some_iff ht).mp hk
  cases d <;> cases hkind
  next a =>
  -- a definition that was there keeps its kind, and no array is called like a primitive type
  rcases hb with hf | hprim | hr
  · obtain ⟨d, hf⟩ := Option.isSome_iff_exists.mp hf
    obtain ⟨id', hd', hname'⟩ := hs.find?_eq_some_iff.mp hf
    obtain ⟨d', hd'', hb⟩ := hg.becomes hd'
    have hid : id = id' := ht.id_eq hd hd'' (hname.trans (hb.name_eq.trans hname').symm)
    subst hid
    cases hd.symm.trans hd''
    obtain rfl := hb.eq_of_fixedArray
    exact h hp ((kindOf?_eq_some_iff hs).mpr ⟨id, _, hd', hname', rfl⟩)
  · have hname : a.label.name = ty.base := hname
    rw [← hname, hn hd, Primitive.ofName?_fixedArrayName] at hprim
    cases hprim
  · have := ht.not_suppressed hd
    rw [hname, hg.isSuppressed, hr] at this
    cases this

/-- Well-typed registries. -/
structure WellTyped (r : Registry) : Prop where
  consistent : r.Consistent
  /-- Every type reference leads somewhere. -/
  stands : ∀ {id d ty}, r.get? id = some d → ty ∈ d.typeRefs → r.Stands ty.base
  /-- No signature holds a fixed array itself. -/
  passes : ∀ {id d ty}, r.get? id = some d → ty ∈ d.signatureRefs → r.Passes ty
  arraysNamed : r.ArraysNamed
  /-- What is found as a fixed array goes by its name, be it one or not. -/
  arrays : ∀ {key length id}, ((key, length), id) ∈ r.arrays →
    ∃ d, r.get? id = some d ∧ d.name = fixedArrayName key.ref length

/-- The registry takes the definition in: its references lead somewhere. -/
structure Admits (r : Registry) (d : Definition) : Prop where
  stands : ∀ ty ∈ d.typeRefs, r.Stands ty.base
  passes : ∀ ty ∈ d.signatureRefs, r.Passes ty
  arrayNamed : ∀ a, d = .fixedArray a → a.label.name = fixedArrayName a.element a.length

/-- Growth into a well-typed registry. -/
structure Advances (s t : Registry) : Prop where
  wellTyped : t.WellTyped
  grows : s.Grows t

theorem signatureRefs_subset (d : Definition) : d.signatureRefs ⊆ d.typeRefs := by
  cases d <;> simp [Definition.signatureRefs, Definition.typeRefs]

namespace WellTyped

/-- What is found as a fixed array goes by its name. -/
theorem get?_of_fixedArray? (h : r.WellTyped) {element : TypeRef} {length : Nat}
    (hf : r.fixedArray? element length = some id) :
    ∃ d, r.get? id = some d ∧ d.name = fixedArrayName element length := by
  obtain ⟨l₁, l₂, he, -⟩ := List.lookup_eq_some_iff.mp hf
  obtain ⟨d, hd, hn⟩ := h.arrays (he ▸ List.mem_append_right _ (List.mem_cons_self ..))
  exact ⟨d, hd, hn.trans (fixedArrayName_congr rfl length)⟩

theorem find?_insertFixedArray (h : r.WellTyped) {a : FixedArray}
    (hn : a.label.name = fixedArrayName a.element a.length) (n : String) :
    (r.insertFixedArray a).2.find? n = (r.find? n).or
      (if n = a.label.name ∧ r.isSuppressed n = false then some (.fixedArray a) else none) := by
  rcases insertFixedArray_cases r a with ⟨id, hf, hi⟩ | ⟨hs, hi⟩ | ⟨id, r', hr, hi⟩ <;> rw [hi]
  · split
    · next he =>
      obtain ⟨d, hd, hd'⟩ := h.get?_of_fixedArray? hf
      rw [he.1, hn, ← hd', h.consistent.find?_name hd]
      rfl
    · rw [Option.or_none]
  · rw [if_neg, Option.or_none]
    rintro ⟨rfl, hs'⟩
    rw [hs] at hs'
    cases hs'
  · have hf := h.consistent.find?_insert (.fixedArray a) n
    rw [hr] at hf
    exact hf

theorem admits (h : r.WellTyped) (hd : r.get? id = some d) : r.Admits d :=
  ⟨fun _ => h.stands hd, fun _ => h.passes hd, fun _ he => h.arraysNamed (he ▸ hd)⟩

/-- A registry stays well-typed when what is new or changed in it was admitted before. -/
theorem advance (h : s.WellTyped) (hg : s.Grows t) (ht : t.Consistent)
    (hd : ∀ {id d}, t.get? id = some d → s.Admits d)
    (ha : ∀ {key length id}, ((key, length), id) ∈ t.arrays →
      ∃ d, t.get? id = some d ∧ d.name = fixedArrayName key.ref length) : s.Advances t := by
  have hn : t.ArraysNamed := fun hd' => (hd hd').arrayNamed _ rfl
  refine ⟨⟨ht, fun hd' hm => ?_, fun hd' hm => ?_, hn, ha⟩, hg⟩
  · exact ((hd hd').stands _ hm).grow hg h.consistent ht
  · exact ((hd hd').passes _ hm).grow ((hd hd').stands _ (signatureRefs_subset _ hm)) hg
      h.consistent ht hn

end WellTyped

namespace Advances

theorem refl (h : s.WellTyped) : s.Advances s := ⟨h, .refl s⟩

theorem trans (h : s.Advances t) (h' : t.Advances u) : s.Advances u :=
  ⟨h'.wellTyped, h.grows.trans h'.grows⟩

theorem mention (h : s.WellTyped) (name : String) : s.Advances (s.mention name) :=
  h.advance ⟨rfl, fun hd => ⟨_, hd, .refl _⟩⟩ (h.consistent.mention name) h.admits h.arrays

theorem append (h : s.WellTyped) (ha : s.Admits d) (hs : s.isSuppressed d.name = false)
    (hn : s.lookup? d.name = none) : s.Advances (s.append d) := by
  have hg := Grows.append s d
  refine h.advance hg (h.consistent.append hs hn) (fun {id d'} hd => ?_) fun hk => ?_
  · rw [get?_append] at hd
    split at hd
    · cases hd
      exact ha
    · exact h.admits hd
  · obtain ⟨d', hd, hname⟩ := h.arrays hk
    obtain ⟨d'', hd', hb⟩ := hg.becomes hd
    exact ⟨d'', hd', hb.name_eq.trans hname⟩

theorem insert (h : s.WellTyped) (ha : s.Admits d) : s.Advances (s.insert d).2 := by
  rcases insert_cases s d with ⟨-, hi⟩ | ⟨id, -, hi⟩ | ⟨hs, hn, hi⟩ <;> rw [hi]
  · exact refl h
  · exact refl h
  · exact append h ha hs hn

theorem noteArray (h : s.WellTyped) {a : FixedArray} (hd : s.get? id = some d)
    (hn : d.name = fixedArrayName a.element a.length) : s.Advances (s.noteArray a id) := by
  refine h.advance ⟨rfl, fun hd => ⟨_, hd, .refl _⟩⟩ (h.consistent.noteArray hd a) h.admits
    fun {key length id'} hk => ?_
  rcases List.mem_cons.mp hk with he | hk
  · cases he
    exact ⟨d, hd, hn⟩
  · exact h.arrays hk

theorem insertFixedArray (h : s.WellTyped) {a : FixedArray} (hs : s.Stands a.element.base)
    (hn : a.label.name = fixedArrayName a.element a.length) :
    s.Advances (s.insertFixedArray a).2 := by
  rcases insertFixedArray_cases s a with ⟨id, -, hi⟩ | ⟨-, hi⟩ | ⟨id, r', hr, hi⟩ <;> rw [hi]
  · exact refl h
  · exact refl h
  · have ha : s.Admits (.fixedArray a) :=
      ⟨fun ty hm => by rwa [List.mem_singleton.mp hm], nofun, fun _ he => by cases he; exact hn⟩
    have hadv := insert h ha
    obtain ⟨d, hd, hname⟩ := h.consistent.get?_insert hr
    rw [hr] at hadv
    exact hadv.trans (noteArray hadv.wellTyped hd (hname.trans hn))

theorem modify (h : s.WellTyped) (id : DefId) {f : Definition → Definition}
    (hf : ∀ d, s.get? id = some d → d.Becomes (f d) ∧ s.Admits (f d)) :
    s.Advances (s.modify id f) := by
  have hgrows : s.Grows (s.modify id f) := .modify id fun d hd => (hf d hd).1
  refine h.advance hgrows (h.consistent.modify id fun d hd => (hf d hd).1.name_eq)
    (fun {other d} hd => ?_) fun hk => ?_
  · rw [get?_modify] at hd
    split at hd
    · next he =>
      obtain ⟨d₀, hd₀, rfl⟩ := Option.map_eq_some_iff.mp hd
      exact (hf d₀ (he ▸ hd₀)).2
    · exact h.admits hd
  · obtain ⟨d, hd, hname⟩ := h.arrays hk
    obtain ⟨d', hd', hb⟩ := hgrows.becomes hd
    exact ⟨d', hd', hb.name_eq.trans hname⟩

end Advances

namespace WellTyped

theorem empty : Registry.empty.WellTyped := ⟨.empty, nofun, nofun, nofun, nofun⟩

/-- Suppression removes a definition and refuses its name, so no reference is lost. -/
theorem suppress (h : r.WellTyped) (name : String) : (r.suppress name).WellTyped := by
  have hget : ∀ {id d}, (r.suppress name).get? id = some d →
      r.get? id = some d ∧ r.lookup? name ≠ some id := fun hd => by
    rw [get?_suppress] at hd
    split at hd
    · cases hd
    · next hne => exact ⟨hd, hne⟩
  have hstands : ∀ {n}, r.Stands n → (r.suppress name).Stands n := fun {n} hn => by
    by_cases he : n = name
    · exact .inr (.inr (by simp [isSuppressed_suppress, he]))
    · rcases hn with hf | hp | hr
      · exact .inl (by rwa [h.consistent.find?_suppress, if_neg he])
      · exact .inr (.inl hp)
      · exact .inr (.inr (by simp [isSuppressed_suppress, hr]))
  have hpasses : ∀ {ty}, r.Passes ty → (r.suppress name).Passes ty := fun {ty} hty hp hk => by
    rw [kindOf?, h.consistent.find?_suppress] at hk
    split at hk
    · cases hk
    · exact hty hp hk
  refine ⟨h.consistent.suppress name, fun hd hm => hstands (h.stands (hget hd).1 hm),
    fun hd hm => hpasses (h.passes (hget hd).1 hm), fun hd => h.arraysNamed (hget hd).1,
    fun hk => ?_⟩
  obtain ⟨hk, hne⟩ := mem_arrays_suppress hk
  obtain ⟨d, hd, hn⟩ := h.arrays hk
  exact ⟨d, by rw [get?_suppress, if_neg hne, hd], hn⟩

end WellTyped

end Registry

end Bindery
