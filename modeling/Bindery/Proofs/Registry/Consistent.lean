import Bindery.Proofs.Registry.Slots

/-!
# Names, slots and arrays kept in step

A registry has four collections: the slots, the index of names, the refused names and the index of
fixed arrays. `Consistent` says how they agree: a name leads to a slot just when the definition
there has that name, a refused name leads nowhere, and a fixed array is found in an occupied slot.
Every operation is first described by what it does to `lookup?` and `get?`, and keeps `Consistent`
for that reason alone. A consistent registry is well indexed.
-/

namespace Bindery.Registry

variable {r : Registry} {id other : DefId} {d d' : Definition} {n name : String}

/-! ### What the operations do -/

theorem get?_eq_none_of_size_le (h : r.slots.size ≤ id.index) : r.get? id = none := by
  simp [get?, Array.getElem?_eq_none h]

theorem index_lt_of_get? (h : r.get? id = some d) : id.index < r.slots.size :=
  Nat.lt_of_not_le fun hle => by rw [get?_eq_none_of_size_le hle] at h; cases h

/-- The registry with the definition in a slot of its own, after all others. -/
def append (r : Registry) (d : Definition) : Registry :=
  { r with slots := r.slots.push (some d), index := (d.name, ⟨r.slots.size⟩) :: r.index }

theorem lookup?_append : (r.append d).lookup? n =
    if n = d.name then some ⟨r.slots.size⟩ else r.lookup? n := by
  simp only [append, lookup?, List.lookup_cons]
  by_cases he : n = d.name
  · simp [he]
  · simp [he, beq_eq_false_iff_ne.mpr he]

theorem get?_append :
    (r.append d).get? id = if id = ⟨r.slots.size⟩ then some d else r.get? id := by
  obtain ⟨i⟩ := id
  by_cases hi : i = r.slots.size
  · subst hi
    simp [append, get?]
  · simp [append, get?, Array.getElem?_push, hi]

theorem lookup_filter_ne {name : String} (l : List (String × DefId)) :
    (l.filter (·.1 != name)).lookup n = if n = name then none else l.lookup n := by
  induction l with
  | nil => simp
  | cons x l ih =>
    obtain ⟨m, id⟩ := x
    by_cases hm : m = name
    · subst hm
      rw [List.filter_cons_of_neg (by simp), ih, List.lookup_cons]
      by_cases hn : n = m
      · simp [hn]
      · simp [hn, beq_eq_false_iff_ne.mpr hn]
    · rw [List.filter_cons_of_pos (by simpa using hm), List.lookup_cons, ih, List.lookup_cons]
      by_cases hn : n = m
      · subst hn
        simp [hm]
      · simp [beq_eq_false_iff_ne.mpr hn]

/-- The registry without the name, which leads to the slot, and without what is there. -/
def vacate (r : Registry) (name : String) (id : DefId) : Registry :=
  { r with
    slots := r.slots.modify id.index fun _ => none
    index := r.index.filter (·.1 != name) }

theorem get?_vacate (r : Registry) (name : String) (id other : DefId) :
    (r.vacate name id).get? other = if other = id then none else r.get? other := by
  split
  · next he =>
    subst he
    cases hs : r.slots[other.index]? <;> simp [vacate, get?, Array.getElem?_modify, hs]
  · next he => simp [vacate, get?, Array.getElem?_modify, index_ne he]

theorem lookup?_vacate (r : Registry) (name : String) (id : DefId) (n : String) :
    (r.vacate name id).lookup? n = if n = name then none else r.lookup? n :=
  lookup_filter_ne r.index

theorem get?_modify {f : Definition → Definition} :
    (r.modify id f).get? other = if other = id then (r.get? other).map f else r.get? other := by
  split
  · next he =>
    subst he
    cases hs : r.slots[other.index]? with
    | none => simp [modify, get?, Array.getElem?_modify, hs]
    | some slot => cases slot <;> simp [modify, get?, Array.getElem?_modify, hs]
  · next he => simp [modify, get?, Array.getElem?_modify, index_ne he]

/-- The three ways in which a registration ends. -/
theorem insert_cases (r : Registry) (d : Definition) :
    (r.isSuppressed d.name = true ∧ r.insert d = (none, r)) ∨
    (∃ id, r.lookup? d.name = some id ∧ r.insert d = (some id, r)) ∨
    (r.isSuppressed d.name = false ∧ r.lookup? d.name = none ∧
      r.insert d = (some ⟨r.slots.size⟩, r.append d)) := by
  unfold insert
  cases hs : r.isSuppressed d.name with
  | true => exact .inl ⟨rfl, rfl⟩
  | false =>
    cases hl : r.lookup? d.name with
    | some id => exact .inr (.inl ⟨id, rfl, rfl⟩)
    | none => exact .inr (.inr ⟨rfl, rfl, rfl⟩)

/-- What is found in a slot after a registration is new or was there. -/
theorem of_get?_insert (h : (r.insert d).2.get? id = some d') : d' = d ∨ r.get? id = some d' := by
  rcases insert_cases r d with ⟨-, hi⟩ | ⟨_, -, hi⟩ | ⟨-, -, hi⟩ <;> rw [hi] at h
  · exact .inr h
  · exact .inr h
  · rw [get?_append] at h
    split at h
    · exact .inl (Option.some.inj h).symm
    · exact .inr h

/-- The registry in which the array of that element and length is found in the slot. -/
def noteArray (r : Registry) (d : FixedArray) (id : DefId) : Registry :=
  { r with arrays := ((d.element.key, d.length), id) :: r.arrays }

/-- A fixed array is found by its structure, or it is registered like any definition, and its
structure leads to the slot of its name. -/
theorem insertFixedArray_cases (r : Registry) (d : FixedArray) :
    (∃ id, r.fixedArray? d.element d.length = some id ∧ r.insertFixedArray d = (some id, r)) ∨
    (r.isSuppressed d.label.name = true ∧ r.insertFixedArray d = (none, r)) ∨
    (∃ id r', r.insert (.fixedArray d) = (some id, r') ∧
      r.insertFixedArray d = (some id, r'.noteArray d id)) := by
  unfold insertFixedArray
  cases hf : r.fixedArray? d.element d.length with
  | some id => exact .inl ⟨id, rfl, rfl⟩
  | none =>
    rcases insert_cases r (.fixedArray d) with ⟨hs, hi⟩ | ⟨id, -, hi⟩ | ⟨-, -, hi⟩
    · exact .inr (.inl ⟨hs, by rw [hi]⟩)
    · exact .inr (.inr ⟨id, r, hi, by rw [hi]; rfl⟩)
    · exact .inr (.inr ⟨_, _, hi, by rw [hi]; rfl⟩)

/-- The registry that refuses the name, before what has the name is removed. -/
def refuse (r : Registry) (name : String) : Registry :=
  { r.mention name with suppressed := name :: r.suppressed }

/-- The registry in which no array leads to the slot. -/
def forgetArrays (r : Registry) (id : DefId) : Registry :=
  { r with arrays := r.arrays.filter (·.2 != id) }

theorem suppress_cases (r : Registry) (name : String) :
    (r.lookup? name = none ∧ r.suppress name = r.refuse name) ∨
    (∃ id, r.lookup? name = some id ∧
      r.suppress name = ((r.refuse name).vacate name id).forgetArrays id) := by
  unfold suppress
  dsimp only
  split
  · next hl => exact .inl ⟨hl, rfl⟩
  · next id hl => exact .inr ⟨id, hl, rfl⟩

theorem lookup?_suppress (r : Registry) (name n : String) :
    (r.suppress name).lookup? n = if n = name then none else r.lookup? n := by
  rcases suppress_cases r name with ⟨hl, hs⟩ | ⟨id, -, hs⟩ <;> rw [hs]
  · split
    · next he => rw [he]; exact hl
    · rfl
  · exact lookup?_vacate (r.refuse name) name id n

theorem get?_suppress (r : Registry) (name : String) (other : DefId) :
    (r.suppress name).get? other = if r.lookup? name = some other then none else r.get? other := by
  rcases suppress_cases r name with ⟨hl, hs⟩ | ⟨id, hl, hs⟩ <;> rw [hs, hl]
  · rfl
  · have hv : (((r.refuse name).vacate name id).forgetArrays id).get? other =
        if other = id then none else r.get? other := get?_vacate (r.refuse name) name id other
    by_cases he : other = id
    · rw [hv, if_pos he, if_pos (congrArg some he.symm)]
    · rw [hv, if_neg he, if_neg fun h => he (Option.some.inj h).symm]

theorem of_get?_suppress (h : (r.suppress name).get? id = some d) : r.get? id = some d := by
  rw [get?_suppress] at h
  split at h
  · cases h
  · exact h

theorem isSuppressed_suppress (r : Registry) (name n : String) :
    (r.suppress name).isSuppressed n = (n == name || r.isSuppressed n) := by
  rcases suppress_cases r name with ⟨-, hs⟩ | ⟨id, -, hs⟩ <;> rw [hs] <;> exact List.contains_cons

theorem mem_arrays_suppress {x : (TypeKey × Nat) × DefId} (hx : x ∈ (r.suppress name).arrays) :
    x ∈ r.arrays ∧ r.lookup? name ≠ some x.2 := by
  rcases suppress_cases r name with ⟨hl, hs⟩ | ⟨id, hl, hs⟩ <;> rw [hs] at hx
  · exact ⟨hx, by rw [hl]; exact nofun⟩
  · obtain ⟨hx, hne⟩ := List.mem_filter.mp hx
    exact ⟨hx, by rw [hl]; exact fun he => bne_iff_ne.mp hne (Option.some.inj he).symm⟩

theorem index_suppress_sublist (r : Registry) (name : String) :
    (r.suppress name).index.Sublist r.index := by
  rcases suppress_cases r name with ⟨-, hs⟩ | ⟨id, -, hs⟩ <;> rw [hs]
  · exact List.Sublist.refl _
  · exact List.filter_sublist

theorem size_slots_suppress (r : Registry) (name : String) :
    (r.suppress name).slots.size = r.slots.size := by
  rcases suppress_cases r name with ⟨-, hs⟩ | ⟨id, -, hs⟩ <;> rw [hs]
  · rfl
  · exact Array.size_modify ..

/-- What an update leaves: the slot holds what `f` made of its definition. -/
theorem updateDetached_cases {α : Type} (r : Registry) (id : DefId)
    (f : Definition → Registry → α × Definition) :
    (r.get? id = none ∧ r.updateDetached id f = none) ∨
    (∃ d, r.get? id = some d ∧
      r.updateDetached id f = some ((f d (r.detach id)).1, r.put id (f d (r.detach id)).2)) := by
  cases hd : r.get? id with
  | none => exact .inl ⟨rfl, updateDetached_of_get?_eq_none hd⟩
  | some d => exact .inr ⟨d, rfl, updateDetached_of_get? hd⟩

/-! ### Consistency -/

/-- How the collections of a registry agree. -/
structure Consistent (r : Registry) : Prop where
  /-- A name leads to a slot just when the definition there has that name. -/
  lookup?_iff : ∀ {n id}, r.lookup? n = some id ↔ ∃ d, r.get? id = some d ∧ d.name = n
  /-- A refused name leads nowhere. -/
  refused : ∀ {n}, r.isSuppressed n = true → r.lookup? n = none
  /-- Fixed arrays are found in occupied slots. -/
  arrays : ∀ {key id}, (key, id) ∈ r.arrays → ∃ d, r.get? id = some d
  /-- The index has each name once. -/
  nodup : (r.index.map Prod.fst).Nodup

namespace Consistent

theorem lookup?_name (h : r.Consistent) (hd : r.get? id = some d) : r.lookup? d.name = some id :=
  h.lookup?_iff.mpr ⟨d, hd, rfl⟩

theorem name_eq (h : r.Consistent) (hd : r.get? id = some d) (hl : r.lookup? n = some id) :
    d.name = n := by
  obtain ⟨d', hd', hn⟩ := h.lookup?_iff.mp hl
  cases hd.symm.trans hd'
  exact hn

theorem id_eq (h : r.Consistent) (hd : r.get? id = some d) (hd' : r.get? other = some d')
    (hn : d.name = d'.name) : id = other :=
  Option.some.inj ((h.lookup?_name hd).symm.trans (hn ▸ h.lookup?_name hd'))

theorem find?_eq_some_iff (h : r.Consistent) :
    r.find? n = some d ↔ ∃ id, r.get? id = some d ∧ d.name = n := by
  constructor
  · intro hf
    obtain ⟨id, hl, hd⟩ := Option.bind_eq_some_iff.mp hf
    exact ⟨id, hd, h.name_eq hd hl⟩
  · rintro ⟨id, hd, rfl⟩
    rw [find?_eq_of_lookup? (h.lookup?_name hd), hd]

theorem find?_name (h : r.Consistent) (hd : r.get? id = some d) : r.find? d.name = some d :=
  h.find?_eq_some_iff.mpr ⟨id, hd, rfl⟩

theorem lookup?_isSome (h : r.Consistent) : (r.lookup? n).isSome = (r.find? n).isSome := by
  cases hl : r.lookup? n with
  | none => simp [find?, hl]
  | some id =>
    obtain ⟨d, hd, -⟩ := h.lookup?_iff.mp hl
    simp [find?, hl, hd]

theorem not_suppressed (h : r.Consistent) (hd : r.get? id = some d) :
    r.isSuppressed d.name = false := by
  cases hs : r.isSuppressed d.name with
  | false => rfl
  | true => exact absurd ((h.refused hs).symm.trans (h.lookup?_name hd)) nofun

theorem empty : Registry.empty.Consistent :=
  ⟨⟨nofun, fun ⟨_, hd, _⟩ => absurd hd nofun⟩, nofun, nofun, List.nodup_nil⟩

theorem mention (h : r.Consistent) (name : String) : (r.mention name).Consistent :=
  ⟨h.lookup?_iff, h.refused, h.arrays, h.nodup⟩

theorem not_mem_index (hn : r.lookup? n = none) : n ∉ r.index.map Prod.fst := by
  intro hm
  obtain ⟨⟨m, id⟩, hx, rfl⟩ := List.mem_map.mp hm
  have := List.lookup_eq_none_iff.mp hn (m, id) hx
  simp at this

theorem append (h : r.Consistent) (hs : r.isSuppressed d.name = false)
    (hn : r.lookup? d.name = none) : (r.append d).Consistent := by
  have hfree : ∀ {id d₀}, r.get? id = some d₀ → d₀.name ≠ d.name := by
    intro id d₀ hd he
    rw [← he, h.lookup?_name hd] at hn
    cases hn
  refine ⟨fun {n id} => ?_, fun {n} hn' => ?_, fun {key id} hk => ?_, ?_⟩
  · rw [lookup?_append, get?_append]
    by_cases he : id = ⟨r.slots.size⟩
    · subst he
      -- the new slot is reached by the new name only
      have hl : r.lookup? n ≠ some ⟨r.slots.size⟩ := fun hl => by
        obtain ⟨d₀, hd, -⟩ := h.lookup?_iff.mp hl
        exact absurd (index_lt_of_get? hd) (Nat.lt_irrefl _)
      by_cases hnd : n = d.name <;> simp [hnd, hl, eq_comm]
    · by_cases hnd : n = d.name
      · subst hnd
        simpa [he, eq_comm] using fun d₀ (hd : r.get? id = some d₀) => hfree hd
      · simpa [hnd, he] using h.lookup?_iff
  · have hne : n ≠ d.name := fun he => by
      have : r.isSuppressed n = true := hn'
      rw [he, hs] at this
      cases this
    rw [lookup?_append, if_neg hne]
    exact h.refused hn'
  · obtain ⟨d₀, hd⟩ := h.arrays hk
    refine ⟨d₀, ?_⟩
    rw [get?_append, if_neg, hd]
    rintro rfl
    exact Nat.lt_irrefl _ (index_lt_of_get? hd)
  · exact List.nodup_cons.mpr ⟨not_mem_index hn, h.nodup⟩

theorem insert (h : r.Consistent) (d : Definition) : (r.insert d).2.Consistent := by
  rcases insert_cases r d with ⟨-, hi⟩ | ⟨id, -, hi⟩ | ⟨hs, hn, hi⟩ <;> rw [hi]
  · exact h
  · exact h
  · exact h.append hs hn

/-- What has been registered is there under its name, though it may be an older definition. -/
theorem get?_insert (h : r.Consistent) {r' : Registry} (hi : r.insert d = (some id, r')) :
    ∃ d', r'.get? id = some d' ∧ d'.name = d.name := by
  rcases insert_cases r d with ⟨-, hi'⟩ | ⟨id', hl, hi'⟩ | ⟨-, -, hi'⟩
  · rw [hi] at hi'
    cases hi'
  · rw [hi] at hi'
    cases hi'
    exact h.lookup?_iff.mp hl
  · rw [hi] at hi'
    cases hi'
    exact ⟨d, by rw [get?_append, if_pos rfl], rfl⟩

theorem find?_append (h : r.Consistent) (d : Definition) (n : String) :
    (r.append d).find? n = if n = d.name then some d else r.find? n := by
  rw [find?, lookup?_append]
  split
  · exact get?_append.trans (if_pos rfl)
  · cases hl : r.lookup? n with
    | none => simp [find?, hl]
    | some id =>
      obtain ⟨d₀, hd, -⟩ := h.lookup?_iff.mp hl
      rw [find?_eq_of_lookup? hl]
      refine get?_append.trans (if_neg ?_)
      rintro rfl
      exact Nat.lt_irrefl _ (index_lt_of_get? hd)

/-- What was found under a name is still found, and the new definition where its name was free. -/
theorem find?_insert (h : r.Consistent) (d : Definition) (n : String) :
    (r.insert d).2.find? n =
      (r.find? n).or (if n = d.name ∧ r.isSuppressed n = false then some d else none) := by
  rcases insert_cases r d with ⟨hs, hi⟩ | ⟨id, hl, hi⟩ | ⟨hs, hl, hi⟩ <;> rw [hi]
  · rw [if_neg, Option.or_none]
    rintro ⟨rfl, hs'⟩
    rw [hs] at hs'
    cases hs'
  · split
    · next hn =>
      have hf : (r.find? n).isSome = true := by rw [← h.lookup?_isSome, hn.1, hl]; rfl
      rw [Option.or_of_isSome hf]
    · rw [Option.or_none]
  · rw [h.find?_append]
    by_cases hn : n = d.name
    · subst hn
      simp [hs, find?, hl]
    · simp [hn]

theorem noteArray (h : r.Consistent) {d₀ : Definition} (hd : r.get? id = some d₀)
    (a : FixedArray) : (r.noteArray a id).Consistent := by
  refine ⟨h.lookup?_iff, h.refused, fun {key other} hk => ?_, h.nodup⟩
  rcases List.mem_cons.mp hk with he | hk
  · cases he
    exact ⟨d₀, hd⟩
  · exact h.arrays hk

theorem insertFixedArray (h : r.Consistent) (a : FixedArray) :
    (r.insertFixedArray a).2.Consistent := by
  rcases insertFixedArray_cases r a with ⟨id, -, hi⟩ | ⟨-, hi⟩ | ⟨id, r', hr, hi⟩ <;> rw [hi]
  · exact h
  · exact h
  · have h' := h.insert (.fixedArray a)
    obtain ⟨d', hd', -⟩ := h.get?_insert hr
    rw [hr] at h'
    exact h'.noteArray hd' a

/-- Slots whose definitions keep their names may change freely. -/
theorem of_names_eq (h : r.Consistent) {r' : Registry} (hi : r'.index = r.index)
    (hs : r'.suppressed = r.suppressed) (ha : r'.arrays = r.arrays)
    (hg : ∀ id, (r'.get? id).map Definition.name = (r.get? id).map Definition.name) :
    r'.Consistent := by
  have hl : ∀ n, r'.lookup? n = r.lookup? n := fun n => by simp only [lookup?, hi]
  have hn : ∀ n id,
      (∃ d, r'.get? id = some d ∧ d.name = n) ↔ ∃ d, r.get? id = some d ∧ d.name = n :=
    fun n id => by rw [← Option.map_eq_some_iff, ← Option.map_eq_some_iff, hg]
  refine ⟨fun {n id} => ?_, fun {n} hn' => ?_, fun {key id} hk => ?_, hi ▸ h.nodup⟩
  · rw [hl, hn]
    exact h.lookup?_iff
  · rw [hl]
    exact h.refused (by rwa [isSuppressed, hs] at hn')
  · obtain ⟨d, hd⟩ := h.arrays (ha ▸ hk)
    obtain ⟨d', hd', -⟩ := (hn d.name id).mpr ⟨d, hd, rfl⟩
    exact ⟨d', hd'⟩

theorem map_name_modify {f : Definition → Definition}
    (hf : ∀ d, r.get? id = some d → (f d).name = d.name) (other : DefId) :
    ((r.modify id f).get? other).map Definition.name = (r.get? other).map Definition.name := by
  rw [get?_modify]
  split
  · next he =>
    subst he
    cases hd : r.get? other with
    | none => rfl
    | some d => exact congrArg some (hf d hd)
  · rfl

theorem map_name_put {d₀ : Definition} (hd : r.get? id = some d₀) (hn : d.name = d₀.name)
    (other : DefId) :
    ((r.put id d).get? other).map Definition.name = (r.get? other).map Definition.name := by
  by_cases he : other = id
  · subst he
    rw [get?_put hd, hd]
    exact congrArg some hn
  · rw [get?_put_of_ne he]

theorem modify (h : r.Consistent) (id : DefId) {f : Definition → Definition}
    (hf : ∀ d, r.get? id = some d → (f d).name = d.name) : (r.modify id f).Consistent :=
  h.of_names_eq rfl rfl rfl (map_name_modify hf)

theorem put (h : r.Consistent) {d₀ : Definition} (hd : r.get? id = some d₀)
    (hn : d.name = d₀.name) : (r.put id d).Consistent :=
  h.of_names_eq rfl rfl rfl (map_name_put hd hn)

theorem suppress (h : r.Consistent) (name : String) : (r.suppress name).Consistent := by
  refine ⟨fun {n other} => ?_, fun {n} hn => ?_, fun {key other} hk => ?_,
    h.nodup.sublist ((index_suppress_sublist r name).map _)⟩
  · rw [lookup?_suppress, get?_suppress]
    by_cases hn : n = name
    · subst hn
      -- what has the name sits in the vacated slot
      have hne : ¬∃ d, (if r.lookup? n = some other then none else r.get? other) = some d ∧
          d.name = n := by
        rintro ⟨d, hd, hdn⟩
        split at hd
        · cases hd
        · next hl => exact hl (h.lookup?_iff.mpr ⟨d, hd, hdn⟩)
      simpa using hne
    · by_cases hl : r.lookup? name = some other
      · have hne : r.lookup? n ≠ some other := fun hn' => by
          obtain ⟨d, hd, hdn⟩ := h.lookup?_iff.mp hl
          exact hn ((h.name_eq hd hn').symm.trans hdn)
        simp [hn, hl, hne]
      · simpa [hn, hl] using h.lookup?_iff
  · rw [lookup?_suppress]
    split
    · rfl
    · next hne =>
      rw [isSuppressed_suppress, Bool.or_eq_true, beq_iff_eq] at hn
      exact h.refused (hn.resolve_left hne)
  · obtain ⟨hk, hne⟩ := mem_arrays_suppress hk
    rw [get?_suppress, if_neg hne]
    exact h.arrays hk

theorem find?_suppress (h : r.Consistent) (name n : String) :
    (r.suppress name).find? n = if n = name then none else r.find? n := by
  rw [find?, lookup?_suppress]
  split
  · rfl
  · next hn =>
    cases hl : r.lookup? n with
    | none => simp [find?, hl]
    | some id =>
      have hne : r.lookup? name ≠ some id := fun hl' => by
        obtain ⟨d, hd, hdn⟩ := h.lookup?_iff.mp hl
        exact hn (hdn.symm.trans (h.name_eq hd hl'))
      rw [find?_eq_of_lookup? hl]
      exact (get?_suppress r name id).trans (if_neg hne)

end Consistent

end Bindery.Registry
