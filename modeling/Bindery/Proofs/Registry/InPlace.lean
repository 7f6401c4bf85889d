import Bindery.Proofs.Registry.Consistent

/-!
# Loops over the slots

A pass changes the definitions of a registry in place, one slot after the other, while it looks at
the registry that it is changing. `Maps g ids s t` says that `t` is `s` with `g` applied to the
definitions in the slots `ids`. When what a step makes of its slot does not depend on the steps
before, the loop changes all slots at once (`Maps.foldl`), so their order does not count
(`Maps.eq`).
-/

namespace Bindery.Registry

variable {r s t t' : Registry} {id : DefId} {ids ids' done : List DefId} {d : Definition}
  {g : DefId → Definition → Definition}

/-- The registry `t` is `s` with `g` applied to the definitions in the slots `ids`. It may have met
more names. -/
structure Maps (g : DefId → Definition → Definition) (ids : List DefId) (s t : Registry) : Prop where
  index : t.index = s.index
  suppressed : t.suppressed = s.suppressed
  arrays : t.arrays = s.arrays
  size_slots : t.slots.size = s.slots.size
  get? : ∀ id, t.get? id = if id ∈ ids then (s.get? id).map (g id) else s.get? id

theorem slots_ext (hs : t.slots.size = s.slots.size) (hg : ∀ id, t.get? id = s.get? id) :
    t.slots = s.slots := by
  refine Array.ext hs fun i hi hi' => ?_
  have h := hg ⟨i⟩
  simp only [Registry.get?, Array.getElem?_eq_getElem hi, Array.getElem?_eq_getElem hi'] at h
  exact h

/-- To put back what was there changes nothing. -/
theorem put_self (hd : r.get? id = some d) : r.put id d = r := by
  have hslots : (r.put id d).slots = r.slots := by
    refine slots_ext (Array.size_modify ..) fun other => ?_
    by_cases he : other = id
    · subst he
      rw [get?_put hd, hd]
    · exact get?_put_of_ne he
  exact congrArg (fun slots => { r with slots }) hslots

namespace Maps

theorem refl (g : DefId → Definition → Definition) (s : Registry) : s.Maps g [] s :=
  ⟨rfl, rfl, rfl, rfl, fun _ => rfl⟩

theorem congr {g' : DefId → Definition → Definition} (h : s.Maps g ids t)
    (hg : ∀ id d, s.get? id = some d → g id d = g' id d) : s.Maps g' ids t := by
  refine ⟨h.index, h.suppressed, h.arrays, h.size_slots, fun id => (h.get? id).trans ?_⟩
  cases hd : s.get? id with
  | none => rfl
  | some d => rw [Option.map_some, Option.map_some, hg id d hd]

/-- Only the slot `id` changes. -/
theorem single (hi : t.index = s.index) (hs : t.suppressed = s.suppressed)
    (ha : t.arrays = s.arrays) (hn : t.slots.size = s.slots.size)
    (hid : t.get? id = (s.get? id).map (g id))
    (hother : ∀ other, other ≠ id → t.get? other = s.get? other) : s.Maps g [id] t := by
  refine ⟨hi, hs, ha, hn, fun other => ?_⟩
  by_cases he : other = id
  · subst he
    simpa using hid
  · simpa [he] using hother other he

theorem modify {f : Definition → Definition} (hf : ∀ d, s.get? id = some d → f d = g id d) :
    s.Maps g [id] (s.modify id f) := by
  refine single rfl rfl rfl (Array.size_modify ..) ?_ fun other he => ?_
  · rw [get?_modify, if_pos rfl]
    cases hd : s.get? id with
    | none => rfl
    | some d => exact congrArg some (hf d hd)
  · rw [get?_modify, if_neg he]

theorem put (hd : s.get? id = some d) : s.Maps g [id] (s.put id (g id d)) := by
  refine single rfl rfl rfl (Array.size_modify ..) ?_ fun other he => get?_put_of_ne he
  rw [get?_put hd, hd]
  rfl

/-- A step that leaves the registry alone. -/
theorem of_eq_self (h : ∀ d, s.get? id = some d → g id d = d) : s.Maps g [id] s := by
  refine single rfl rfl rfl rfl ?_ fun _ _ => rfl
  cases hd : s.get? id with
  | none => rfl
  | some d => exact congrArg some (h d hd).symm

theorem withNames (h : s.Maps g ids t) (names : Interner) :
    s.Maps g ids { t with names } :=
  ⟨h.index, h.suppressed, h.arrays, h.size_slots, h.get?⟩

theorem snoc (h : r.Maps g done s) (hid : id ∉ done) (hs : s.Maps g [id] t) :
    r.Maps g (done ++ [id]) t := by
  refine ⟨hs.index.trans h.index, hs.suppressed.trans h.suppressed, hs.arrays.trans h.arrays,
    hs.size_slots.trans h.size_slots, fun other => ?_⟩
  rw [hs.get?, h.get?]
  by_cases he : other = id
  · subst he
    simp [hid]
  · simp [he]

/-- The rest of a loop in which no step is affected by those before it. -/
theorem foldl_from {S : Type} (reg : S → Registry) {step : S → DefId → S}
    (hstep : ∀ {done : List DefId} {a : S} {id : DefId}, r.Maps g done (reg a) → id ∉ done →
      (reg a).Maps g [id] (reg (step a id))) :
    ∀ {ids done : List DefId} {a : S}, r.Maps g done (reg a) → (done ++ ids).Nodup →
      r.Maps g (done ++ ids) (reg (ids.foldl step a))
  | [], _, _, h, _ => by rwa [List.append_nil]
  | id :: ids, done, a, h, hn => by
    have hid : id ∉ done := fun hm =>
      List.disjoint_of_nodup_append hn hm (List.mem_cons_self ..)
    have hsplit : done ++ id :: ids = (done ++ [id]) ++ ids := by simp
    rw [hsplit] at hn ⊢
    exact foldl_from reg hstep (h.snoc hid (hstep h hid)) hn

/-- A loop in which no step is affected by those before it changes all slots at once. -/
theorem foldl {S : Type} (reg : S → Registry) {step : S → DefId → S} {a : S}
    (hstep : ∀ {done : List DefId} {b : S} {id : DefId}, (reg a).Maps g done (reg b) → id ∉ done →
      (reg b).Maps g [id] (reg (step b id))) (hn : ids.Nodup) :
    (reg a).Maps g ids (reg (ids.foldl step a)) :=
  foldl_from reg hstep (refl g (reg a)) hn

/-- What is done to the same slots leaves the same registry, the names that were met aside. -/
theorem eq (h : s.Maps g ids t) (h' : s.Maps g ids' t') (hids : ∀ id, id ∈ ids ↔ id ∈ ids') :
    { t with names := t'.names } = t' := by
  have hslots : t.slots = t'.slots := by
    refine slots_ext (h.size_slots.trans h'.size_slots.symm) fun id => ?_
    rw [h.get?, h'.get?]
    simp only [hids]
  obtain ⟨names, slots, index, suppressed, arrays⟩ := t
  obtain ⟨names', slots', index', suppressed', arrays'⟩ := t'
  cases hslots
  cases h.index.trans h'.index.symm
  cases h.suppressed.trans h'.suppressed.symm
  cases h.arrays.trans h'.arrays.symm
  rfl

/-- A pass over all slots reaches every definition. -/
theorem get?_of_ids (h : s.Maps g s.ids t) (id : DefId) : t.get? id = (s.get? id).map (g id) := by
  rw [h.get?]
  split
  · rfl
  · next hid =>
    cases hd : s.get? id with
    | none => rfl
    | some d => exact absurd (mem_ids.mpr ⟨d, hd⟩) hid

theorem of_get? (hi : t.index = s.index) (hs : t.suppressed = s.suppressed)
    (ha : t.arrays = s.arrays) (hn : t.slots.size = s.slots.size)
    (hg : ∀ id, t.get? id = (s.get? id).map (g id)) : s.Maps g s.ids t := by
  refine ⟨hi, hs, ha, hn, fun id => ?_⟩
  split
  · exact hg id
  · next hid =>
    cases hd : s.get? id with
    | none => rw [hg, hd]; rfl
    | some d => exact absurd (mem_ids.mpr ⟨d, hd⟩) hid

/-- Two passes over all slots are one pass that does both. -/
theorem comp {g' : DefId → Definition → Definition} (h : r.Maps g r.ids s)
    (h' : s.Maps g' s.ids t) : r.Maps (fun id d => g' id (g id d)) r.ids t := by
  refine of_get? (h'.index.trans h.index) (h'.suppressed.trans h.suppressed)
    (h'.arrays.trans h.arrays) (h'.size_slots.trans h.size_slots) fun id => ?_
  rw [h'.get?_of_ids, h.get?_of_ids, Option.map_map]
  rfl

end Maps

end Bindery.Registry
