import Mathlib.Data.List.Nodup
import Bindery.Registry

/-!
# Slots of the registry

What is found in a slot after a definition has been checked out or put back, and `WellIndexed`: the
names of a registry lead to the slots where the definitions of these names sit.
-/

namespace Bindery.Registry

variable {r : Registry} {id other : DefId} {d d₀ : Definition} {n : String}

/-- The registry with the slot emptied. -/
def detach (r : Registry) (id : DefId) : Registry :=
  { r with slots := r.slots.modify id.index fun _ => none }

/-- The registry with the definition in the slot. -/
def put (r : Registry) (id : DefId) (d : Definition) : Registry :=
  { r with slots := r.slots.modify id.index fun _ => some d }

@[simp] theorem lookup?_detach : (r.detach id).lookup? n = r.lookup? n := rfl

@[simp] theorem lookup?_put : (r.put id d).lookup? n = r.lookup? n := rfl

theorem get?_put (h : r.get? id = some d₀) : (r.put id d).get? id = some d := by
  obtain ⟨slot, hs, -⟩ := Option.bind_eq_some_iff.mp h
  simp [put, get?, Array.getElem?_modify, hs]

theorem index_ne (h : other ≠ id) : id.index ≠ other.index := by
  rintro he
  cases id
  cases other
  exact h (congrArg _ he.symm)

theorem get?_put_of_ne (h : other ≠ id) : (r.put id d).get? other = r.get? other := by
  simp [put, get?, Array.getElem?_modify, index_ne h]

theorem get?_detach_of_ne (h : other ≠ id) : (r.detach id).get? other = r.get? other := by
  simp [detach, get?, Array.getElem?_modify, index_ne h]

theorem updateDetached_of_get? {α : Type} {f : Definition → Registry → α × Definition}
    (h : r.get? id = some d) : r.updateDetached id f =
      some ((f d (r.detach id)).1, r.put id (f d (r.detach id)).2) := by
  simp only [updateDetached, h]
  rfl

theorem updateDetached_of_get?_eq_none {α : Type} {f : Definition → Registry → α × Definition}
    (h : r.get? id = none) : r.updateDetached id f = none := by
  simp [updateDetached, h]

theorem find?_eq_of_lookup? (h : r.lookup? n = some id) : r.find? n = r.get? id := by
  simp [find?, h]

/-! ### The occupied slots -/

theorem mem_entries : (id, d) ∈ r.entries ↔ r.get? id = some d := by
  simp only [entries, List.mem_filterMap, Prod.exists, List.mem_zipIdx_iff_getElem?,
    Array.getElem?_toList, Option.map_eq_some_iff, Prod.mk.injEq, get?, Option.bind_eq_some_iff]
  constructor
  · rintro ⟨slot, i, hs, d', rfl, rfl, rfl⟩
    exact ⟨_, hs, rfl⟩
  · rintro ⟨slot, hs, rfl⟩
    exact ⟨_, id.index, hs, d, rfl, rfl, rfl⟩

theorem mem_ids : id ∈ r.ids ↔ ∃ d, r.get? id = some d := by
  simp only [ids, List.mem_map, Prod.exists, exists_and_right, exists_eq_right, mem_entries]

theorem mem_definitions : d ∈ r.definitions ↔ ∃ id, r.get? id = some d := by
  simp only [definitions, List.mem_map, Prod.exists, exists_eq_right, mem_entries]

theorem nodup_ids (r : Registry) : r.ids.Nodup := by
  have hz : r.slots.toList.zipIdx.Pairwise fun a b => a.2 ≠ b.2 := by
    rw [← List.pairwise_map (R := (· ≠ ·)), List.zipIdx_map_snd]
    exact List.nodup_range'
  rw [ids, List.Nodup, List.pairwise_map, entries, List.pairwise_filterMap]
  refine hz.imp ?_
  rintro ⟨slot, i⟩ ⟨slot', j⟩ hne a ha b hb
  obtain ⟨d, -, rfl⟩ := Option.map_eq_some_iff.mp ha
  obtain ⟨d', -, rfl⟩ := Option.map_eq_some_iff.mp hb
  exact fun he => hne (congrArg DefId.index he)

theorem definitions_eq_filterMap (r : Registry) : r.definitions = r.ids.filterMap r.get? := by
  have h : r.entries.map Prod.snd = r.entries.filterMap fun x => r.get? x.1 := by
    rw [← List.filterMap_eq_map]
    refine List.filterMap_congr fun x hx => ?_
    obtain ⟨id, d⟩ := x
    exact (mem_entries.mp hx).symm
  rw [definitions, h, ids, List.filterMap_map]
  rfl

/-! ### Names and slots -/

/-- Every definition is indexed under its own name and under no other. -/
structure WellIndexed (r : Registry) : Prop where
  lookup?_name : ∀ {id d}, r.get? id = some d → r.lookup? d.name = some id
  name_eq : ∀ {id d n}, r.get? id = some d → r.lookup? n = some id → n = d.name

theorem WellIndexed.find?_name (h : r.WellIndexed) (hd : r.get? id = some d) :
    r.find? d.name = some d := by
  rw [find?_eq_of_lookup? (h.lookup?_name hd), hd]

end Bindery.Registry
