import Mathlib.Data.List.Induction
import Bindery.Proofs.Registry.Consistent

/-!
# Histories of a registry

What a registry is like after any sequence of operations (`run_consistent`). Its collections agree,
and slots are forever: `Precedes` says what a later registry keeps of an earlier one. The names that
are registered, in the order of iteration, are those that ever arrived, in the order of their
arrival, without the refused ones.
-/

namespace Bindery

/-- An operation on a registry. An edit keeps the source name of the definition. -/
inductive Registry.Op where
  | mention (name : String)
  | insert (d : Definition)
  | insertFixedArray (d : FixedArray)
  | suppress (name : String)
  | modify (id : DefId) (f : Definition → Definition) (hf : ∀ d, (f d).name = d.name)
  | updateDetached {α : Type} (id : DefId) (f : Definition → Registry → α × Definition)
      (hf : ∀ d rest, (f d rest).2.name = d.name)

namespace Registry

variable {r r' r'' : Registry} {id : DefId} {d d' : Definition} {n name : String}

/-- The registry after an operation. An update of an empty slot changes nothing. -/
def Op.apply (r : Registry) : Op → Registry
  | mention name => r.mention name
  | insert d => (r.insert d).2
  | insertFixedArray d => (r.insertFixedArray d).2
  | suppress name => r.suppress name
  | modify id f _ => r.modify id f
  | updateDetached id f _ => ((r.updateDetached id f).map Prod.snd).getD r

/-- The registry after a sequence of operations. -/
def after (r : Registry) (ops : List Op) : Registry := ops.foldl Op.apply r

/-- The registry that a sequence of operations builds. -/
def run (ops : List Op) : Registry := empty.after ops

@[simp] theorem after_cons (r : Registry) (op : Op) (ops : List Op) :
    r.after (op :: ops) = (op.apply r).after ops := rfl

theorem after_append (r : Registry) (ops more : List Op) :
    r.after (ops ++ more) = (r.after ops).after more := List.foldl_append

/-! ### Slots are forever -/

/-- What a registry keeps of an earlier one. -/
structure Precedes (r r' : Registry) : Prop where
  /-- No slot goes away. -/
  size_le : r.slots.size ≤ r'.slots.size
  /-- A refused name is refused from then on. -/
  isSuppressed : ∀ {n}, r.isSuppressed n = true → r'.isSuppressed n = true
  /-- The definitions that a slot holds have one source name. -/
  name_eq : ∀ {id d d'}, r.get? id = some d → r'.get? id = some d' → d'.name = d.name
  /-- An emptied slot stays empty. -/
  vacant : ∀ {id}, id.index < r.slots.size → r.get? id = none → r'.get? id = none

namespace Precedes

theorem refl (r : Registry) : r.Precedes r :=
  ⟨Nat.le_refl _, id, fun hd hd' => by cases hd.symm.trans hd'; rfl, fun _ => id⟩

theorem trans (h : r.Precedes r') (h' : r'.Precedes r'') : r.Precedes r'' := by
  refine ⟨Nat.le_trans h.size_le h'.size_le, fun hn => h'.isSuppressed (h.isSuppressed hn),
    fun {id d d''} hd hd'' => ?_,
    fun hi hn => h'.vacant (Nat.lt_of_lt_of_le hi h.size_le) (h.vacant hi hn)⟩
  cases hd' : r'.get? id with
  | none =>
    have hi := Nat.lt_of_lt_of_le (index_lt_of_get? hd) h.size_le
    rw [h'.vacant hi hd'] at hd''
    cases hd''
  | some d' => exact (h'.name_eq hd' hd'').trans (h.name_eq hd hd')

/-- It is enough that occupied slots keep their names and no empty slot is taken. -/
theorem of_names (hs : r.slots.size ≤ r'.slots.size)
    (hr : ∀ {n}, r.isSuppressed n = true → r'.isSuppressed n = true)
    (hg : ∀ id, id.index < r.slots.size → ∀ n, (r'.get? id).map Definition.name = some n →
      (r.get? id).map Definition.name = some n) : r.Precedes r' := by
  refine ⟨hs, hr, fun {id d d'} hd hd' => ?_, fun {id} hi hn => ?_⟩
  · have := hg id (index_lt_of_get? hd) d'.name (by rw [hd']; rfl)
    rw [hd] at this
    exact (Option.some.inj this).symm
  · cases hd : r'.get? id with
    | none => rfl
    | some d =>
      have := hg id hi d.name (by rw [hd]; rfl)
      rw [hn] at this
      cases this

theorem append (r : Registry) (d : Definition) : r.Precedes (r.append d) := by
  refine of_names (by simp [Registry.append]) id fun other hi n hn => ?_
  rwa [get?_append, if_neg (by rintro rfl; exact Nat.lt_irrefl _ hi)] at hn

theorem insert (r : Registry) (d : Definition) : r.Precedes (r.insert d).2 := by
  rcases insert_cases r d with ⟨-, hi⟩ | ⟨id, -, hi⟩ | ⟨-, -, hi⟩ <;> rw [hi]
  · exact refl r
  · exact refl r
  · exact append r d

theorem insertFixedArray (r : Registry) (a : FixedArray) : r.Precedes (r.insertFixedArray a).2 := by
  rcases insertFixedArray_cases r a with ⟨id, -, hi⟩ | ⟨-, hi⟩ | ⟨id, r', hr, hi⟩ <;> rw [hi]
  · exact refl r
  · exact refl r
  · have h := insert r (.fixedArray a)
    rw [hr] at h
    exact ⟨h.size_le, h.isSuppressed, h.name_eq, h.vacant⟩

theorem suppress (r : Registry) (name : String) : r.Precedes (r.suppress name) := by
  refine of_names (Nat.le_of_eq (size_slots_suppress r name).symm)
    (fun hn => by rw [isSuppressed_suppress, hn, Bool.or_true]) fun other _ n hn => ?_
  rw [get?_suppress] at hn
  split at hn
  · cases hn
  · exact hn

theorem modify (r : Registry) (id : DefId) {f : Definition → Definition}
    (hf : ∀ d, (f d).name = d.name) : r.Precedes (r.modify id f) :=
  of_names (by simp [Registry.modify]) (fun hs => hs) fun other _ n hn => by
    rwa [Consistent.map_name_modify (fun d _ => hf d)] at hn

theorem put (hd : r.get? id = some d) (hn : d'.name = d.name) : r.Precedes (r.put id d') :=
  of_names (by simp [Registry.put]) (fun hs => hs) fun other _ n hm => by
    rwa [Consistent.map_name_put hd hn] at hm

end Precedes

/-- Every operation keeps the collections in step and the slots in place. -/
theorem Op.apply_consistent (h : r.Consistent) (op : Op) :
    (op.apply r).Consistent ∧ r.Precedes (op.apply r) := by
  cases op with
  | mention name => exact ⟨h.mention name, .of_names (Nat.le_refl _) id fun _ _ _ => id⟩
  | insert d => exact ⟨h.insert d, .insert r d⟩
  | insertFixedArray d => exact ⟨h.insertFixedArray d, .insertFixedArray r d⟩
  | suppress name => exact ⟨h.suppress name, .suppress r name⟩
  | modify id f hf => exact ⟨h.modify id fun d _ => hf d, .modify r id hf⟩
  | updateDetached id f hf =>
    rcases updateDetached_cases r id f with ⟨-, hu⟩ | ⟨d, hd, hu⟩ <;> simp only [Op.apply, hu]
    · exact ⟨h, .refl r⟩
    · exact ⟨h.put hd (hf d _), .put hd (hf d _)⟩

theorem after_consistent (h : r.Consistent) (ops : List Op) :
    (r.after ops).Consistent ∧ r.Precedes (r.after ops) := by
  induction ops generalizing r with
  | nil => exact ⟨h, .refl r⟩
  | cons op ops ih =>
    obtain ⟨hc, hp⟩ := op.apply_consistent h
    obtain ⟨hc', hp'⟩ := ih hc
    exact ⟨hc', hp.trans hp'⟩

/-! ### The order of iteration -/

/-- The names of the registered definitions in the order of iteration. -/
def liveNames (r : Registry) : List String := r.definitions.map Definition.name

/-- The names that are registered in `r'` and were not in `r`. -/
def newNames (r r' : Registry) : List String := r'.liveNames.filter fun n => (r.find? n).isNone

/-- The names that operations register, in the order in which they do. -/
def arrivals (r : Registry) : List Op → List String
  | [] => []
  | op :: ops => r.newNames (op.apply r) ++ arrivals (op.apply r) ops

theorem filterMap_zipIdx {α β : Type} (f : α → Nat → Option β) (l : List α) :
    l.zipIdx.filterMap (fun x => f x.1 x.2) =
      (List.range l.length).filterMap fun i => l[i]?.bind (f · i) := by
  induction l using List.reverseRecOn with
  | nil => rfl
  | append_singleton l x ih =>
    rw [List.zipIdx_append, List.filterMap_append, ih, List.length_append, List.length_singleton,
      List.range_succ, List.filterMap_append]
    congr 1
    · refine List.filterMap_congr fun i hi => ?_
      rw [List.getElem?_append_left (List.mem_range.mp hi)]
    · simp [List.filterMap_cons]

theorem liveNames_eq (r : Registry) :
    r.liveNames =
      (List.range r.slots.size).filterMap fun i => (r.get? ⟨i⟩).map Definition.name := by
  rw [liveNames, definitions, entries,
    filterMap_zipIdx fun (slot : Option Definition) i => slot.map fun d => ((⟨i⟩ : DefId), d),
    List.map_map, List.map_filterMap, Array.length_toList]
  refine List.filterMap_congr fun i _ => ?_
  rw [Array.getElem?_toList, get?]
  cases r.slots[i]? with
  | none => rfl
  | some slot => cases slot <;> rfl

theorem liveNames_congr (hs : r'.slots.size = r.slots.size)
    (hg : ∀ id, (r'.get? id).map Definition.name = (r.get? id).map Definition.name) :
    r'.liveNames = r.liveNames := by
  rw [liveNames_eq, liveNames_eq, hs]
  exact List.filterMap_congr fun i _ => hg ⟨i⟩

theorem liveNames_append : (r.append d).liveNames = r.liveNames ++ [d.name] := by
  rw [liveNames_eq, liveNames_eq, show (r.append d).slots.size = r.slots.size + 1 by simp [append],
    List.range_succ, List.filterMap_append]
  congr 1
  · refine List.filterMap_congr fun i hi => ?_
    rw [get?_append, if_neg]
    rintro ⟨⟩
    exact Nat.lt_irrefl _ (List.mem_range.mp hi)
  · simp [get?_append]

namespace Consistent

theorem mem_liveNames (h : r.Consistent) : n ∈ r.liveNames ↔ (r.find? n).isSome = true := by
  rw [liveNames, List.mem_map, Option.isSome_iff_exists]
  simp only [mem_definitions, h.find?_eq_some_iff]
  constructor
  · rintro ⟨d, ⟨id, hd⟩, hn⟩
    exact ⟨d, id, hd, hn⟩
  · rintro ⟨d, id, hd, hn⟩
    exact ⟨d, ⟨id, hd⟩, hn⟩

theorem not_suppressed_of_mem (h : r.Consistent) (hn : n ∈ r.liveNames) :
    r.isSuppressed n = false := by
  obtain ⟨d, hd, rfl⟩ := List.mem_map.mp hn
  obtain ⟨id, hd⟩ := mem_definitions.mp hd
  exact h.not_suppressed hd

theorem nodup_liveNames (h : r.Consistent) : r.liveNames.Nodup := by
  rw [liveNames, definitions_eq_filterMap, List.map_filterMap, List.Nodup, List.pairwise_filterMap]
  refine r.nodup_ids.imp ?_
  intro id other hne n hn m hm he
  subst he
  obtain ⟨d, hd, rfl⟩ := Option.map_eq_some_iff.mp hn
  obtain ⟨d', hd', he⟩ := Option.map_eq_some_iff.mp hm
  exact hne (h.id_eq hd hd' he.symm)

/-- The index counts the registered definitions. -/
theorem size_eq (h : r.Consistent) : r.size = r.liveNames.length := by
  have hp : (r.index.map Prod.fst).Perm r.liveNames := by
    refine (List.perm_ext_iff_of_nodup h.nodup h.nodup_liveNames).mpr fun n => ?_
    rw [h.mem_liveNames, ← h.lookup?_isSome]
    constructor
    · intro hm
      cases hl : r.lookup? n with
      | none => exact absurd hm (not_mem_index hl)
      | some id => rfl
    · intro hl
      obtain ⟨id, hl⟩ := Option.isSome_iff_exists.mp hl
      obtain ⟨l₁, l₂, he, -⟩ := List.lookup_eq_some_iff.mp hl
      simp [he]
  rw [← hp.length_eq, List.length_map]
  rfl

theorem filter_liveNames (h : r.Consistent) :
    r.liveNames.filter (fun n => !r.isSuppressed n) = r.liveNames :=
  List.filter_eq_self.mpr fun n hn => by rw [h.not_suppressed_of_mem hn]; rfl

theorem newNames_of_subset (h : r.Consistent) (hs : r'.liveNames ⊆ r.liveNames) :
    r.newNames r' = [] :=
  List.filter_eq_nil_iff.mpr fun n hn => by
    have hf := h.mem_liveNames.mp (hs hn)
    rw [Option.isNone_eq_false_iff.mpr hf]
    exact Bool.false_ne_true

theorem liveNames_suppress (h : r.Consistent) (name : String) :
    (r.suppress name).liveNames = r.liveNames.filter (· != name) := by
  rw [liveNames_eq, liveNames_eq, List.filter_filterMap, size_slots_suppress]
  refine List.filterMap_congr fun i _ => ?_
  rw [get?_suppress]
  -- the name sits in the vacated slot and in no other
  split
  · next hl =>
    obtain ⟨d, hd, hn⟩ := h.lookup?_iff.mp hl
    simp [hd, hn, Option.filter]
  · next hl =>
    cases hd : r.get? ⟨i⟩ with
    | none => rfl
    | some d =>
      have hn : d.name ≠ name := fun he => hl (h.lookup?_iff.mpr ⟨d, hd, he⟩)
      simp [hn, Option.filter]

end Consistent

/-- An operation that registers nothing leaves the names as they were. -/
theorem liveNames_filter_of_eq (h : r.Consistent) (h' : r'.Consistent)
    (he : r'.liveNames = r.liveNames) :
    r'.liveNames = (r.liveNames ++ r.newNames r').filter fun n => !r'.isSuppressed n := by
  rw [h.newNames_of_subset (he ▸ List.Subset.refl _), List.append_nil, ← he, h'.filter_liveNames]

theorem newNames_append (h : r.Consistent) (hn : r.lookup? d.name = none) :
    r.newNames (r.append d) = [d.name] := by
  have hf : [d.name].filter (fun n => (r.find? n).isNone) = [d.name] := by simp [find?, hn]
  rw [newNames, liveNames_append, List.filter_append, hf]
  exact congrArg (· ++ [d.name]) (h.newNames_of_subset (List.Subset.refl _))

/-- After an operation the names are those from before and the new ones, the refused ones left
out. -/
theorem Op.liveNames_apply (h : r.Consistent) (op : Op) :
    (op.apply r).liveNames =
      (r.liveNames ++ r.newNames (op.apply r)).filter fun n => !(op.apply r).isSuppressed n := by
  have h' := (op.apply_consistent h).1
  have happend : ∀ d, r.isSuppressed d.name = false → r.lookup? d.name = none →
      (r.append d).liveNames =
        (r.liveNames ++ r.newNames (r.append d)).filter fun n => !(r.append d).isSuppressed n :=
    fun d hs hn => by
      rw [newNames_append h hn, ← liveNames_append, (h.append hs hn).filter_liveNames]
  cases op with
  | mention name => exact liveNames_filter_of_eq h h' (liveNames_congr rfl fun _ => rfl)
  | insert d =>
    rcases insert_cases r d with ⟨-, hi⟩ | ⟨id, -, hi⟩ | ⟨hs, hn, hi⟩ <;>
      simp only [Op.apply, hi] at h' ⊢
    · exact liveNames_filter_of_eq h h' rfl
    · exact liveNames_filter_of_eq h h' rfl
    · exact happend d hs hn
  | insertFixedArray a =>
    rcases insertFixedArray_cases r a with ⟨id, -, hi⟩ | ⟨-, hi⟩ | ⟨id, r', hr, hi⟩ <;>
      simp only [Op.apply, hi] at h' ⊢
    · exact liveNames_filter_of_eq h h' rfl
    · exact liveNames_filter_of_eq h h' rfl
    · rcases insert_cases r (.fixedArray a) with ⟨-, hi'⟩ | ⟨id', -, hi'⟩ | ⟨hs, hn, hi'⟩ <;>
        (rw [hr] at hi'; cases hi')
      · exact liveNames_filter_of_eq h h' rfl
      · exact happend _ hs hn
  | suppress name =>
    simp only [Op.apply]
    have hl := h.liveNames_suppress name
    rw [h.newNames_of_subset (hl ▸ List.filter_sublist.subset), List.append_nil, hl]
    refine List.filter_congr fun n hn => ?_
    rw [isSuppressed_suppress, h.not_suppressed_of_mem hn, Bool.or_false]
    rfl
  | modify id f hf =>
    exact liveNames_filter_of_eq h h'
      (liveNames_congr (Array.size_modify ..) (Consistent.map_name_modify fun d _ => hf d))
  | updateDetached id f hf =>
    rcases updateDetached_cases r id f with ⟨-, hu⟩ | ⟨d, hd, hu⟩ <;>
      simp only [Op.apply, hu] at h' ⊢
    · exact liveNames_filter_of_eq h h' rfl
    · exact liveNames_filter_of_eq h h'
        (liveNames_congr (Array.size_modify ..) (Consistent.map_name_put hd (hf d _)))

/-- After any operations the names are those from before and the arrivals, in this order, the
refused ones left out. -/
theorem liveNames_after (h : r.Consistent) (ops : List Op) :
    (r.after ops).liveNames =
      (r.liveNames ++ r.arrivals ops).filter fun n => !(r.after ops).isSuppressed n := by
  induction ops generalizing r with
  | nil => rw [arrivals, List.append_nil]; exact h.filter_liveNames.symm
  | cons op ops ih =>
    obtain ⟨hc, -⟩ := op.apply_consistent h
    have hp := (after_consistent hc ops).2
    rw [after_cons, ih hc, op.liveNames_apply h, arrivals, ← List.append_assoc, List.filter_append,
      List.filter_append (r.liveNames ++ _), List.filter_filter]
    congr 1
    refine List.filter_congr fun n _ => ?_
    -- what is refused after the first operation stays refused
    cases hs : (op.apply r).isSuppressed n with
    | false => simp
    | true => simp [hp.isSuppressed hs]

/-- A name arrives once, and only if it is neither registered nor refused. -/
theorem arrivals_fresh (h : r.Consistent) (ops : List Op) :
    (r.arrivals ops).Nodup ∧
      ∀ n ∈ r.arrivals ops, n ∉ r.liveNames ∧ r.isSuppressed n = false := by
  induction ops generalizing r with
  | nil => exact ⟨List.nodup_nil, nofun⟩
  | cons op ops ih =>
    obtain ⟨hc, hp⟩ := op.apply_consistent h
    obtain ⟨hnd, hfresh⟩ := ih hc
    have hback : ∀ n, (op.apply r).isSuppressed n = false → r.isSuppressed n = false :=
        fun n hn => by
      cases hs : r.isSuppressed n with
      | false => rfl
      | true => rw [hp.isSuppressed hs] at hn; cases hn
    refine ⟨List.nodup_append.mpr ⟨hc.nodup_liveNames.filter _, hnd, ?_⟩, fun n hn => ?_⟩
    · rintro n hn m hm rfl
      exact (hfresh n hm).1 (List.mem_of_mem_filter hn)
    rcases List.mem_append.mp hn with hn | hn
    · obtain ⟨hl, hf⟩ := List.mem_filter.mp hn
      refine ⟨fun hm => ?_, hback n (hc.not_suppressed_of_mem hl)⟩
      rw [h.mem_liveNames, Option.isNone_iff_eq_none.mp hf] at hm
      cases hm
    · obtain ⟨hm, hs⟩ := hfresh n hn
      refine ⟨fun hl => hm ?_, hback n hs⟩
      rw [op.liveNames_apply h]
      exact List.mem_filter.mpr ⟨List.mem_append_left _ hl, by rw [hs]; rfl⟩

/-- **Registries built by any operations.** The collections agree, no two definitions have one name
and the size is their number. Of any earlier registry the names of the slots are kept, emptied slots
stay empty and refused names stay away. Iteration is in the order of arrival. An update changes the
slot that it checks out and no other. -/
theorem run_consistent (ops : List Op) :
    (run ops).Consistent ∧ (run ops).liveNames.Nodup ∧ (run ops).size = (run ops).liveNames.length ∧
    (∀ earlier later, ops = earlier ++ later → (run earlier).Precedes (run ops) ∧
      ∀ n, (run earlier).isSuppressed n = true →
        (run ops).lookup? n = none ∧ n ∉ (run ops).liveNames) ∧
    ((empty.arrivals ops).Nodup ∧
      (run ops).liveNames = (empty.arrivals ops).filter fun n => !(run ops).isSuppressed n) ∧
    ∀ {α : Type} (id : DefId) (f : Definition → Registry → α × Definition) (a : α) (r' : Registry),
      (run ops).updateDetached id f = some (a, r') →
        ∃ slots, r' = { run ops with slots } ∧ slots.size = (run ops).slots.size ∧
          ∀ i, i ≠ id.index → slots[i]? = (run ops).slots[i]? := by
  obtain ⟨hc, -⟩ := after_consistent Consistent.empty ops
  have hc : (run ops).Consistent := hc
  refine ⟨hc, hc.nodup_liveNames, hc.size_eq, ?_, ⟨(arrivals_fresh .empty ops).1, ?_⟩, ?_⟩
  · rintro earlier later rfl
    obtain ⟨he, -⟩ := after_consistent Consistent.empty earlier
    have hp : (run earlier).Precedes (run (earlier ++ later)) := by
      rw [run, run, after_append]
      exact (after_consistent he later).2
    refine ⟨hp, fun n hn => ⟨hc.refused (hp.isSuppressed hn), fun hm => ?_⟩⟩
    have := hc.not_suppressed_of_mem hm
    rw [hp.isSuppressed hn] at this
    cases this
  · exact liveNames_after .empty ops
  · intro α id f a r' hu
    rcases updateDetached_cases (run ops) id f with ⟨-, hu'⟩ | ⟨d, -, hu'⟩
    · rw [hu] at hu'
      cases hu'
    · rw [hu] at hu'
      cases hu'
      refine ⟨_, rfl, Array.size_modify .., fun i hi => ?_⟩
      rw [Array.getElem?_modify, if_neg (Ne.symm hi)]

end Registry

end Bindery
