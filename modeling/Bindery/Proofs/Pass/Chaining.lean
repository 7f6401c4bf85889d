import Bindery.Proofs.Pass.Locality

/-!
# Chains of visitor passes

A chain runs its policies one after the other on each definition, and passes in sequence run each
policy over all definitions before the next. For local policies both come to the same: what a policy
makes of a definition is its `effect`, which only the fixed arrays of the rest decide, and no policy
changes these. So a pass applies the effect of its policy to all slots at once (`maps_visitAll`),
passes in sequence compose (`maps_passes`), and the effect of a chain is the composition of the
effects (`effect_chain_cons`).
-/

namespace Bindery

open PassM

variable {σ α β : Type}

/-! ### Answers -/

/-- The answer of an action that starts where nothing has been met. -/
def PassM.value [Inhabited σ] (m : PassM σ α) : α := (m ⟨.new, default⟩).1

theorem PassM.value_bind [Inhabited σ] (m : PassM σ α) {f : α → PassM σ β}
    (hf : ∀ a, Agree (f a) (f a)) : value (m >>= f) = value (f (value m)) := hf _ _ _

theorem PassM.Agree.value_eq [Inhabited σ] {m m' : PassM σ α} (h : Agree m m') :
    value m' = value m := (h _ _).symm

/-! ### Fixed arrays stay where they are -/

namespace Registry

variable {r s t : Registry}

theorem get?_detach (r : Registry) (id other : DefId) :
    (r.detach id).get? other = if other = id then none else r.get? other := by
  split
  · next he =>
    subst he
    cases hs : r.slots[other.index]? <;> simp [detach, Registry.get?, Array.getElem?_modify, hs]
  · next he => exact get?_detach_of_ne he

namespace SameArrays

theorem refl (r : Registry) : r.SameArrays r := ⟨rfl, fun _ => rfl⟩

theorem detach (h : r.SameArrays s) (id : DefId) : (r.detach id).SameArrays (s.detach id) := by
  refine ⟨h.index, fun other => ?_⟩
  rw [get?_detach, get?_detach]
  split
  · rfl
  · exact h.get? other

end SameArrays

theorem Maps.sameArrays {g : DefId → Definition → Definition} {ids : List DefId}
    (h : r.Maps g ids s) (hg : ∀ id d, (g id d).asFixedArray? = d.asFixedArray?) :
    r.SameArrays s := by
  refine ⟨h.index, fun id => ?_⟩
  rw [h.get?]
  split
  · cases r.get? id with
    | none => rfl
    | some d => exact hg id d
  · rfl

end Registry

/-! ### What a policy makes of a definition -/

namespace VisitPolicy

variable {p : VisitPolicy σ} {ps : List (VisitPolicy σ)} {r r' rest : Registry}

/-- What the hook for the kind of the definition makes of it. -/
def hook (p : VisitPolicy σ) (rest : Registry) : Definition → PassM σ Definition
  | .macroDef d => .macroDef <$> p.onMacro rest d
  | .enumDef d => .enumDef <$> p.onEnum rest d
  | .structDef d => .structDef <$> p.onStruct rest d
  | .functionDef d => .functionDef <$> p.onFunction rest d
  | .delegateDef d => .delegateDef <$> p.onDelegate rest d
  | .fixedArray d => .fixedArray <$> p.onFixedArray rest d

theorem visit_eq (p : VisitPolicy σ) (rest : Registry) (d : Definition) :
    p.visit rest d = p.hook rest d >>= p.onDefinition rest := by
  cases d <;> rfl

/-- A chain runs the hooks one after the other. -/
theorem hook_chain (ps : List (VisitPolicy σ)) (rest : Registry) (d : Definition) :
    (chain ps).hook rest d = ps.foldlM (fun d p => p.hook rest d) d := by
  -- the hooks of one kind, as hooks of definitions
  have hkind : ∀ {α : Type} (c : α → Definition) (on : VisitPolicy σ → α → PassM σ α),
      (∀ p d, p.hook rest (c d) = c <$> on p d) → ∀ d : α,
        c <$> ps.foldlM (fun x p => on p x) d = ps.foldlM (fun d p => p.hook rest d) (c d) := by
    intro α c on hon
    induction ps with
    | nil => exact fun _ => rfl
    | cons p ps ih =>
      intro d
      rw [List.foldlM_cons, List.foldlM_cons, hon, map_bind, bind_map_left]
      exact congrArg (on p d >>= ·) (funext ih)
  cases d with
  | macroDef d => exact hkind .macroDef (fun p => p.onMacro rest) (fun _ _ => rfl) d
  | enumDef d => exact hkind .enumDef (fun p => p.onEnum rest) (fun _ _ => rfl) d
  | structDef d => exact hkind .structDef (fun p => p.onStruct rest) (fun _ _ => rfl) d
  | functionDef d => exact hkind .functionDef (fun p => p.onFunction rest) (fun _ _ => rfl) d
  | delegateDef d => exact hkind .delegateDef (fun p => p.onDelegate rest) (fun _ _ => rfl) d
  | fixedArray d => exact hkind .fixedArray (fun p => p.onFixedArray rest) (fun _ _ => rfl) d

theorem Local.agree_hook (hp : p.Local) (hr : r.SameArrays r') (d : Definition) :
    Agree (p.hook r d) (p.hook r' d) := by
  cases d with
  | macroDef d => exact .map _ (hp.onMacro hr d)
  | enumDef d => exact .map _ (hp.onEnum hr d)
  | structDef d => exact .map _ (hp.onStruct hr d)
  | functionDef d => exact .map _ (hp.onFunction hr d)
  | delegateDef d => exact .map _ (hp.onDelegate hr d)
  | fixedArray d =>
    exact .map _ fun s s' => (hp.onFixedArray r d s s).trans (hp.onFixedArray r' d s' s).symm

variable [Inhabited σ]

/-- What the policy makes of a definition, beside the rest of the registry. -/
def effect (p : VisitPolicy σ) (rest : Registry) (d : Definition) : Definition :=
  (p.hook rest d).value

@[simp] theorem effect_chain_nil (rest : Registry) (d : Definition) :
    (chain ([] : List (VisitPolicy σ))).effect rest d = d := by
  rw [effect, hook_chain]
  rfl

theorem effect_chain_cons (hps : ∀ p ∈ ps, p.Local) (p : VisitPolicy σ) (rest : Registry)
    (d : Definition) :
    (chain (p :: ps)).effect rest d = (chain ps).effect rest (p.effect rest d) := by
  rw [effect, hook_chain, List.foldlM_cons, value_bind, effect, hook_chain, effect]
  exact .foldlM fun p hp => (hps p hp).agree_hook (.refl rest)

namespace Local

theorem effect_congr (hp : p.Local) (hr : r.SameArrays r') (d : Definition) :
    p.effect r' d = p.effect r d := (hp.agree_hook hr d).value_eq

theorem asFixedArray?_effect (hp : p.Local) (rest : Registry) (d : Definition) :
    (p.effect rest d).asFixedArray? = d.asFixedArray? := by
  cases d with
  | fixedArray d => exact congrArg some (hp.onFixedArray rest d _ ⟨.new, default⟩)
  | _ => rfl

/-- From whatever state, a visit makes the effect of the policy. -/
theorem visit (hp : p.Local) (hr : r.SameArrays r') (d : Definition) (s : PassState σ) :
    (p.visit r' d s).1 = p.effect r d := by
  rw [visit_eq]
  calc (p.onDefinition r' (p.hook r' d s).1 (p.hook r' d s).2).1
      = (p.hook r' d s).1 := hp.onDefinition r' _ _ s
    _ = p.effect r d := (hp.agree_hook hr d _ s).symm

end Local

end VisitPolicy

namespace Registry

variable {p : VisitPolicy σ} {ps : List (VisitPolicy σ)} {r : Registry}

/-! ### Passes -/

theorem runDetached_of_get? {id : DefId} {d : Definition} (hd : r.get? id = some d) (own : σ)
    (action : Registry → Definition → PassM σ Definition) :
    r.runDetached own id action =
      ({ r.put id (action (r.detach id) d ⟨r.names, own⟩).1 with
        names := (action (r.detach id) d ⟨r.names, own⟩).2.names },
        (action (r.detach id) d ⟨r.names, own⟩).2.own) := by
  rw [runDetached, updateDetached_of_get? hd]
  rfl

theorem runDetached_of_get?_eq_none {id : DefId} (hd : r.get? id = none) (own : σ)
    (action : Registry → Definition → PassM σ Definition) :
    r.runDetached own id action = (r, own) := by
  rw [runDetached, updateDetached_of_get?_eq_none hd]

/-- The empty chain changes nothing at all. -/
theorem visitAll_chain_nil (r : Registry) (own : σ) :
    r.visitAll (VisitPolicy.chain []) own = (r, own) := by
  have hvisit : ∀ rest d, (VisitPolicy.chain ([] : List (VisitPolicy σ))).visit rest d = pure d := by
    intro rest d
    rw [VisitPolicy.visit_eq, VisitPolicy.hook_chain]
    rfl
  have hstep : ∀ id, r.runDetached own id (VisitPolicy.chain []).visit = (r, own) := by
    intro id
    cases hd : r.get? id with
    | none => exact runDetached_of_get?_eq_none hd own _
    | some d =>
      rw [runDetached_of_get? hd, hvisit]
      change (r.put id d, own) = (r, own)
      rw [put_self hd]
  unfold visitAll
  induction r.ids with
  | nil => rfl
  | cons id ids ih => exact (congrArg (ids.foldl _) (hstep id)).trans ih

variable [Inhabited σ]

/-- A pass applies the effect of its policy to all slots at once. -/
theorem maps_visitAll (hp : p.Local) (r : Registry) (own : σ) :
    r.Maps (fun id => p.effect (r.detach id)) r.ids (r.visitAll p own).1 := by
  refine Maps.foldl Prod.fst (a := (r, own)) (fun {done a id} h _ => ?_) (nodup_ids r)
  have hsame := (h.sameArrays fun id => hp.asFixedArray?_effect _).detach id
  obtain ⟨s, own⟩ := a
  cases hd : s.get? id with
  | none =>
    have hrun := runDetached_of_get?_eq_none hd own p.visit
    simp only [hrun]
    exact .of_eq_self fun d hd' => by rw [hd] at hd'; cases hd'
  | some d =>
    have hrun := runDetached_of_get? hd own p.visit
    simp only [hrun, hp.visit hsame]
    exact .withNames (.put hd) _

/-- The passes of local policies in sequence apply the effect of their chain. -/
theorem maps_passes (hps : ∀ p ∈ ps, p.Local) (r : Registry) (own : σ) :
    r.Maps (fun id => (VisitPolicy.chain ps).effect (r.detach id)) r.ids
      (ps.foldl (fun s p => s.1.visitAll p s.2) (r, own)).1 := by
  induction ps generalizing r own with
  | nil =>
    refine .of_get? rfl rfl rfl rfl fun id => ?_
    cases hd : r.get? id with
    | none => exact hd
    | some d => simpa using hd
  | cons p ps ih =>
    have hp := hps p (List.mem_cons_self ..)
    have hps' : ∀ p ∈ ps, p.Local := fun p hp => hps p (List.mem_cons_of_mem _ hp)
    have hpass := maps_visitAll hp r own
    have hsame := hpass.sameArrays fun id => hp.asFixedArray?_effect _
    have hrest := hpass.comp (ih hps' (r.visitAll p own).1 (r.visitAll p own).2)
    have heffect : (fun id => (VisitPolicy.chain (p :: ps)).effect (r.detach id)) =
        fun id d => (VisitPolicy.chain ps).effect ((r.visitAll p own).1.detach id)
          (p.effect (r.detach id) d) := by
      funext id d
      rw [VisitPolicy.effect_chain_cons hps',
        (VisitPolicy.local_chain hps').effect_congr (hsame.detach id)]
    rw [heffect]
    exact hrest

end Registry

/-- **A chain is its policies in sequence.** A pass with a chain of stock policies leaves the same
definitions, in the same slots and under the same names, as a pass with each of them in turn. Only
the order in which names are met may differ. The empty chain changes nothing. -/
theorem Visitor.visitAll_chain_eq_passes (r : Registry) (vs : List Visitor) (own : Trace) :
    { (r.visitAll (Visitor.chain vs).policy own).1 with names := r.names } =
      { (vs.foldl (fun s v => s.1.visitAll v.policy s.2) (r, own)).1 with names := r.names } ∧
    r.visitAll (Visitor.chain []).policy own = (r, own) := by
  refine ⟨?_, Registry.visitAll_chain_nil r own⟩
  have hlocal := policies_local vs
  have hchain := Registry.maps_visitAll (VisitPolicy.local_chain hlocal) r own
  have hpasses := Registry.maps_passes hlocal r own
  have hfold : (policies vs).foldl (fun s p => s.1.visitAll p s.2) (r, own) =
      vs.foldl (fun s v => s.1.visitAll v.policy s.2) (r, own) := by
    rw [policies_eq_map, List.foldl_map]
  rw [hfold] at hpasses
  exact congrArg (fun t => { t with names := r.names }) (hchain.eq hpasses fun _ => Iff.rfl)

end Bindery
