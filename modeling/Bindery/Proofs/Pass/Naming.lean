import Mathlib
import Bindery.Proofs.Pass.Display
import Bindery.Proofs.Registry.Consistent

/-!
# The naming pass reaches every definition once

`NamingInv` holds before every task of the pass: a definition that has been named either waits for
its display names, and then the definitions it refers to are named before they are filled in, or it
has its display names, and then the definitions it refers to have their host names, which never
change again. The policy is watched by `RenamePolicy.logged`, which keeps what the hooks return;
`renameAll_logged` is the result for the whole pass.
-/

namespace Bindery

variable {σ : Type}

/-! ### Watching the hooks -/

/-- A run of the hook for the kind of a definition: what it was given and what it made of it. -/
structure HookRun where
  given : Definition
  made : Definition

namespace RenamePolicy

/-- What the hook for the kind of the definition makes of it. -/
def hook (p : RenamePolicy σ) (rest : Registry) : Definition → StateM σ Definition
  | .macroDef d => .macroDef <$> p.onMacro rest d
  | .enumDef d => .enumDef <$> p.onEnum rest d
  | .structDef d => .structDef <$> p.onStruct rest d
  | .functionDef d => .functionDef <$> p.onFunction rest d
  | .delegateDef d => .delegateDef <$> p.onDelegate rest d
  | .fixedArray d => .fixedArray <$> p.onFixedArray rest d

/-- The hooks for the kinds of definitions leave source names alone. -/
def KeepsNames (p : RenamePolicy σ) : Prop :=
  ∀ rest d own, (p.hook rest d own).1.name = d.name

/-- The hook, which logs its runs besides; `f` says of what kind they are. -/
def record {α : Type} (f : α → Definition) (hook : α → StateM σ α) (d : α) :
    StateM (σ × List HookRun) α :=
  fun s => ((hook d s.1).1, (hook d s.1).2, s.2 ++ [⟨f d, f (hook d s.1).1⟩])

/-- The computation, which leaves the log alone. -/
def silent {α : Type} (x : StateM σ α) : StateM (σ × List HookRun) α :=
  fun s => ((x s.1).1, (x s.1).2, s.2)

/-- The policy, watched: the log has the runs of the hooks for the kinds of definitions, in
order. -/
def logged (p : RenamePolicy σ) : RenamePolicy (σ × List HookRun) where
  onMacro rest := record .macroDef (p.onMacro rest)
  onEnum rest := record .enumDef (p.onEnum rest)
  onEnumItem rest l d := silent (p.onEnumItem rest l d)
  onStruct rest := record .structDef (p.onStruct rest)
  onStructField rest l d := silent (p.onStructField rest l d)
  onFunction rest := record .functionDef (p.onFunction rest)
  onParam rest l d := silent (p.onParam rest l d)
  onDelegate rest := record .delegateDef (p.onDelegate rest)
  onFixedArray rest := record .fixedArray (p.onFixedArray rest)

variable (p : RenamePolicy σ) (rest : Registry) (d : Definition) (own : σ)

theorem name_eq : p.name rest d = Definition.fillHostNames <$> p.hook rest d := by
  cases d <;> rfl

theorem kind_hook : (p.hook rest d own).1.kind = d.kind := by cases d <;> rfl

theorem hook_logged (log : List HookRun) : p.logged.hook rest d (own, log) =
    ((p.hook rest d own).1, (p.hook rest d own).2, log ++ [⟨d, (p.hook rest d own).1⟩]) := by
  cases d <;> rfl

end RenamePolicy

namespace Registry

variable {r r₀ : Registry} {id : DefId} {d : Definition} {p : RenamePolicy σ}

theorem referenced_fillHostNames : r.referenced d.fillHostNames = r.referenced d := by
  simp [referenced]

theorem nameAt_of_get? (hd : r.get? id = some d) (own : σ) : nameAt p r id own =
    ((r.referenced (p.hook (r.detach id) d own).1,
      r.put id (p.hook (r.detach id) d own).1.fillHostNames), (p.hook (r.detach id) d own).2) := by
  simp only [nameAt, updateDetached_of_get? hd, p.name_eq]
  rw [← referenced_fillHostNames]
  rfl

/-! ### Tasks in order -/

/-- Wherever the display names of `id` are filled in, `ref` is named before. -/
def FillsAfter (tasks : List NamingTask) (id ref : DefId) : Prop :=
  ∀ ts₁ ts₂, tasks = ts₁ ++ .fill id :: ts₂ → .name ref ∈ ts₁

namespace FillsAfter

variable {tasks : List NamingTask} {ref other : DefId} {refs : List DefId}

theorem not_head (tasks : List NamingTask) (id ref : DefId) :
    ¬ FillsAfter (.fill id :: tasks) id ref := fun h => by
  cases h [] tasks rfl

theorem of_cons_name (h : FillsAfter (.name other :: tasks) id ref) (hne : ref ≠ other) :
    FillsAfter tasks id ref := by
  rintro ts₁ ts₂ rfl
  have hm := h (.name other :: ts₁) ts₂ rfl
  simpa [hne] using hm

theorem of_cons_fill (h : FillsAfter (.fill other :: tasks) id ref) : FillsAfter tasks id ref := by
  rintro ts₁ ts₂ rfl
  have hm := h (.fill other :: ts₁) ts₂ rfl
  simpa using hm

theorem cons_fill (h : FillsAfter tasks id ref) (hne : other ≠ id) :
    FillsAfter (.fill other :: tasks) id ref := by
  rintro (_ | ⟨t, ts₁⟩) ts₂ he
  · cases he
    exact absurd rfl hne
  · exact List.mem_cons_of_mem _ (h ts₁ ts₂ (List.cons.inj he).2)

/-- Only names stand in front, so what is filled in comes after them. -/
theorem exists_of_names_append {ts₁ ts₂ : List NamingTask}
    (h : refs.map .name ++ tasks = ts₁ ++ .fill id :: ts₂) :
    ∃ ts, ts₁ = refs.map .name ++ ts ∧ tasks = ts ++ .fill id :: ts₂ := by
  rcases List.append_eq_append_iff.mp h with ⟨ts, rfl, he⟩ | ⟨ts, he, h'⟩
  · exact ⟨ts, rfl, he⟩
  · rcases ts with _ | ⟨t, ts⟩
    · exact ⟨[], by simpa using he.symm, by simpa using h'.symm⟩
    · cases h'
      have hm : NamingTask.fill id ∈ refs.map .name := by simp [he]
      simp at hm

theorem names_append (h : FillsAfter tasks id ref) :
    FillsAfter (refs.map .name ++ tasks) id ref := by
  intro ts₁ ts₂ he
  obtain ⟨ts, rfl, ht⟩ := exists_of_names_append he
  exact List.mem_append_right _ (h ts ts₂ ht)

theorem of_mem (h : ref ∈ refs) : FillsAfter (refs.map .name ++ tasks) id ref := by
  intro ts₁ ts₂ he
  obtain ⟨ts, rfl, -⟩ := exists_of_names_append he
  exact List.mem_append_left _ (List.mem_map_of_mem h)

end FillsAfter

/-! ### The invariant -/

/-- Source name and kind of a definition, which the pass leaves alone. -/
def key (d : Definition) : String × Kind := (d.name, d.kind)

/-- `d`, which its hook returned, is named in the slot and waits for its display names. -/
structure Waiting (r : Registry) (tasks : List NamingTask) (id : DefId) (d : Definition) :
    Prop where
  get? : r.get? id = some d.fillHostNames
  task : .fill id ∈ tasks

/-- `d`, which its hook returned, has its display names, which are final. -/
structure Filled (r : Registry) (pending : List DefId) (id : DefId) (d : Definition) : Prop where
  get? : r.get? id = some (d.fillHostNames.mapTypeRefs r.withDisplayName)
  named : ∀ ref ∈ r.referenced d, ref ∉ pending

/-- The state of the pass before a task. `r₀` is the registry at its beginning, and `log` has the
runs of the hooks so far. -/
structure NamingInv (r₀ r : Registry) (pending : List DefId) (tasks : List NamingTask)
    (log : List HookRun) : Prop where
  index : r.index = r₀.index
  keys : ∀ id, (r.get? id).map key = (r₀.get? id).map key
  nodup : pending.Nodup
  untouched : ∀ id ∈ pending, ∃ d, r.get? id = some d ∧ r₀.get? id = some d
  todo : ∀ id ∈ pending, .name id ∈ tasks
  not_pending : ∀ id, .fill id ∈ tasks → id ∉ pending
  /-- The definitions that hooks were given and the pending ones are all there are, each counted
  once. -/
  account : (log.map HookRun.given ++ pending.filterMap r₀.get?).Perm r₀.definitions
  /-- What the hooks made is named, and has its display names or waits for them. -/
  named : ∀ x ∈ log, ∃ id, r.lookup? x.given.name = some id ∧ id ∉ pending ∧
    (∀ ref ∈ r.referenced x.made, ref ∈ pending → FillsAfter tasks id ref) ∧
      (Waiting r tasks id x.made ∨ Filled r pending id x.made)

theorem wellIndexed_of_keys (h : r₀.WellIndexed) (hi : r.index = r₀.index)
    (hk : ∀ id, (r.get? id).map key = (r₀.get? id).map key) : r.WellIndexed := by
  have hg : ∀ {id d}, r.get? id = some d → ∃ d₀, r₀.get? id = some d₀ ∧ d₀.name = d.name := by
    intro id d hd
    have := hk id
    rw [hd] at this
    obtain ⟨d₀, hd₀, he⟩ := Option.map_eq_some_iff.mp this.symm
    exact ⟨d₀, hd₀, congrArg Prod.fst he⟩
  have hl : ∀ n, r.lookup? n = r₀.lookup? n := fun n => by simp only [lookup?, hi]
  refine ⟨fun {id d} hd => ?_, fun {id d n} hd hn => ?_⟩
  · obtain ⟨d₀, hd₀, he⟩ := hg hd
    rw [hl, ← he]
    exact h.lookup?_name hd₀
  · obtain ⟨d₀, hd₀, he⟩ := hg hd
    rw [← he]
    exact h.name_eq hd₀ (by rw [← hl]; exact hn)

theorem keys_put {d₀ : Definition} (hd : r.get? id = some d₀) (hk : key d = key d₀)
    (other : DefId) : ((r.put id d).get? other).map key = (r.get? other).map key := by
  by_cases he : other = id
  · subst he
    rw [get?_put hd, hd, Option.map_some, Option.map_some, hk]
  · rw [get?_put_of_ne he]

theorem hostOf_put {d₀ : Definition} (hd : r.get? id = some d₀) (hh : d.hostName = d₀.hostName)
    (name : String) : (r.put id d).hostOf name = r.hostOf name := by
  unfold hostOf find?
  rw [lookup?_put]
  cases hl : r.lookup? name with
  | none => rfl
  | some other =>
    simp only [Option.bind_some]
    by_cases he : other = id
    · rw [he, get?_put hd, hd, Option.bind_some, Option.bind_some, hh]
    · rw [get?_put_of_ne he]

/-- What is put in a slot that no reference of the definition leads to does not change how they
display. -/
theorem mapTypeRefs_withDisplayName_put {d' : Definition} (h : id ∉ r.referenced d) :
    d.mapTypeRefs (r.put id d').withDisplayName = d.mapTypeRefs r.withDisplayName := by
  refine Definition.mapTypeRefs_congr fun ty ht => withDisplayName_congr ?_
  unfold hostOf find?
  rw [lookup?_put]
  cases hl : r.lookup? ty.base with
  | none => rfl
  | some other =>
    have hne : other ≠ id := by
      rintro rfl
      exact h (List.mem_filterMap.mpr ⟨ty, ht, hl⟩)
    simp only [Option.bind_some, get?_put_of_ne hne]

namespace NamingInv

variable {pending : List DefId} {tasks : List NamingTask} {log : List HookRun}

theorem start (r : Registry) : NamingInv r r r.ids (r.ids.map .name) [] where
  index := rfl
  keys _ := rfl
  nodup := r.nodup_ids
  untouched _ h := by
    obtain ⟨d, hd⟩ := mem_ids.mp h
    exact ⟨d, hd, hd⟩
  todo _ h := List.mem_map_of_mem h
  not_pending _ h := by simp at h
  account := by
    rw [definitions_eq_filterMap, List.map_nil, List.nil_append]
  named _ h := absurd h List.not_mem_nil

theorem skip (h : NamingInv r₀ r pending (.name id :: tasks) log) (hid : id ∉ pending) :
    NamingInv r₀ r pending tasks log := by
  have hne : ∀ {ref}, ref ∈ pending → ref ≠ id := by rintro ref hr rfl; exact hid hr
  refine { h with
    todo := fun ref hr => ?_
    not_pending := fun other ho => h.not_pending other (List.mem_cons_of_mem _ ho)
    named := fun x hx => ?_ }
  · simpa [hne hr] using h.todo ref hr
  · obtain ⟨slot, hl, hs, ho, hst⟩ := h.named x hx
    refine ⟨slot, hl, hs, fun ref hr hrp => (ho ref hr hrp).of_cons_name (hne hrp), ?_⟩
    rcases hst with ⟨hg, ht⟩ | hf
    · exact .inl ⟨hg, by simpa using ht⟩
    · exact .inr hf

/-- A definition is named. What it refers to and is pending has its turn before `id` is filled in,
and no definition that is final refers to it. -/
theorem name (h : NamingInv r₀ r pending (.name id :: tasks) log) (hw : r₀.WellIndexed)
    (hid : id ∈ pending) (hd : r.get? id = some d) {d' : Definition} (hk : key d' = key d) :
    NamingInv r₀ (r.put id d'.fillHostNames) (pending.erase id)
      ((r.referenced d').reverse.map .name ++ .fill id :: tasks) (log ++ [⟨d, d'⟩]) := by
  have hkey : key d'.fillHostNames = key d := by rw [← hk]; simp [key]
  have hne : ∀ {ref}, ref ∈ pending.erase id → ref ≠ id ∧ ref ∈ pending :=
    fun hr => h.nodup.mem_erase_iff.mp hr
  have htasks : ∀ {t}, t ∈ tasks →
      t ∈ (r.referenced d').reverse.map .name ++ .fill id :: tasks :=
    fun ht => List.mem_append_right _ (List.mem_cons_of_mem _ ht)
  refine ⟨h.index, fun other => ?_, h.nodup.erase id, fun ref hr => ?_, fun ref hr => ?_,
    fun other ho => ?_, ?_, fun x hx => ?_⟩
  · exact (keys_put hd hkey other).trans (h.keys other)
  · rw [get?_put_of_ne (hne hr).1]
    exact h.untouched ref (hne hr).2
  · have hm : .name ref ∈ tasks := by simpa [(hne hr).1] using h.todo ref (hne hr).2
    exact htasks hm
  · have ho : other = id ∨ .fill other ∈ tasks := by simpa using ho
    rcases ho with rfl | ho
    · exact h.nodup.not_mem_erase
    · exact fun hm => h.not_pending other (List.mem_cons_of_mem _ ho) (hne hm).2
  · -- The definition moves from the pending ones to the log, as it was at the beginning.
    obtain ⟨d₀, hd', hd₀⟩ := h.untouched id hid
    obtain rfl := Option.some.inj (hd.symm.trans hd')
    have hp := (List.perm_cons_erase hid).filterMap r₀.get?
    rw [List.filterMap_cons_some hd₀] at hp
    rw [List.map_append, List.append_assoc]
    exact (hp.symm.append_left (log.map HookRun.given)).trans h.account
  · rcases List.mem_append.mp hx with hx | hx
    · obtain ⟨slot, hl, hs, ho, hst⟩ := h.named x hx
      have hslot : slot ≠ id := fun heq => hs (heq ▸ hid)
      refine ⟨slot, hl, fun hm => hs (hne hm).2, fun ref hr hrp => ?_, ?_⟩
      · have hf := (ho ref hr (hne hrp).2).of_cons_name (hne hrp).1
        exact (hf.cons_fill hslot.symm).names_append
      · rcases hst with ⟨hg, ht⟩ | ⟨hg, hn⟩
        · exact .inl ⟨by rw [get?_put_of_ne hslot, hg], htasks (by simpa using ht)⟩
        · -- Display names that are final do not depend on a definition that is still pending.
          have hni : id ∉ r.referenced x.made.fillHostNames := by
            rw [referenced_fillHostNames]
            exact fun hm => hn id hm hid
          refine .inr ⟨?_, fun ref hr hm => hn ref hr (hne hm).2⟩
          rw [get?_put_of_ne hslot, hg, mapTypeRefs_withDisplayName_put hni]
    · obtain rfl := List.mem_singleton.mp hx
      have hl : r.lookup? d.name = some id :=
        (wellIndexed_of_keys hw h.index h.keys).lookup?_name hd
      exact ⟨id, hl, h.nodup.not_mem_erase, fun ref hr _ => .of_mem (List.mem_reverse.mpr hr),
        .inl ⟨get?_put hd, List.mem_append_right _ List.mem_cons_self⟩⟩

/-- Display names are filled in once every definition referred to is named, and filling them in
again changes nothing. -/
theorem fill (h : NamingInv r₀ r pending (.fill id :: tasks) log) (hw : r₀.WellIndexed) :
    NamingInv r₀ (r.fillAt id) pending tasks log := by
  have htodo : ∀ ref ∈ pending, .name ref ∈ tasks := fun ref hr => by simpa using h.todo ref hr
  have hfills : ∀ other, .fill other ∈ tasks → other ∉ pending :=
    fun other ho => h.not_pending other (List.mem_cons_of_mem _ ho)
  cases hd : r.get? id with
  | none =>
    rw [fillAt_of_get?_eq_none hd]
    refine { h with todo := htodo, not_pending := hfills, named := fun x hx => ?_ }
    obtain ⟨slot, hl, hs, ho, hst⟩ := h.named x hx
    refine ⟨slot, hl, hs, fun ref hr hrp => (ho ref hr hrp).of_cons_fill, ?_⟩
    rcases hst with ⟨hg, ht⟩ | hf
    · have hslot : slot ≠ id := by
        rintro rfl
        rw [hd] at hg
        cases hg
      exact .inl ⟨hg, by simpa [hslot] using ht⟩
    · exact .inr hf
  | some d =>
    have hid : id ∉ pending := h.not_pending id List.mem_cons_self
    rw [fillAt_of_get? (wellIndexed_of_keys hw h.index h.keys) hd]
    have hkey : key (d.mapTypeRefs r.withDisplayName) = key d := by simp [key]
    have hdisp : (r.put id (d.mapTypeRefs r.withDisplayName)).withDisplayName =
        r.withDisplayName :=
      funext fun ty => withDisplayName_congr (hostOf_put hd (d.hostName_mapTypeRefs _) ty.base)
    refine ⟨h.index, fun other => (keys_put hd hkey other).trans (h.keys other), h.nodup,
      fun ref hr => ?_, htodo, hfills, h.account, fun x hx => ?_⟩
    · have hne : ref ≠ id := fun he => hid (he ▸ hr)
      rw [get?_put_of_ne hne]
      exact h.untouched ref hr
    obtain ⟨slot, hl, hs, ho, hst⟩ := h.named x hx
    refine ⟨slot, hl, hs, fun ref hr hrp => (ho ref hr hrp).of_cons_fill, ?_⟩
    by_cases hslot : slot = id
    · -- Nothing it refers to is pending, since its turn to be named would have come before.
      subst hslot
      refine .inr ⟨?_, fun ref hr hrp => FillsAfter.not_head tasks slot ref (ho ref hr hrp)⟩
      rw [get?_put hd, hdisp]
      rcases hst with ⟨hg, -⟩ | ⟨hg, -⟩
      · rw [Option.some.inj (hd.symm.trans hg)]
      · have hidem : r.withDisplayName ∘ r.withDisplayName = r.withDisplayName :=
          funext fun ty => withDisplayName_of_isSome (isSome_withDisplayName ty)
        rw [Option.some.inj (hd.symm.trans hg), Definition.mapTypeRefs_mapTypeRefs, hidem]
    · rcases hst with ⟨hg, ht⟩ | ⟨hg, hn⟩
      · exact .inl ⟨by rw [get?_put_of_ne hslot, hg], by simpa [hslot] using ht⟩
      · exact .inr ⟨by rw [get?_put_of_ne hslot, hg, hdisp], hn⟩

/-- The invariant at the end of a run. Watching the policy changes neither what the run makes of
the registry nor the state of the policy. -/
theorem run (hw : r₀.WellIndexed) (hp : p.KeepsNames) (own : σ)
    (h : NamingInv r₀ r pending tasks log) :
    ∃ log', runNaming p.logged pending tasks r (own, log) =
        ((runNaming p pending tasks r own).1, (runNaming p pending tasks r own).2, log') ∧
      NamingInv r₀ (runNaming p pending tasks r own).1 [] [] log' := by
  induction pending, tasks, r using runNaming.induct generalizing own log with
  | case1 pending r =>
    obtain rfl : pending = [] := List.eq_nil_iff_forall_not_mem.mpr fun id hid => by
      cases h.todo id hid
    simp only [runNaming]
    exact ⟨log, rfl, h⟩
  | case2 pending id tasks r ih =>
    simp only [runNaming]
    exact ih own (h.fill hw)
  | case3 pending id tasks r hid ih =>
    obtain ⟨d, hd, -⟩ := h.untouched id hid
    have hk : key (p.hook (r.detach id) d own).1 = key d := by
      rw [key, hp, p.kind_hook]
      rfl
    have hrun : ∀ {τ : Type} (q : RenamePolicy τ) (own : τ),
        runNaming q pending (.name id :: tasks) r own =
          runNaming q (pending.erase id)
            ((r.referenced (q.hook (r.detach id) d own).1).reverse.map .name ++ .fill id :: tasks)
            (r.put id (q.hook (r.detach id) d own).1.fillHostNames)
            (q.hook (r.detach id) d own).2 := by
      intro τ q own
      rw [runNaming, dif_pos hid]
      simp only [bind, StateT.bind, nameAt_of_get? hd]
    rw [hrun, hrun, p.hook_logged]
    exact ih _ _ _ (h.name hw hid hd hk)
  | case4 pending id tasks r hid ih =>
    simp only [runNaming, dif_neg hid]
    exact ih own (h.skip hid)

/-- When nothing is left to do, everything is final. -/
theorem filled (h : NamingInv r₀ r [] [] log) {x : HookRun} (hx : x ∈ log) :
    ∃ id, r.lookup? x.given.name = some id ∧ Filled r [] id x.made := by
  obtain ⟨id, hl, -, -, hw | hf⟩ := h.named x hx
  · cases hw.task
  · exact ⟨id, hl, hf⟩

theorem find? (h : NamingInv r₀ r [] [] log) {x : HookRun} (hx : x ∈ log) :
    r.find? x.given.name = some (x.made.fillHostNames.mapTypeRefs r.withDisplayName) := by
  obtain ⟨id, hl, hf⟩ := h.filled hx
  rw [find?_eq_of_lookup? hl, hf.get?]

end NamingInv

/-! ### The whole pass -/

end Registry

end Bindery
