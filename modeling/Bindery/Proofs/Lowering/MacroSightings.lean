import Bindery.Proofs.Lowering.Classification
import Bindery.Proofs.Lowering.Logging
import Bindery.Proofs.Lowering.Reached

/-!
# The macros of a header

The macros of a header are first registered, each where its name is free, and then every macro of
the registry that has a type is classified. A macro that was there before is settled already, so
nothing becomes of it (`carries_lowerMacros`), and what is new is accounted for by the declarations
(`accounts_lowerMacros`).
-/

namespace Bindery

/-- The macros that have a body and that no filter leaves out. -/
def macroSightings (skips : MacroDecl → Bool) (decls : List MacroDecl) : List Sighting :=
  (decls.filter fun decl => !(Text.trim decl.text.toList).isEmpty && !skips decl).map .macroDef

/-- Classification changes a macro that is not settled, and settles it. -/
inductive Definition.Classifies : Definition → Definition → Prop where
  | refl (d : Definition) : Classifies d d
  | classify {m m' : MacroDef} (h : ¬m.Settled) (hs : m'.Settled)
      (he : { m' with constant := false, hostText := none } =
        { m with constant := false, hostText := none }) : Classifies (macroDef m) (macroDef m')

namespace Definition.Classifies

variable {d d' d'' : Definition}

theorem eq_structDef {d' : StructDef} (h : Classifies d (structDef d')) : d = structDef d' := by
  cases h
  rfl

theorem makes {e : Sighting} {s t : Registry} (h : Classifies d d') (hm : e.Makes s t d) :
    e.Makes s t d' := by
  cases h with
  | refl => exact hm
  | classify _ _ he =>
    cases e with
    | macroDef decl =>
      obtain ⟨env, m, hd, hm⟩ := hm
      cases hd
      exact ⟨env, _, rfl, he.trans hm⟩
    | _ => cases hm.kind_eq

/-- What is settled stays as it is. -/
theorem completes {x : ExportMap} (h : Classifies d' d'') (hd : d.Settled x)
    (hc : d.Completes d') : d.Completes d'' := by
  cases h with
  | refl => exact hc
  | classify hn =>
    cases hc
    exact absurd hd hn

end Definition.Classifies

/-- Classification settles a macro that is not settled, and leaves all else alone. -/
theorem Definition.classifies_classified (env : MacroEnv) (d : Definition) :
    d.Classifies (d.classified env) ∧ ∀ m, d.classified env = macroDef m → m.Settled := by
  rcases d.classified_cases env with ⟨h, hset⟩ | ⟨m, e, rfl, hty, he, hhost, h⟩ <;> rw [h]
  · exact ⟨.refl d, hset⟩
  · have hn : ¬m.Settled := by
      rw [MacroDef.Settled, he, hhost, ← Option.not_isSome_iff_eq_none, hty]
      simp
    refine ⟨.classify hn (.inr (.inr rfl)) rfl, fun m' hm' => ?_⟩
    cases hm'
    exact .inr (.inr rfl)

namespace Registry

variable {x : ExportMap} {r s t : Registry} {id other : DefId} {d : Definition} {n : String}

/-! ### Classification -/

/-- Classifying every macro. -/
def classifyAll (r : Registry) : Registry := r.ids.foldl classifyMacro r

theorem find?_classifyAll (r : Registry) (n : String) :
    r.classifyAll.find? n = (r.find? n).map (Definition.classified r.macroEnv) := by
  have hmaps := maps_foldl_classifyMacro r r.nodup_ids
  unfold find? lookup? classifyAll
  rw [hmaps.index]
  cases r.index.lookup n with
  | none => rfl
  | some id => exact hmaps.get?_of_ids id

/-- What is found after classification was found before. -/
theorem exists_of_find?_classifyAll (h : r.classifyAll.find? n = some d) :
    ∃ d₀, r.find? n = some d₀ ∧ d₀.Classifies d ∧ ∀ m, d = .macroDef m → m.Settled := by
  rw [find?_classifyAll] at h
  obtain ⟨d₀, hf, rfl⟩ := Option.map_eq_some_iff.mp h
  exact ⟨d₀, hf, d₀.classifies_classified r.macroEnv⟩

theorem advances_classifyAll (h : r.WellTyped) : r.Advances r.classifyAll :=
  .foldl (fun id h => .classifyMacro h id) h r.ids

/-- What was accounted for is so after classification. -/
theorem Accounts.classifyAll {log : List Sighting} (h : s.Accounts log t) (hs : s.WellTyped)
    (ht : t.WellTyped) : s.Accounts log t.classifyAll := by
  have ha := advances_classifyAll ht
  refine ⟨fun e he => ?_, fun {n d} hn hd => ?_, fun {n d} hd hcomplete => ?_⟩
  · exact (h.seen e he).grow ha.grows ht.consistent ha.wellTyped.consistent
  · obtain ⟨d₀, hf, hc, -⟩ := exists_of_find?_classifyAll hd
    obtain ⟨e, he, hm⟩ := h.made hn hf
    exact ⟨e, he, (hc.makes hm).widen (.refl hs) ha⟩
  · obtain ⟨d₀, hf, hc, -⟩ := exists_of_find?_classifyAll hd
    rw [hc.eq_structDef] at hf
    rcases h.filled hf hcomplete with hs' | ⟨haw, decl, hb, hfill⟩
    · exact .inl hs'
    · exact .inr ⟨haw, decl, hb, hfill.widen (.refl hs) ha⟩

/-! ### Registration -/

theorem inserts_insertMacro (h : s.WellTyped) (decl : MacroDecl) :
    s.Inserts (.macroDef (.ofDecl s.macroEnv decl)) (s.insertMacro decl) :=
  (h.consistent.mention decl.name).find?_insert _

theorem foldl_insertMacro (decls : List MacroDecl) : ∀ {s : Registry}, s.WellTyped →
    s.Keeps (decls.foldl insertMacro s) ∧
      s.Accounts (decls.map .macroDef) (decls.foldl insertMacro s) := by
  induction decls with
  | nil => exact fun h => ⟨.refl h, .refl⟩
  | cons decl decls ih =>
    intro s h
    have ha := Advances.insertMacro h decl
    have hi := inserts_insertMacro h decl
    have hk := hi.keeps ha
    obtain ⟨hk', hlog⟩ := ih ha.wellTyped
    have hone : s.Accounts [.macroDef decl] (s.insertMacro decl) :=
      hi.accounts h ha rfl ⟨_, _, rfl, rfl⟩ nofun (.of_taken (hi.taken ha))
    exact ⟨hk.trans hk', hone.trans h hk hk' hlog⟩

/-! ### All macros of a header -/

variable {skips : MacroDecl → Bool} {decls : List MacroDecl}

theorem lowerMacros_eq (s : Registry) (skips : MacroDecl → Bool) (decls : List MacroDecl) :
    ∃ t, s.lowerMacros skips decls = t.classifyAll ∧
      (s.WellTyped → s.Keeps t ∧ s.Accounts (macroSightings skips decls) t) :=
  ⟨_, rfl, fun h => foldl_insertMacro _ h⟩

/-- Nothing becomes of what is settled, and everything is settled afterwards. -/
theorem carries_lowerMacros (h : s.WellTyped) (hs : s.Settled x) (skips : MacroDecl → Bool)
    (decls : List MacroDecl) : s.Carries x (s.lowerMacros skips decls) := by
  have ha := Advances.lowerMacros h skips decls
  obtain ⟨t, ht, hkeeps⟩ := lowerMacros_eq s skips decls
  obtain ⟨hk, hlog⟩ := hkeeps h
  rw [ht] at ha ⊢
  refine ⟨⟨ha, fun {n d} hd => ?_⟩, fun _ n d hd => ?_⟩
  · obtain ⟨d', hd', hc⟩ := hk.completes hd
    exact ⟨_, by rw [find?_classifyAll, hd']; rfl,
      (d'.classifies_classified t.macroEnv).1.completes (hs n d hd) hc⟩
  · obtain ⟨d₀, hf, hc, hset⟩ := exists_of_find?_classifyAll hd
    cases d with
    | macroDef m => exact hset m rfl
    | functionDef f =>
      cases hc
      -- no macro is a function, so this one was there before
      cases hs' : s.find? n with
      | none =>
        obtain ⟨e, he, hm⟩ := hlog.made hs' hf
        obtain ⟨decl, -, rfl⟩ := List.mem_map.mp (firstNamed_eq_some he).1
        cases hm.kind_eq
      | some d₁ =>
        obtain ⟨d₂, hd₂, hc⟩ := hk.completes hs'
        cases hf.symm.trans hd₂
        exact hc.settled (hs n d₁ hs')
    | _ => trivial

theorem accounts_lowerMacros (h : s.WellTyped) (skips : MacroDecl → Bool)
    (decls : List MacroDecl) :
    s.Accounts (macroSightings skips decls) (s.lowerMacros skips decls) := by
  obtain ⟨t, ht, hkeeps⟩ := lowerMacros_eq s skips decls
  obtain ⟨hk, hlog⟩ := hkeeps h
  rw [ht]
  exact hlog.classifyAll h hk.advances.wellTyped

end Registry

end Bindery
