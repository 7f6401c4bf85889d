import Mathlib
import Bindery.Lowering.Macros
import Bindery.Proofs.Expr.Constancy
import Bindery.Proofs.Registry.InPlace

/-!
# Classifying macros in place

The macros of a header are classified in a loop over all slots, and each step reads the flags that
the steps before it have stored. The flags that it finds are those that it would have worked out
itself (`Maps.settles`), so the loop classifies every macro as the registry before it says, in
whatever order it goes (`lowerMacros_classifies_at_once`).
-/

namespace Bindery

/-- The definition, which is classified as the environment says and written in host syntax if it is
a macro with a type for which that has not been done. -/
def Definition.classified (env : MacroEnv) : Definition → Definition
  | macroDef ⟨label, text, some e, some ty, _, none⟩ =>
    macroDef ⟨label, text, some e, some ty, e.isConstant env, some e.render⟩
  | d => d

/-- What is known about a macro that is registered. -/
def MacroDef.info (m : MacroDef) : MacroInfo :=
  ⟨m.ty, m.expr, if m.hostText.isSome then some m.constant else none⟩

theorem Definition.classified_congr {env env' : MacroEnv}
    (h : ∀ e : Expr, e.isConstant env' = e.isConstant env) (d : Definition) :
    d.classified env' = d.classified env := by
  cases d with
  | macroDef m =>
    obtain ⟨label, text, expr, ty, constant, hostText⟩ := m
    cases expr <;> cases ty <;> cases hostText <;> simp [classified, h]
  | _ => rfl

/-- There is nothing to classify, or the definition is a macro that has waited for it. -/
theorem Definition.classified_cases (env : MacroEnv) (d : Definition) :
    (d.classified env = d ∧
      ∀ m, d = macroDef m → m.ty = none ∨ m.expr = none ∨ m.hostText.isSome = true) ∨
    ∃ m e, d = macroDef m ∧ m.ty.isSome = true ∧ m.expr = some e ∧ m.hostText = none ∧
      d.classified env =
        macroDef { m with constant := e.isConstant env, hostText := some e.render } := by
  cases d with
  | macroDef m =>
    obtain ⟨label, text, expr, ty, constant, hostText⟩ := m
    cases expr with
    | none => exact .inl ⟨rfl, fun m hm => by cases hm; exact .inr (.inl rfl)⟩
    | some e =>
      cases ty with
      | none => exact .inl ⟨rfl, fun m hm => by cases hm; exact .inl rfl⟩
      | some ty =>
        cases hostText with
        | none => exact .inr ⟨_, e, rfl, rfl, rfl, rfl, rfl⟩
        | some text => exact .inl ⟨rfl, fun m hm => by cases hm; exact .inr (.inr rfl)⟩
  | _ => exact .inl ⟨rfl, fun m hm => by cases hm⟩

theorem Definition.name_classified (env : MacroEnv) (d : Definition) :
    (d.classified env).name = d.name := by
  rcases d.classified_cases env with ⟨h, -⟩ | ⟨m, e, rfl, -, -, -, h⟩ <;> rw [h]
  rfl

/-- What is known about a classified macro is the same, or its constness has been decided. -/
theorem Definition.info_classified (env : MacroEnv) (d : Definition) :
    (d.classified env).asMacro?.map MacroDef.info = d.asMacro?.map MacroDef.info ∨
      ∃ m e, d = macroDef m ∧ m.info.constant = none ∧ m.info.expr = some e ∧
        (d.classified env).asMacro?.map MacroDef.info =
          some { m.info with constant := some (e.isConstant env) } := by
  rcases d.classified_cases env with ⟨h, -⟩ | ⟨m, e, rfl, -, he, hhost, h⟩ <;> rw [h]
  · exact .inl rfl
  · exact .inr ⟨m, e, rfl, by rw [MacroDef.info, hhost]; rfl, he, rfl⟩

namespace Registry

variable {r s t : Registry} {id : DefId} {ids : List DefId} {name : String}

/-- What is known about the macro in a slot. -/
def macroInfo? (r : Registry) (id : DefId) : Option MacroInfo :=
  ((r.get? id).bind Definition.asMacro?).map MacroDef.info

theorem macroEnv_eq (r : Registry) : r.macroEnv =
    r.index.filterMap fun x => (r.macroInfo? x.2).map fun info => (x.1, info) := by
  unfold macroEnv macroInfo?
  refine List.filterMap_congr fun x _ => ?_
  rw [Option.map_map]
  rfl

/-- A name leads to the same slot in both registries, if they have the same index and the same slots
hold macros. -/
theorem find?_macroEnv_cases (hindex : s.index = r.index)
    (hsome : ∀ id, (s.macroInfo? id).isSome = (r.macroInfo? id).isSome) (name : String) :
    (r.macroEnv.find? name = none ∧ s.macroEnv.find? name = none) ∨
    ∃ id, (r.macroInfo? id).isSome = true ∧ r.macroEnv.find? name = r.macroInfo? id ∧
      s.macroEnv.find? name = s.macroInfo? id := by
  rw [macroEnv_eq, macroEnv_eq, hindex]
  unfold MacroEnv.find?
  induction r.index with
  | nil => exact .inl ⟨rfl, rfl⟩
  | cons x l ih =>
    obtain ⟨n, id⟩ := x
    simp only [List.filterMap_cons]
    cases hr : r.macroInfo? id with
    | none =>
      have hs : s.macroInfo? id = none := by
        rw [← Option.isNone_iff_eq_none, ← Option.not_isSome, hsome, hr]
        rfl
      simpa only [hs, Option.map_none] using ih
    | some info =>
      obtain ⟨info', hs⟩ : ∃ info', s.macroInfo? id = some info' :=
        Option.isSome_iff_exists.mp (by rw [hsome, hr]; rfl)
      simp only [hs, Option.map_some, List.lookup_cons]
      by_cases hn : name = n
      · exact .inr ⟨id, by rw [hr]; rfl, by simp [hn, hr], by simp [hn, hs]⟩
      · simpa only [beq_eq_false_iff_ne.mpr hn] using ih

/-- When some macros have been classified, what is known about macros is what the registry before
says. -/
theorem Maps.settles (h : r.Maps (fun _ => Definition.classified r.macroEnv) ids s) :
    r.macroEnv.Settles s.macroEnv := by
  have hinfo : ∀ id, s.macroInfo? id = r.macroInfo? id ∨
      ∃ info e, r.macroInfo? id = some info ∧ info.constant = none ∧ info.expr = some e ∧
        s.macroInfo? id = some { info with constant := some (e.isConstant r.macroEnv) } := by
    intro id
    unfold macroInfo?
    rw [h.get?]
    cases r.get? id with
    | none => simp
    | some d =>
      split
      · rcases d.info_classified r.macroEnv with hd | ⟨m, e, rfl, hc, he, hd⟩
        · exact .inl hd
        · exact .inr ⟨m.info, e, rfl, hc, he, hd⟩
      · exact .inl rfl
  have hsome : ∀ id, (s.macroInfo? id).isSome = (r.macroInfo? id).isSome := by
    intro id
    rcases hinfo id with hs | ⟨info, e, hr, -, -, hs⟩
    · rw [hs]
    · rw [hr, hs]
      rfl
  intro name
  rcases find?_macroEnv_cases h.index hsome name with ⟨hr, hs⟩ | ⟨id, -, hr, hs⟩
  · exact .inl (hs.trans hr.symm)
  · rw [hr, hs]
    exact hinfo id

theorem names_classifyMacro (r : Registry) (id : DefId) : (r.classifyMacro id).names = r.names := by
  unfold classifyMacro
  split
  · split <;> rfl
  · rfl

theorem names_foldl_classifyMacro (ids : List DefId) (r : Registry) :
    (ids.foldl classifyMacro r).names = r.names := by
  induction ids generalizing r with
  | nil => rfl
  | cons id ids ih => exact (ih _).trans (names_classifyMacro r id)

/-- One step classifies the macro in its slot. -/
theorem maps_classifyMacro (r : Registry) (id : DefId) :
    r.Maps (fun _ => Definition.classified r.macroEnv) [id] (r.classifyMacro id) := by
  unfold classifyMacro
  split
  · next m hm =>
    obtain ⟨label, text, expr, ty, constant, hostText⟩ := m
    split
    · next ty e hty he hhost =>
      cases hty
      cases he
      cases hhost
      refine .modify fun d hd => ?_
      cases hm.symm.trans hd
      rfl
    · next hne =>
      refine .of_eq_self fun d hd => ?_
      cases hm.symm.trans hd
      cases expr with
      | none => rfl
      | some e =>
        cases ty with
        | none => rfl
        | some ty =>
          cases hostText with
          | none => exact absurd rfl (hne ty e rfl rfl)
          | some text => rfl
  · next hne =>
    refine .of_eq_self fun d hd => ?_
    cases d with
    | macroDef m => exact absurd hd (hne m)
    | _ => rfl

/-- A loop over slots classifies their macros as the registry before the loop says. -/
theorem maps_foldl_classifyMacro (r : Registry) (hn : ids.Nodup) :
    r.Maps (fun _ => Definition.classified r.macroEnv) ids (ids.foldl classifyMacro r) := by
  refine Maps.foldl (fun s => s) (fun {done s id} h _ => ?_) hn
  have hstep := maps_classifyMacro s id
  have henv : Definition.classified s.macroEnv = Definition.classified r.macroEnv :=
    funext (Definition.classified_congr h.settles.isConstant_eq)
  rwa [henv] at hstep

/-- The registry with the macros of the declarations, none of which has been classified. -/
def registerMacros (r : Registry) (skips : MacroDecl → Bool) (decls : List MacroDecl) : Registry :=
  (decls.filter fun decl => !(Text.trim decl.text.toList).isEmpty && !skips decl).foldl insertMacro r

theorem maps_lowerMacros (r : Registry) (skips : MacroDecl → Bool) (decls : List MacroDecl) :
    (r.registerMacros skips decls).Maps
      (fun _ => Definition.classified (r.registerMacros skips decls).macroEnv)
      (r.registerMacros skips decls).ids (r.lowerMacros skips decls) :=
  maps_foldl_classifyMacro _ (nodup_ids _)

/-- **Macros are classified at once.** The loop that classifies the macros of a header one after the
other, and reads the flags that it has stored, makes of every definition what it is by the registry
before the first classification, be it referred to before or after, or in a circle. So it may take
the slots in any order. -/
theorem lowerMacros_classifies_at_once (r : Registry) (skips : MacroDecl → Bool)
    (decls : List MacroDecl) :
    let t := r.registerMacros skips decls
    (∀ id, (r.lowerMacros skips decls).get? id =
      (t.get? id).map (Definition.classified t.macroEnv)) ∧
    ∀ order : List DefId, order.Perm t.ids →
      order.foldl classifyMacro t = r.lowerMacros skips decls := by
  intro t
  have hmaps := r.maps_lowerMacros skips decls
  refine ⟨hmaps.get?_of_ids, fun order ho => ?_⟩
  have horder := maps_foldl_classifyMacro t (ho.nodup_iff.mpr t.nodup_ids)
  have hnames : (order.foldl classifyMacro t).names = (r.lowerMacros skips decls).names :=
    (names_foldl_classifyMacro order t).trans (names_foldl_classifyMacro t.ids t).symm
  have heq := horder.eq hmaps fun _ => ho.mem_iff
  rwa [← hnames] at heq

/-- Two macros in a circle through casts, and one that refers to a macro behind it. -/
def circleMacros : List MacroDecl :=
  [⟨"HEAD", "(int)TAIL"⟩, ⟨"TAIL", "(int)HEAD"⟩, ⟨"LIMIT", "(int)COUNT + 1"⟩, ⟨"COUNT", "3"⟩]

/-- Neither macro of the circle is a constant and both others are, also when the slots are taken from
the last to the first. -/
theorem lowerMacros_classifies_circle :
    let t := empty.registerMacros (fun _ => false) circleMacros
    ((empty.lowerMacros (fun _ => false) circleMacros).definitions.filterMap fun d =>
      d.asMacro?.map fun m => (m.label.name, m.constant)) =
        [("HEAD", false), ("TAIL", false), ("LIMIT", true), ("COUNT", true)] ∧
    t.ids.reverse.Perm t.ids ∧
    t.ids.reverse.foldl classifyMacro t = empty.lowerMacros (fun _ => false) circleMacros :=
  have hperm := List.reverse_perm (empty.registerMacros (fun _ => false) circleMacros).ids
  ⟨by cbv, hperm, (lowerMacros_classifies_at_once empty _ circleMacros).2 _ hperm⟩

end Registry

end Bindery
