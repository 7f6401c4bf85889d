import Bindery.Proofs.Lowering.Halting
import Bindery.Proofs.Lowering.Rules

/-!
# What holds of every step of lowering

Beside the steps of resolution, processing registers macros and functions and classifies macros. A
relation between a registry and what such a step makes of it is handed on to the processing of
headers, whether that succeeds or fails (`Registry.HeaderSteps.process`). So every fixed array in
the registry of a lowerer is as resolution writes it: it goes by the name of its structure, and one
that counts as an array of a primitive type has such a type as its element (`Used.arraysWritten`).
-/

namespace Bindery

open Registry

namespace Registry

/-- The relation holds of whatever a step of processing may do to a registry. -/
structure HeaderSteps (R : Registry → Registry → Prop) : Prop extends Steps R where
  insertFunction : ∀ (s : Registry) (d : FunctionDef), R s (s.insert (.functionDef d)).2
  insertMacro : ∀ (s : Registry) (d : MacroDef), R s (s.insert (.macroDef d)).2
  classifyMacro : ∀ (s : Registry) (id : DefId), R s (s.classifyMacro id)

namespace HeaderSteps

variable {α : Type} {R : Registry → Registry → Prop}

theorem foldl (h : HeaderSteps R) {f : Registry → α → Registry} (hf : ∀ s a, R s (f s a))
    (as : List α) (s : Registry) : R s (as.foldl f s) := by
  induction as generalizing s with
  | nil => exact h.refl s
  | cons a as ih => exact h.trans (hf s a) (ih (f s a))

theorem lowerMacros (h : HeaderSteps R) (skips : MacroDecl → Bool) (decls : List MacroDecl)
    (s : Registry) : R s (s.lowerMacros skips decls) :=
  have hinsert : ∀ (s : Registry) (decl : MacroDecl), R s (s.insertMacro decl) :=
    fun s decl => h.trans (h.mention s decl.name) (h.insertMacro _ _)
  h.trans (h.foldl hinsert _ s) (h.foldl h.classifyMacro _ _)

theorem exportFunction (h : HeaderSteps R) (o : TypeOverride) (e : Export) (decl : FunctionDecl) :
    (Lowerer.exportFunction o e decl).Keeps R :=
  have hrules := h.toSteps.rules
  hrules.bind (hrules.resolveInSignature o none _) fun _ =>
    hrules.bind (hrules.lowerParams o _ _ _) fun _ =>
      hrules.bind (hrules.mention _) fun _ =>
        hrules.bind (.modifyGet fun s => h.insertFunction s _) fun _ => hrules.pure _

theorem onRegistry (h : HeaderSteps R) {m : LowerM α} (hm : m.Keeps R) (s : Registry) :
    Lowerer.Preserves (fun l => R s l.registry) (Lowerer.onRegistry m) := by
  intro l hl
  unfold Lowerer.after Lowerer.onRegistry
  cases hs : m l.registry with
  | ok a t => exact h.trans hl (hm.of_ok hs)
  | error e t => exact h.trans hl (hm.of_error hs)

/-- What holds of every step holds of the processing of headers. -/
theorem process (h : HeaderSteps R) (headers : List Header) (l : Lowerer) :
    R l.registry (l.after (Lowerer.process headers)).registry := by
  have hrules := h.toSteps.rules
  refine Lowerer.Preserves.process (I := fun l' => R l.registry l'.registry)
    (.lowerHeader (fun l' decls hl => h.trans hl (h.lowerMacros _ decls _)) (fun decl => ?_)
      (fun fallback decl => ?_) fun decl => ?_) headers l (h.refl _)
  · exact .lowerEnum (h.onRegistry (hrules.makeEnum none decl) _)
  · exact .lowerRecord fun l' _ => h.onRegistry (hrules.makeStruct l'.override decl fallback) _
  · exact .lowerFunction (fun _ hl => hl) fun l' e _ =>
      h.onRegistry (h.exportFunction l'.override e decl) _

end HeaderSteps

end Registry

/-! ### Fixed arrays -/

/-- The array is as resolution writes it. -/
structure FixedArray.Written (a : FixedArray) : Prop where
  name_eq : a.label.name = fixedArrayName a.element a.length
  primitive : a.elementIsPrimitive = true →
    a.element.isPlain = true ∧ (Primitive.ofName? a.element.base).isSome = true

theorem Registry.written_newArray (s : Registry) (element : TypeRef) (length : Nat) :
    (s.newArray element length).Written := by
  refine ⟨rfl, fun h => ?_⟩
  obtain ⟨hplain, hprim⟩ := Bool.and_eq_true_iff.mp h
  exact ⟨hplain, (Bool.and_eq_true_iff.mp hprim).2⟩

/-- Every fixed array of the registry is as resolution writes it. -/
def Registry.ArraysWritten (r : Registry) : Prop :=
  ∀ id a, r.get? id = some (.fixedArray a) → a.Written

namespace Registry.ArraysWritten

variable {r : Registry} {id : DefId}

theorem insert (h : r.ArraysWritten) {d : Definition} (hd : d.kind ≠ .fixedArray) :
    (r.insert d).2.ArraysWritten := by
  intro id a ha
  rcases of_get?_insert ha with rfl | ha
  · exact absurd rfl hd
  · exact h id a ha

theorem insertFixedArray (h : r.ArraysWritten) {a : FixedArray} (hw : a.Written) :
    (r.insertFixedArray a).2.ArraysWritten := by
  rcases insertFixedArray_cases r a with ⟨_, -, he⟩ | ⟨-, he⟩ | ⟨_, r', hr, he⟩ <;> rw [he]
  · exact h
  · exact h
  · intro id a' ha
    have hi : (r.insert (.fixedArray a)).2.get? id = some (.fixedArray a') := by rwa [hr]
    rcases of_get?_insert hi with hnew | hold
    · cases hnew
      exact hw
    · exact h id a' hold

theorem modify (h : r.ArraysWritten) {f : Definition → Definition}
    (hf : ∀ d, r.get? id = some d → (f d).kind = .fixedArray → f d = d) :
    (r.modify id f).ArraysWritten := by
  intro other a ha
  rw [get?_modify] at ha
  split at ha
  · next he =>
    obtain ⟨d, hd, hfd⟩ := Option.map_eq_some_iff.mp ha
    have hsame := hf d (he ▸ hd) (congrArg Definition.kind hfd)
    exact h other a (hd.trans (congrArg some (hsame.symm.trans hfd)))
  · exact h other a ha

theorem replace (h : r.ArraysWritten) {d : Definition} (hd : d.kind ≠ .fixedArray) :
    (r.modify id fun _ => d).ArraysWritten :=
  h.modify fun _ _ hk => absurd hk hd

/-- Whatever a step does, it writes no other arrays. -/
theorem steps : HeaderSteps fun s t => s.ArraysWritten → t.ArraysWritten where
  refl _ h := h
  trans h h' hs := h' (h hs)
  mention _ _ h := h
  handle _ _ _ h := h.insert nofun
  insertEnum _ _ h := h.insert nofun
  insertDelegate _ _ h := h.insert nofun
  insertFunction _ _ h := h.insert nofun
  insertMacro _ _ h := h.insert nofun
  insertFixedArray s element length h := h.insertFixedArray (s.written_newArray element length)
  structSlot s name h := by
    unfold Registry.structSlot
    split
    · exact h
    · exact h.insert nofun
  beginStruct s id isUnion doc h := by
    unfold Registry.beginStruct
    split
    · split
      · exact h
      · exact h.replace nofun
    · exact h
  setFields s id fields h := h.modify fun d _ hk => by cases d <;> first | rfl | cases hk
  classifyMacro s id h := by
    unfold Registry.classifyMacro
    split
    · split
      · exact h.replace nofun
      · exact h
    · exact h

end Registry.ArraysWritten

namespace Lowerer

/-- Every fixed array in the registry of a lowerer is as resolution writes it. -/
theorem Used.arraysWritten {l : Lowerer} (h : l.Used) : l.registry.ArraysWritten := by
  induction h with
  | new => exact fun _ _ ha => nomatch ha
  | configure _ _ _ _ ih => exact ih
  | suppress _ name ih => exact fun id a ha => ih id a (of_get?_suppress ha)
  | process _ headers ih => exact ArraysWritten.steps.process headers _ ih
  | @resolve l _ hint inStruct ty ih =>
    have hkeeps := ArraysWritten.steps.rules.resolve l.override ty hint inStruct
    exact ArraysWritten.steps.onRegistry hkeeps l.registry l (fun h => h) ih

end Lowerer

end Bindery
