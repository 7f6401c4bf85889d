import Bindery.Lowerer
import Bindery.Proofs.Lowering.Advance

/-!
# The lowerers that are reached

A lowerer is reached by noting exports, choosing filters, suppressing names and processing headers,
in any order, also when processing fails half-way. It never has an override. Its registry is
well-typed (`Reached.wellTyped`), so every type reference in it leads somewhere and no signature
passes a fixed array by value (`Reached.typeRefs_stand`).
-/

namespace Bindery

namespace Registry.Advances

variable {α : Type} {s : Registry}

theorem foldl {f : Registry → α → Registry}
    (hf : ∀ {s : Registry} a, s.WellTyped → s.Advances (f s a)) (h : s.WellTyped) (as : List α) :
    s.Advances (as.foldl f s) := by
  induction as generalizing s with
  | nil => exact refl h
  | cons a as ih => exact (hf a h).trans (ih (hf a h).wellTyped)

theorem insertMacro (h : s.WellTyped) (decl : MacroDecl) : s.Advances (s.insertMacro decl) :=
  have hm := mention h decl.name
  hm.trans (insert hm.wellTyped ⟨nofun, nofun, nofun⟩)

theorem classifyMacro (h : s.WellTyped) (id : DefId) : s.Advances (s.classifyMacro id) := by
  unfold Registry.classifyMacro
  split
  · next d hd =>
    split
    · refine modify h id fun d' hd' => ?_
      cases hd.symm.trans hd'
      exact ⟨.ofMacro rfl, nofun, nofun, nofun⟩
    · exact refl h
  · exact refl h

theorem lowerMacros (h : s.WellTyped) (skips : MacroDecl → Bool) (decls : List MacroDecl) :
    s.Advances (s.lowerMacros skips decls) :=
  have hm := foldl (fun decl h => insertMacro h decl) h _
  hm.trans (foldl (fun id h => classifyMacro h id) hm.wellTyped _)

end Registry.Advances

namespace Lowerer

open Registry

variable {α β : Type} {l : Lowerer} {I : Lowerer → Prop}

/-- The lowerer that a step leaves, whether it succeeds or fails. -/
def after (l : Lowerer) (step : Step α) : Lowerer :=
  match step l with
  | .ok _ l' => l'
  | .error _ l' => l'

/-- The lowerers without an override that come from the new one. -/
inductive Reached : Lowerer → Prop where
  | new : Reached new
  | addExports {l : Lowerer} (h : Reached l) (names : List String) (library : String)
      (libraryIsConst : Bool) : Reached (l.addExports names library libraryIsConst)
  | filter {l : Lowerer} (h : Reached l) (filters : DeclFilters) : Reached { l with filters }
  | suppress {l : Lowerer} (h : Reached l) (name : String) : Reached (l.suppress name)
  | process {l : Lowerer} (h : Reached l) (headers : List Header) :
      Reached (l.after (process headers))
  /-- Between two resolutions. -/
  | resolve {l : Lowerer} (h : Reached l) (hint : Option String) (inStruct : Bool) (ty : CType) :
      Reached (l.after (onRegistry (Bindery.resolve l.override hint inStruct ty)))

/-! ### What steps preserve -/

/-- The step keeps `I`, whether it succeeds or fails. -/
def Preserves (I : Lowerer → Prop) (step : Step α) : Prop := ∀ l, I l → I (l.after step)

namespace Preserves

theorem pure (a : α) : Preserves I (Pure.pure a) := fun _ h => h

theorem bind {m : Step α} {f : α → Step β} (hm : Preserves I m) (hf : ∀ a, Preserves I (f a)) :
    Preserves I (m >>= f) := by
  intro l hl
  have hm := hm l hl
  unfold after at hm ⊢
  cases hs : m l with
  | error e t => rw [bind_error hs]; rwa [hs] at hm
  | ok a t =>
    rw [hs] at hm
    rw [bind_ok hs]
    exact hf a t hm

theorem get_bind {f : Lowerer → Step α} (h : ∀ l, I l → I (l.after (f l))) :
    Preserves I (get >>= f) := h

theorem forM {f : α → Step PUnit} (h : ∀ a, Preserves I (f a)) (as : List α) :
    Preserves I (as.forM f) := by
  induction as with
  | nil => exact pure _
  | cons a as ih => exact bind (h a) fun _ => ih

theorem of_ok {m : Step α} (h : Preserves I m) {l' : Lowerer} {a : α} (hl : I l)
    (hm : m l = .ok a l') : I l' := by
  have hafter := h l hl
  unfold after at hafter
  rwa [hm] at hafter

theorem onRegistry_bind {m : LowerM α} {f : α → LowerM β} (hm : Preserves I (onRegistry m))
    (hf : ∀ a, Preserves I (onRegistry (f a))) : Preserves I (onRegistry (m >>= f)) := by
  have hbind : onRegistry (m >>= f) = onRegistry m >>= fun a => onRegistry (f a) := by
    funext l
    cases hs : m l.registry with
    | ok a t =>
      have hl : onRegistry m l = .ok a { l with registry := t } := by rw [onRegistry, hs]
      rw [bind_ok hl, onRegistry, bind_ok hs]
      rfl
    | error e t =>
      have hl : onRegistry m l = .error e { l with registry := t } := by rw [onRegistry, hs]
      rw [bind_error hl, onRegistry, bind_error hs]
  rw [hbind]
  exact hm.bind hf

/-! The declarations of a header come down to steps on the registry. -/

theorem lowerEnum {decl : EnumDecl} (h : Preserves I (onRegistry (makeEnum none decl))) :
    Preserves I (lowerEnum decl) := by
  refine .get_bind fun l hl => ?_
  split
  · exact h.bind (fun _ => .pure _) l hl
  · exact hl

theorem lowerRecord {fallback : Option String} {decl : RecordDecl}
    (h : ∀ l, I l → Preserves I (onRegistry (makeStruct l.override fallback decl))) :
    Preserves I (lowerRecord fallback decl) := by
  refine .get_bind fun l hl => ?_
  split
  · exact (h l hl).bind (fun _ => .pure _) l hl
  · exact hl

theorem lowerTagged (h : ∀ decl, Preserves I (Lowerer.lowerRecord none decl))
    (decl : RecordDecl) : Preserves I (lowerTagged decl) := by
  unfold Lowerer.lowerTagged
  split
  · exact h decl
  · exact .pure _

theorem lowerTypedef (h : ∀ fallback decl, Preserves I (Lowerer.lowerRecord fallback decl))
    (decl : TypedefDecl) : Preserves I (lowerTypedef decl) := by
  unfold Lowerer.lowerTypedef
  split
  · exact h _ _
  · exact .pure _

theorem lowerFunction {decl : FunctionDecl}
    (hn : ∀ l, I l → I { l with unresolved := l.unresolved ++ [decl.name] })
    (he : ∀ l e, I l → Preserves I (onRegistry (exportFunction l.override e decl))) :
    Preserves I (lowerFunction decl) := by
  refine .get_bind fun l hl => ?_
  split
  · split
    · exact hn l hl
    · exact he l _ hl l hl
  · exact hl

theorem lowerHeader (hm : ∀ l decls, I l →
      I { l with registry := l.registry.lowerMacros l.filters.skipsMacro decls })
    (he : ∀ decl, Preserves I (Lowerer.lowerEnum decl))
    (hr : ∀ fallback decl, Preserves I (Lowerer.lowerRecord fallback decl))
    (hf : ∀ decl, Preserves I (Lowerer.lowerFunction decl)) (header : Header) :
    Preserves I (lowerHeader header) :=
  .bind (fun l hl => hm l header.macros hl) fun _ => .bind (.forM he _) fun _ =>
    .bind (.forM (lowerTagged (hr none)) _) fun _ => .bind (.forM (lowerTypedef hr) _) fun _ =>
      .forM hf _

theorem process (h : ∀ header, Preserves I (Lowerer.lowerHeader header)) (headers : List Header) :
    Preserves I (process headers) := by
  refine .forM (fun header => ?_) headers
  split
  · exact .pure _
  · exact h header

end Preserves

/-- A lowerer without an override whose registry is well-typed. -/
structure Sound (l : Lowerer) : Prop where
  override : l.override = .none
  wellTyped : l.registry.WellTyped

namespace Sound

theorem onRegistry {step : LowerM α} {P : α → Registry → Prop} (h : l.Sound)
    (hs : step.Leads l.registry P) : (l.after (onRegistry step)).Sound := by
  unfold after Lowerer.onRegistry
  cases he : step l.registry with
  | error e t => exact ⟨h.override, (hs.of_error he).wellTyped⟩
  | ok a t => exact ⟨h.override, (hs.of_ok he).1.wellTyped⟩

theorem lowerEnum (decl : EnumDecl) : Preserves Sound (lowerEnum decl) :=
  .lowerEnum fun _ h => h.onRegistry (leads_makeEnum h.wellTyped none decl)

theorem lowerRecord (fallback : Option String) (decl : RecordDecl) :
    Preserves Sound (lowerRecord fallback decl) := by
  refine .lowerRecord fun l h => ?_
  rw [h.override]
  exact fun _ h => h.onRegistry (leads_makeStruct decl fallback h.wellTyped)

theorem leads_exportFunction {s : Registry} (h : s.WellTyped) (e : Export) (decl : FunctionDecl) :
    (exportFunction .none e decl).Leads s fun _ _ => True := by
  refine .bind (.bind (leads_resolve decl.returnType none false h) fun _ _ hst hr =>
    leads_decayed hst.wellTyped hr) fun ret s₁ h₁ hret => ?_
  refine .bind (leads_lowerParams decl.params decl.name 0 h₁.wellTyped) fun params s₂ h₂ hp => ?_
  refine .bind (.mention h₂.wellTyped decl.name) fun _ s₃ h₃ _ => ?_
  have hall := suits_signature (hret.advance h₁.wellTyped (h₂.trans h₃))
    fun p hm => (hp p hm).advance h₂.wellTyped h₃
  refine .bind (P := fun _ _ => True) (.modifyGet (.insert h₃.wellTyped ?_) trivial)
    fun _ s₄ h₄ _ => .pure h₄.wellTyped trivial
  exact .of_suits hall nofun

theorem lowerFunction (decl : FunctionDecl) : Preserves Sound (lowerFunction decl) := by
  refine .lowerFunction (fun l h => ⟨h.override, h.wellTyped⟩) fun l e h => ?_
  rw [h.override]
  exact fun _ h => h.onRegistry (leads_exportFunction h.wellTyped e decl)

theorem process (headers : List Header) : Preserves Sound (process headers) := by
  refine .process (.lowerHeader (fun l decls h => ?_) lowerEnum lowerRecord lowerFunction) headers
  exact ⟨h.override, (Advances.lowerMacros h.wellTyped _ _).wellTyped⟩

end Sound

theorem Reached.sound (h : l.Reached) : l.Sound := by
  induction h with
  | new => exact ⟨rfl, .empty⟩
  | addExports _ _ _ _ ih => exact ⟨ih.override, ih.wellTyped⟩
  | filter _ _ ih => exact ⟨ih.override, ih.wellTyped⟩
  | suppress _ name ih => exact ⟨ih.override, ih.wellTyped.suppress name⟩
  | process _ headers ih => exact Sound.process headers _ ih
  | resolve _ hint inStruct ty ih =>
    rw [ih.override]
    exact ih.onRegistry (leads_resolve ty hint inStruct ih.wellTyped)

theorem Reached.wellTyped (h : l.Reached) : l.registry.WellTyped := h.sound.wellTyped

/-- **Lowered references lead somewhere.** Whatever was lowered, with success or not, the base of
every type reference in a registered definition is the name of a registered definition, of a
primitive type or of a suppressed one, and no return type or parameter type is a fixed array
itself. -/
theorem Reached.typeRefs_stand (h : l.Reached) : ∀ d ∈ l.registry.definitions,
    (∀ ty ∈ d.typeRefs, (l.registry.find? ty.base).isSome = true ∨
      (Primitive.ofName? ty.base).isSome = true ∨ l.registry.isSuppressed ty.base = true) ∧
    ∀ ty ∈ d.signatureRefs, ty.modifiers = [] → l.registry.kindOf? ty.base ≠ some .fixedArray := by
  intro d hd
  obtain ⟨id, hd⟩ := mem_definitions.mp hd
  refine ⟨fun ty hty => h.wellTyped.stands hd hty, fun ty hty hm => ?_⟩
  exact h.wellTyped.passes hd hty (List.isEmpty_iff.mpr hm)

/-- A record that refers to itself, a function that takes it, a callback and an array, and a
function with a type that is not supported. -/
def netHeader : Header :=
  let packet : Option (List FieldDecl) → CType := fun fields =>
    .record ⟨some "packet", fields, false, .none⟩
  let words : CType := .array (.builtin .int) (.constant 4) false
  let callback : CType := .pointer (.function ⟨.builtin .void, [⟨"", words, .none⟩], .c⟩) false
  ⟨"net.h", false, [], [],
    [⟨some "packet", some [⟨"data", words, none, .none, none⟩,
      ⟨"next", .pointer (packet none) false, none, .none, none⟩], false, .none⟩], [],
    [⟨"send", .builtin .int, [⟨"packet", .pointer (packet none) true, .none⟩,
      ⟨"done", callback, .none⟩], .c, false, none, .none⟩,
    ⟨"receive", packet none, [⟨"wide", .unsupported "__int128", .none⟩], .c, false, none, .none⟩]⟩

/-- The lowerer that has failed on the header, and whose record is then suppressed. -/
def afterNetHeader : Lowerer :=
  ((new.addExports ["send", "receive"] "net" true).after (process [netHeader])).suppress "packet"

/-- After the failure and the suppression three definitions are left, one of which still refers to
the suppressed record. -/
theorem typeRefs_stand_afterNetHeader :
    afterNetHeader.Reached ∧
    afterNetHeader.registry.definitions.map (fun d => (d.name, d.typeRefs.map TypeRef.base)) =
      [("int_array4", ["int"]), ("send_done", ["void", "int"]),
        ("send", ["int", "packet", "send_done"])] ∧
    ∀ d ∈ afterNetHeader.registry.definitions,
      (∀ ty ∈ d.typeRefs, (afterNetHeader.registry.find? ty.base).isSome = true ∨
        (Primitive.ofName? ty.base).isSome = true ∨
        afterNetHeader.registry.isSuppressed ty.base = true) ∧
      ∀ ty ∈ d.signatureRefs, ty.modifiers = [] →
        afterNetHeader.registry.kindOf? ty.base ≠ some .fixedArray :=
  have h : afterNetHeader.Reached := .suppress (.process (.addExports .new _ _ _) _) _
  ⟨h, rfl, h.typeRefs_stand⟩

end Lowerer

end Bindery
