import Bindery.Proofs.Lowering.Filling
import Bindery.Proofs.Lowering.MacroSightings

/-!
# The sightings of whole headers

What lowering of headers comes to see, header by header and in each the macros, the enums, the
records, the typedefs and the functions. A lowerer is `Ready` when its definitions are settled;
every lowerer that is reached is (`Reached.ready`). From there the steps of `process` carry over
what there is, and what is new is accounted for by the `sightings` of the headers (`logs_process`).
-/

namespace Bindery

namespace Lowerer

open Registry

variable {α β : Type} {l l' l'' : Lowerer} {log L : List Sighting} {n : String}

/-! ### Sightings -/

def enumSeen (decl : EnumDecl) (l : Lowerer) : List Sighting :=
  if (declaredName? decl.name none).isSome && (integerUnderlying? decl.underlying).isSome
      && !l.filters.skipsEnum decl then
    enumSightings none decl
  else []

def recordSeen (fallback : Option String) (decl : RecordDecl) (l : Lowerer) : List Sighting :=
  if !l.filters.skipsRecord decl then recordSightings fallback decl l.registry else []

def taggedSeen (decl : RecordDecl) (l : Lowerer) : List Sighting :=
  if decl.name.isSome then recordSeen none decl l else []

def typedefSeen (decl : TypedefDecl) (l : Lowerer) : List Sighting :=
  match decl.target.asRecord? with
  | some record => recordSeen (some decl.name) record l
  | none => []

/-- A function is seen if it has an export. -/
def functionSeen (decl : FunctionDecl) (l : Lowerer) : List Sighting :=
  if !decl.isInline && !l.filters.skipsFunction decl then
    match l.exports.get? decl.name with
    | none => []
    | some e => functionSightings decl e l.registry
  else []

/-- What the steps for several declarations see one after the other. -/
def eachSeen (step : α → Step PUnit) (seen : α → Lowerer → List Sighting) :
    List α → Lowerer → List Sighting
  | [], _ => []
  | a :: as, l => seen a l ++ following (step a) l fun _ l => eachSeen step seen as l

def headerSeen (header : Header) (l : Lowerer) : List Sighting :=
  macroSightings l.filters.skipsMacro header.macros ++
    following (modify fun l =>
      { l with registry := l.registry.lowerMacros l.filters.skipsMacro header.macros } :
      Step PUnit) l fun _ l =>
    eachSeen lowerEnum enumSeen header.enums l ++
    following (header.enums.forM lowerEnum) l fun _ l =>
    eachSeen lowerTagged taggedSeen header.records l ++
    following (header.records.forM lowerTagged) l fun _ l =>
    eachSeen lowerTypedef typedefSeen header.typedefs l ++
    following (header.typedefs.forM lowerTypedef) l fun _ l =>
    eachSeen lowerFunction functionSeen header.functions l

/-- Lowers a header, unless it is a system header. -/
def lowerUnlessSystem (header : Header) : Step PUnit :=
  if header.isSystem then return else lowerHeader header

def unlessSystemSeen (header : Header) (l : Lowerer) : List Sighting :=
  if header.isSystem then [] else headerSeen header l

/-- What lowering of the headers comes to see. -/
def sightings (headers : List Header) (l : Lowerer) : List Sighting :=
  eachSeen lowerUnlessSystem unlessSystemSeen headers l

/-! ### Steps of a lowerer -/

/-- No override, and every definition settled. -/
structure Ready (l : Lowerer) : Prop where
  sound : l.Sound
  settled : l.registry.Settled l.exports

/-- What a step leaves as it was: all but the registry and the list of unresolved functions, of
which nothing gets lost. -/
structure Carries (l l' : Lowerer) : Prop where
  override : l'.override = l.override
  exports : l'.exports = l.exports
  filters : l'.filters = l.filters
  unresolved : l.unresolved <+: l'.unresolved
  registry : l.registry.Carries l.exports l'.registry

theorem Ready.wellTyped (h : l.Ready) : l.registry.WellTyped := h.sound.wellTyped

namespace Carries

theorem ready (h : l.Carries l') (hl : l.Ready) : l'.Ready :=
  ⟨⟨h.override.trans hl.sound.override, h.registry.advances.wellTyped⟩,
    h.exports ▸ h.registry.settled hl.settled⟩

theorem refl (h : l.registry.WellTyped) : l.Carries l :=
  ⟨rfl, rfl, rfl, List.prefix_refl _, .refl h⟩

theorem trans (h : l.Carries l') (h' : l'.Carries l'') : l.Carries l'' :=
  ⟨h'.override.trans h.override, h'.exports.trans h.exports, h'.filters.trans h.filters,
    h.unresolved.trans h'.unresolved, h.registry.trans (h.exports ▸ h'.registry)⟩

end Carries

/-- Started in `l` the step carries over what there is, and if it succeeds the log accounts for what
it has registered. -/
def Step.Logs (m : Step α) (l : Lowerer) (log : List Sighting) : Prop :=
  match m l with
  | .ok _ l' => l.Carries l' ∧ l.registry.Accounts log l'.registry
  | .error _ l' => l.Carries l'

namespace Step.Logs

variable {m : Step α} {f : α → Step β} {K : α → Lowerer → List Sighting}

theorem of_ok (h : m.Logs l log) {a : α} (hm : m l = .ok a l') :
    l.Carries l' ∧ l.registry.Accounts log l'.registry := by
  rw [Logs, hm] at h
  exact h

theorem of_error (h : m.Logs l log) {e : LowerError} (hm : m l = .error e l') : l.Carries l' := by
  rw [Logs, hm] at h
  exact h

theorem pure (h : l.Ready) (a : α) : Logs (Pure.pure a) l [] := ⟨.refl h.wellTyped, .refl⟩

theorem get_bind {g : Lowerer → Step α} (h : (g l).Logs l log) : Logs (get >>= g) l log := h

theorem bind (h : l.Ready) (hm : m.Logs l L)
    (hf : ∀ a l', m l = .ok a l' → l'.Ready → (f a).Logs l' (K a l')) :
    (m >>= f).Logs l (L ++ following m l K) := by
  unfold Logs
  cases hs : m l with
  | error e l' => rw [bind_error hs]; exact hm.of_error hs
  | ok a l' =>
    obtain ⟨hl, hL⟩ := hm.of_ok hs
    have hfa := hf a l' hs (hl.ready h)
    rw [bind_ok hs, following_ok hs]
    cases ht : f a l' with
    | error e l'' => exact hl.trans (hfa.of_error ht)
    | ok b l'' =>
      obtain ⟨hl', hK⟩ := hfa.of_ok ht
      exact ⟨hl.trans hl',
        hL.trans h.wellTyped hl.registry.toKeeps hl'.registry.toKeeps hK⟩

theorem forM {step : α → Step PUnit} {seen : α → Lowerer → List Sighting}
    (h : ∀ a (l : Lowerer), l.Ready → (step a).Logs l (seen a l)) (as : List α) :
    ∀ {l : Lowerer}, l.Ready → (as.forM step).Logs l (eachSeen step seen as l) := by
  induction as with
  | nil => exact fun hl => pure hl _
  | cons a as ih => exact fun hl => (h a _ hl).bind hl fun _ _ _ hl' => ih hl'

theorem onRegistry {m : LowerM α} (h : m.Logs l.exports l.registry log) :
    (onRegistry m).Logs l log := by
  unfold Logs Lowerer.onRegistry
  cases hm : m l.registry with
  | error e t => exact ⟨rfl, rfl, rfl, List.prefix_refl _, h.of_error hm⟩
  | ok a t =>
    obtain ⟨hk, hlog⟩ := h.of_ok hm
    exact ⟨⟨rfl, rfl, rfl, List.prefix_refl _, hk⟩, hlog⟩

/-- A step on the registry whose answer is of no use. -/
theorem onRegistry_discard (h : l.Ready) {m : LowerM α}
    (hm : m.Logs l.exports l.registry log) :
    Logs (Lowerer.onRegistry m >>= fun _ => Pure.pure PUnit.unit) l log := by
  have := (onRegistry hm).bind (f := fun _ => Pure.pure PUnit.unit) (K := fun _ _ => []) h
    fun _ _ _ hl => pure hl _
  rwa [following_nil, List.append_nil] at this

end Step.Logs

/-! ### The steps of a header -/

theorem logs_lowerEnum (decl : EnumDecl) (h : l.Ready) :
    (lowerEnum decl).Logs l (enumSeen decl l) := by
  refine .get_bind ?_
  unfold enumSeen
  split
  · exact .onRegistry_discard h (logs_makeEnum h.wellTyped none decl)
  · exact .pure h _

theorem logs_lowerRecord (fallback : Option String) (decl : RecordDecl) (h : l.Ready) :
    (lowerRecord fallback decl).Logs l (recordSeen fallback decl l) := by
  refine .get_bind ?_
  unfold recordSeen
  split
  · rw [h.sound.override]
    exact .onRegistry_discard h (logs_makeStruct decl fallback h.wellTyped)
  · exact .pure h _

theorem logs_lowerTagged (decl : RecordDecl) (h : l.Ready) :
    (lowerTagged decl).Logs l (taggedSeen decl l) := by
  unfold lowerTagged taggedSeen
  split
  · exact logs_lowerRecord none decl h
  · exact .pure h _

theorem logs_lowerTypedef (decl : TypedefDecl) (h : l.Ready) :
    (lowerTypedef decl).Logs l (typedefSeen decl l) := by
  unfold lowerTypedef typedefSeen
  cases decl.target.asRecord? with
  | some record => exact logs_lowerRecord _ record h
  | none => exact .pure h _

theorem logs_exportFunction {x : ExportMap} {s : Registry} {decl : FunctionDecl} {e : Export}
    (h : s.WellTyped) (he : x.get? decl.name = some e) :
    (exportFunction .none e decl).Logs x s (functionSightings decl e s) := by
  have hret := logs_resolveInSignature (x := x) h (logs_resolve decl.returnType none false h)
  refine logs_signature decl.callConv (d := fun sig => .functionDef
    ⟨{ Label.ofName decl.name with doc := decl.doc }, sig, e.library, e.libraryIsConst,
      decl.deprecation⟩) h hret (logs_lowerParams decl.params decl.name 0)
    (fun ret ps t ht hsuits => ?_) (fun _ => ⟨rfl, rfl, he⟩) nofun
    fun sig _ hsig => ⟨sig, rfl, hsig⟩
  have hm := Advances.mention ht decl.name
  have hall : ∀ ty ∈ ret :: ps.map Param.ty, (t.mention decl.name).Suits ty :=
    fun ty hty => (hsuits ty hty).advance ht hm
  exact ⟨_, _, rfl, hm.trans (.insert hm.wellTyped (.of_suits hall nofun)),
    hm.wellTyped.consistent.find?_insert _⟩

theorem logs_lowerFunction (decl : FunctionDecl) (h : l.Ready) :
    (lowerFunction decl).Logs l (functionSeen decl l) := by
  refine .get_bind ?_
  unfold functionSeen
  split
  · cases he : l.exports.get? decl.name with
    | none =>
      exact ⟨⟨rfl, rfl, rfl, List.prefix_append _ _, .refl h.wellTyped⟩, .refl⟩
    | some e =>
      rw [h.sound.override]
      exact .onRegistry (logs_exportFunction h.wellTyped he)
  · exact .pure h _

/-! ### Whole headers -/

theorem logs_macros (decls : List MacroDecl) (h : l.Ready) :
    Step.Logs (modify fun l =>
      { l with registry := l.registry.lowerMacros l.filters.skipsMacro decls } : Step PUnit) l
      (macroSightings l.filters.skipsMacro decls) :=
  ⟨⟨rfl, rfl, rfl, List.prefix_refl _, carries_lowerMacros h.wellTyped h.settled _ _⟩,
    accounts_lowerMacros h.wellTyped _ _⟩

theorem logs_enums (decls : List EnumDecl) (h : l.Ready) :
    (decls.forM lowerEnum).Logs l (eachSeen lowerEnum enumSeen decls l) :=
  .forM (fun decl _ => logs_lowerEnum decl) decls h

theorem logs_records (decls : List RecordDecl) (h : l.Ready) :
    (decls.forM lowerTagged).Logs l (eachSeen lowerTagged taggedSeen decls l) :=
  .forM (fun decl _ => logs_lowerTagged decl) decls h

theorem logs_typedefs (decls : List TypedefDecl) (h : l.Ready) :
    (decls.forM lowerTypedef).Logs l (eachSeen lowerTypedef typedefSeen decls l) :=
  .forM (fun decl _ => logs_lowerTypedef decl) decls h

theorem logs_functions (decls : List FunctionDecl) (h : l.Ready) :
    (decls.forM lowerFunction).Logs l (eachSeen lowerFunction functionSeen decls l) :=
  .forM (fun decl _ => logs_lowerFunction decl) decls h

theorem logs_lowerHeader (header : Header) (h : l.Ready) :
    (lowerHeader header).Logs l (headerSeen header l) := by
  refine (logs_macros header.macros h).bind h fun _ l₁ _ h₁ => ?_
  refine (logs_enums header.enums h₁).bind h₁ fun _ l₂ _ h₂ => ?_
  refine (logs_records header.records h₂).bind h₂ fun _ l₃ _ h₃ => ?_
  refine (logs_typedefs header.typedefs h₃).bind h₃ fun _ l₄ _ h₄ => ?_
  exact logs_functions header.functions h₄

theorem logs_lowerUnlessSystem (header : Header) (h : l.Ready) :
    (lowerUnlessSystem header).Logs l (unlessSystemSeen header l) := by
  unfold lowerUnlessSystem unlessSystemSeen
  split
  · exact .pure h _
  · exact logs_lowerHeader header h

/-- The sightings of the headers account for what processing them registers. -/
theorem logs_process (headers : List Header) (h : l.Ready) :
    (process headers).Logs l (sightings headers l) :=
  Step.Logs.forM (fun header _ => logs_lowerUnlessSystem header) headers h

/-! ### Lowerers that are reached -/

theorem Step.Logs.carries_after {m : Step α} (h : m.Logs l log) : l.Carries (l.after m) := by
  unfold after
  cases hm : m l with
  | ok a l' => exact (h.of_ok hm).1
  | error e l' => exact h.of_error hm

end Lowerer

namespace ExportMap

variable {m : ExportMap} {name : String} {e : Export}

theorem get?_claim (h : m.get? name = some e) (e' : Export) (other : String) :
    (m.claim e' other).get? name = some e := by
  unfold claim
  split
  · exact h
  · next hc =>
    have hne : name ≠ other := fun he => hc (by rw [← he, contains, h]; rfl)
    change ((other, e') :: m.entries).lookup name = some e
    rw [List.lookup_cons, beq_eq_false_iff_ne.mpr hne]
    exact h

/-- The library that has claimed a name keeps it. -/
theorem get?_add (h : m.get? name = some e) (names : List String) (library : String)
    (libraryIsConst : Bool) : (m.add names library libraryIsConst).get? name = some e := by
  unfold add
  induction names generalizing m with
  | nil => exact h
  | cons other names ih => exact ih (get?_claim h _ other)

end ExportMap

namespace Lowerer

open Registry

variable {l : Lowerer}

theorem Reached.ready (h : l.Reached) : l.Ready := by
  refine ⟨h.sound, ?_⟩
  induction h with
  | new => exact .empty _
  | addExports _ names library c ih =>
    intro n d hd
    have := ih n d hd
    cases d with
    | functionDef f => exact ExportMap.get?_add this names library c
    | _ => exact this
  | filter _ _ ih => exact ih
  | suppress h name ih =>
    intro n d hd
    rw [Lowerer.suppress, h.wellTyped.consistent.find?_suppress] at hd
    split at hd
    · cases hd
    · exact ih n d hd
  | process h headers ih =>
    exact ((logs_process headers ⟨h.sound, ih⟩).carries_after.ready ⟨h.sound, ih⟩).settled
  | @resolve l h hint inStruct ty ih =>
    have hlogs := logs_resolve (x := l.exports) ty hint inStruct h.wellTyped
    rw [← h.sound.override] at hlogs
    exact ((Step.Logs.onRegistry hlogs).carries_after.ready ⟨h.sound, ih⟩).settled

end Lowerer

end Bindery
