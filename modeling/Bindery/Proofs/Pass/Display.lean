import Bindery.Pass.Rename
import Bindery.Proofs.Registry.Slots

/-!
# Names and display names of a definition

What the two halves of the naming pass do to a definition: `Definition.fillHostNames` names it and
all that it holds, and its references get the display names that `Registry.displayText` spells out.
Nothing else of it changes.
-/

namespace Bindery

namespace Definition

/-- The host names of the enum items, fields or parameters that the definition holds. -/
def childHostNames : Definition → List (Option String)
  | enumDef d => d.items.map EnumItem.hostName
  | structDef d => d.fields.map Field.hostName
  | functionDef d => d.signature.params.map Param.hostName
  | delegateDef d => d.signature.params.map Param.hostName
  | _ => []

/-- The definition has a host name, and so has all that it holds. -/
def IsNamed (d : Definition) : Prop := d.hostName.isSome ∧ ∀ h ∈ d.childHostNames, h.isSome

section FillHostNames

variable (d : Definition)

@[simp] theorem name_fillHostNames : d.fillHostNames.name = d.name := by
  cases d <;> rfl

@[simp] theorem kind_fillHostNames : d.fillHostNames.kind = d.kind := by
  cases d <;> rfl

@[simp] theorem typeRefs_fillHostNames : d.fillHostNames.typeRefs = d.typeRefs := by
  cases d <;> simp [fillHostNames, typeRefs, withLabel, Signature.fillHostNames,
    Field.fillHostName, Param.fillHostName, Function.comp_def]

end FillHostNames

section MapTypeRefs

variable (d : Definition) (f g : TypeRef → TypeRef)

@[simp] theorem label_mapTypeRefs : (d.mapTypeRefs f).label = d.label := by cases d <;> rfl

@[simp] theorem name_mapTypeRefs : (d.mapTypeRefs f).name = d.name := by simp [name]

@[simp] theorem hostName_mapTypeRefs : (d.mapTypeRefs f).hostName = d.hostName := by
  simp [hostName]

@[simp] theorem kind_mapTypeRefs : (d.mapTypeRefs f).kind = d.kind := by cases d <;> rfl

@[simp] theorem childHostNames_mapTypeRefs :
    (d.mapTypeRefs f).childHostNames = d.childHostNames := by
  cases d <;> simp [mapTypeRefs, mapTypeRefs.onSignature, childHostNames, Function.comp_def]

theorem IsNamed.mapTypeRefs {d : Definition} (h : d.IsNamed) (f : TypeRef → TypeRef) :
    (d.mapTypeRefs f).IsNamed := by
  simpa [IsNamed] using h

theorem mapTypeRefs_mapTypeRefs : (d.mapTypeRefs f).mapTypeRefs g = d.mapTypeRefs (g ∘ f) := by
  cases d <;> simp [mapTypeRefs, mapTypeRefs.onSignature, Function.comp_def]

theorem mapTypeRefs_congr {d : Definition} {f g : TypeRef → TypeRef}
    (h : ∀ ty ∈ d.typeRefs, f ty = g ty) : d.mapTypeRefs f = d.mapTypeRefs g := by
  cases d <;> simp_all [mapTypeRefs, mapTypeRefs.onSignature, typeRefs]

end MapTypeRefs

end Definition

namespace Registry

variable {r r' : Registry} {id : DefId} {d : Definition}

/-- The host name of the definition of that name. -/
def hostOf (r : Registry) (name : String) : Option String := (r.find? name).bind Definition.hostName

/-- How a reference displays over the host names in the registry: the host name of the definition
that its base names, or else the base itself, and one star for each modifier. -/
def displayText (r : Registry) (ty : TypeRef) : String :=
  match r.hostOf ty.base with
  | some host => host ++ String.ofList (ty.modifiers.map fun _ => '*')
  | none => ty.base ++ String.ofList (ty.modifiers.map fun _ => '*')

theorem displayText_eq_display (r : Registry) (ty : TypeRef) :
    r.displayText ty = ty.display (r.hostOf ty.base) := by
  unfold displayText TypeRef.display
  rw [List.map_const']
  cases r.hostOf ty.base <;> rfl

/-- The reference with a display name after the host names in the registry, unless it has one. -/
def withDisplayName (r : Registry) (ty : TypeRef) : TypeRef :=
  if ty.hostName.isSome then ty else { ty with hostName := some (r.displayText ty) }

theorem withDisplayName_of_isSome {ty : TypeRef} (h : ty.hostName.isSome) :
    r.withDisplayName ty = ty := if_pos h

theorem isSome_withDisplayName (ty : TypeRef) : (r.withDisplayName ty).hostName.isSome := by
  unfold withDisplayName
  split
  · next h => exact h
  · rfl

theorem withDisplayName_congr {ty : TypeRef} (h : r.hostOf ty.base = r'.hostOf ty.base) :
    r.withDisplayName ty = r'.withDisplayName ty := by
  simp only [withDisplayName, displayText, h]

/-- A definition that is checked out sees its own host name and those of all others. -/
theorem hostOfBase_detach (h : r.WellIndexed) (hd : r.get? id = some d) (ty : TypeRef) :
    d.hostOfBase (r.detach id) ty = r.hostOf ty.base := by
  unfold Definition.hostOfBase hostOf
  split
  · next he => rw [he, h.find?_name hd]; rfl
  · next hne =>
    unfold find?
    rw [lookup?_detach]
    cases hl : r.lookup? ty.base with
    | none => rfl
    | some other =>
      have ho : other ≠ id := by
        rintro rfl
        exact hne (h.name_eq hd hl)
      simp only [Option.bind_some, get?_detach_of_ne ho]

theorem fillDisplayNames_detach (h : r.WellIndexed) (hd : r.get? id = some d) :
    d.fillDisplayNames (r.detach id) = d.mapTypeRefs r.withDisplayName := by
  unfold Definition.fillDisplayNames
  simp only [hostOfBase_detach h hd, ← displayText_eq_display]
  rfl

theorem fillAt_of_get? (h : r.WellIndexed) (hd : r.get? id = some d) :
    r.fillAt id = r.put id (d.mapTypeRefs r.withDisplayName) := by
  unfold fillAt
  rw [updateDetached_of_get? hd]
  simp only [fillDisplayNames_detach h hd]

theorem fillAt_of_get?_eq_none (hd : r.get? id = none) : r.fillAt id = r := by
  unfold fillAt
  rw [updateDetached_of_get?_eq_none hd]

end Registry

end Bindery
