import Bindery.Proofs.Lowering.Sparing

/-!
# The export gate

Only functions that a library exports are registered. Types and macros pass the gate by: no step of
a header but the last touches a function (`Concerns`), and the last one either registers a function
for its library, or notes its name, or passes it over. So a run that succeeds has noted the missing
exports of all its headers, in order, and has registered functions of the export map only, whatever
overrides and refused names there are (`Processes.export_gate_is_exact`).
-/

namespace Bindery

/-! ### Export maps -/

/-- The names that one library exports. -/
structure LibraryExports where
  names : List String
  library : String
  libraryIsConst : Bool

namespace ExportMap

/-- The map to which the exports of some libraries have been added, in order. -/
def ofLibraries (libs : List LibraryExports) : ExportMap :=
  libs.foldl (fun m lib => m.add lib.names lib.library lib.libraryIsConst) .empty

theorem get?_claim_eq (m : ExportMap) (e : Export) (other name : String) :
    (m.claim e other).get? name = (m.get? name).or (if name = other then some e else none) := by
  unfold claim
  split
  · next hc =>
    split
    · next he => rw [he, Option.or_of_isSome hc]
    · rw [Option.or_none]
  · next hc =>
    change ((other, e) :: m.entries).lookup name = _
    rw [List.lookup_cons]
    by_cases he : name = other
    · subst he
      have hnone : m.get? name = none := Option.not_isSome_iff_eq_none.mp hc
      simp [hnone]
    · simp [beq_eq_false_iff_ne.mpr he, he, get?]

theorem get?_add_eq (names : List String) (library : String) (libraryIsConst : Bool)
    (m : ExportMap) (name : String) : (m.add names library libraryIsConst).get? name =
      (m.get? name).or (if name ∈ names then some ⟨library, libraryIsConst⟩ else none) := by
  unfold add
  induction names generalizing m with
  | nil => simp
  | cons other names ih =>
    rw [List.foldl_cons, ih, get?_claim_eq, Option.or_assoc]
    by_cases he : name = other <;> by_cases hm : name ∈ names <;> simp [he, hm]

/-- A name belongs to the first library that lists it. -/
theorem get?_ofLibraries (libs : List LibraryExports) (name : String) :
    (ofLibraries libs).get? name = (libs.find? fun lib => lib.names.contains name).map fun lib =>
      ⟨lib.library, lib.libraryIsConst⟩ := by
  have hfold : ∀ m : ExportMap,
      (libs.foldl (fun m lib => m.add lib.names lib.library lib.libraryIsConst) m).get? name =
        (m.get? name).or ((libs.find? fun lib => lib.names.contains name).map fun lib =>
          ⟨lib.library, lib.libraryIsConst⟩) := by
    induction libs with
    | nil => exact fun m => (Option.or_none ..).symm
    | cons lib libs ih =>
      intro m
      rw [List.foldl_cons, ih, get?_add_eq, Option.or_assoc]
      by_cases hm : name ∈ lib.names <;> simp [hm]
  exact hfold .empty

theorem contains_ofLibraries (libs : List LibraryExports) (name : String) :
    (ofLibraries libs).contains name = libs.any fun lib => lib.names.contains name := by
  rw [contains, get?_ofLibraries, Option.isSome_map, Bool.eq_iff_iff, List.find?_isSome,
    List.any_eq_true]

end ExportMap

namespace Registry

variable {x : ExportMap} {s t : Registry}

/-- Every function belongs to the library that exports it. -/
def Exported (x : ExportMap) (r : Registry) : Prop :=
  ∀ id f, r.get? id = some (.functionDef f) →
    x.get? f.label.name = some ⟨f.library, f.libraryIsConst⟩

theorem Exported.spares (h : s.Exported x) (hs : s.Spares .functionDef t) : t.Exported x :=
  fun id f hf => h id f ((hs.get?_iff rfl).mp hf)

theorem Exported.insert (h : s.Exported x) {f : FunctionDef}
    (hf : x.get? f.label.name = some ⟨f.library, f.libraryIsConst⟩) :
    (s.insert (.functionDef f)).2.Exported x := by
  intro id f' hf'
  rcases of_get?_insert hf' with he | hf'
  · cases he
    exact hf
  · exact h id f' hf'

theorem Exported.suppress (h : s.Exported x) (name : String) : (s.suppress name).Exported x :=
  fun id f hf => h id f (of_get?_suppress hf)

end Registry

namespace Lowerer

open Registry

variable {x : ExportMap} {fs : DeclFilters} {names : List String} {l l' : Lowerer}

/-- The function would be registered, were there an export for it. -/
def lacksExport (x : ExportMap) (fs : DeclFilters) (decl : FunctionDecl) : Bool :=
  !decl.isInline && !fs.skipsFunction decl && !x.contains decl.name

/-- The functions of the headers that are not system headers. -/
def ownFunctions (headers : List Header) : List FunctionDecl :=
  (headers.filter (!·.isSystem)).flatMap Header.functions

/-- What the gate lets through: the lowerer knows the exports and the filters, has noted the names
and has registered exported functions only. -/
structure Gated (x : ExportMap) (fs : DeclFilters) (names : List String) (l : Lowerer) : Prop where
  exports : l.exports = x
  filters : l.filters = fs
  unresolved : l.unresolved = names
  functions : l.registry.Exported x

/-- The names of the functions that lack an export. -/
def missing (x : ExportMap) (fs : DeclFilters) (decls : List FunctionDecl) : List String :=
  (decls.filter (lacksExport x fs)).map FunctionDecl.name

theorem missing_singleton {b : Bool} {decl : FunctionDecl} (h : lacksExport x fs decl = b) :
    missing x fs [decl] = if b then [decl.name] else [] := by
  cases b <;> simp [missing, h]

theorem missing_append (decls more : List FunctionDecl) :
    missing x fs (decls ++ more) = missing x fs decls ++ missing x fs more := by
  simp [missing]

namespace Gated

theorem concerns : Concerns .functionDef (Gated x fs names) :=
  fun h hs => ⟨h.exports, h.filters, h.unresolved, h.functions.spares hs⟩

theorem exportFunction (o : TypeOverride) {e : Export} {decl : FunctionDecl}
    (he : x.get? decl.name = some e) :
    Preserves (Gated x fs names) (onRegistry (exportFunction o e decl)) := by
  refine .onRegistry_bind (concerns.onRegistry (spares_resolveInSignature rfl o none _)) fun _ =>
    .onRegistry_bind (concerns.onRegistry (spares_lowerParams rfl o _ _ _)) fun _ =>
      .onRegistry_bind (concerns.onRegistry (.mention _ _)) fun _ =>
        .onRegistry_bind (fun l h => ?_) fun _ => fun l h => h
  exact ⟨h.exports, h.filters, h.unresolved, h.functions.insert he⟩

/-- A function passes the gate in one of three ways. -/
theorem lowerFunction (h : l.Gated x fs names) {decl : FunctionDecl}
    (hrun : lowerFunction decl l = .ok ⟨⟩ l') : l'.Gated x fs (names ++ missing x fs [decl]) := by
  obtain ⟨rfl, rfl, rfl, hfunctions⟩ := h
  have hgated : l.Gated l.exports l.filters l.unresolved := ⟨rfl, rfl, rfl, hfunctions⟩
  rw [Lowerer.lowerFunction, bind_ok (m := get) rfl] at hrun
  split at hrun
  · next hkept =>
    cases he : l.exports.get? decl.name with
    | none =>
      have hlacks : lacksExport l.exports l.filters decl = true := by
        rw [lacksExport, hkept, ExportMap.contains, he]
        rfl
      rw [he] at hrun
      cases hrun
      rw [missing_singleton hlacks]
      exact ⟨rfl, rfl, rfl, hfunctions⟩
    | some e =>
      have hlacks : lacksExport l.exports l.filters decl = false := by
        rw [lacksExport, hkept, ExportMap.contains, he]
        rfl
      rw [he] at hrun
      simpa [missing_singleton hlacks] using (exportFunction l.override he).of_ok hgated hrun
  · next hpassed =>
    have hlacks : lacksExport l.exports l.filters decl = false := by
      rw [lacksExport, Bool.eq_false_iff.mpr hpassed]
      rfl
    cases hrun
    simpa [missing_singleton hlacks] using hgated

theorem lowerFunctions {decls : List FunctionDecl} (h : l.Gated x fs names)
    (hrun : decls.forM Lowerer.lowerFunction l = .ok ⟨⟩ l') :
    l'.Gated x fs (names ++ missing x fs decls) := by
  induction decls generalizing l names with
  | nil =>
    cases hrun
    simpa [missing] using h
  | cons decl decls ih =>
    obtain ⟨_, m, hstep, hrest⟩ := of_bind_eq_ok (m := Lowerer.lowerFunction decl)
      (f := fun _ => decls.forM Lowerer.lowerFunction) hrun
    have hgate := ih (h.lowerFunction hstep) hrest
    rwa [List.append_assoc, ← missing_append] at hgate

theorem lowerHeader (h : l.Gated x fs names) {header : Header}
    (hrun : lowerHeader header l = .ok ⟨⟩ l') :
    l'.Gated x fs (names ++ missing x fs header.functions) := by
  rw [Lowerer.lowerHeader] at hrun
  obtain ⟨_, l₁, hmacros, hrun⟩ := of_bind_eq_ok hrun
  obtain ⟨_, l₂, henums, hrun⟩ := of_bind_eq_ok hrun
  obtain ⟨_, l₃, hrecords, hrun⟩ := of_bind_eq_ok hrun
  obtain ⟨_, l₄, htypedefs, hfunctions⟩ := of_bind_eq_ok hrun
  have h₁ : l₁.Gated x fs names := by
    cases hmacros
    exact concerns h (.lowerMacros (k := .functionDef) nofun _ _ _)
  have h₂ := (Preserves.forM (concerns.lowerEnum rfl) _).of_ok h₁ henums
  have hrecord : ∀ fallback decl, Preserves (Gated x fs names) (lowerRecord fallback decl) :=
    concerns.lowerRecord rfl
  have h₃ := (Preserves.forM (.lowerTagged (hrecord none)) _).of_ok h₂ hrecords
  have h₄ := (Preserves.forM (.lowerTypedef hrecord) _).of_ok h₃ htypedefs
  exact h₄.lowerFunctions hfunctions

theorem process {headers : List Header} (h : l.Gated x fs names)
    (hrun : process headers l = .ok ⟨⟩ l') :
    l'.Gated x fs (names ++ missing x fs (ownFunctions headers)) := by
  induction headers generalizing l names with
  | nil =>
    cases hrun
    simpa [missing, ownFunctions] using h
  | cons header headers ih =>
    obtain ⟨_, m, hstep, hrest⟩ := of_bind_eq_ok
      (m := if header.isSystem then return else Lowerer.lowerHeader header)
      (f := fun _ => Lowerer.process headers) hrun
    cases hsys : header.isSystem with
    | true =>
      rw [hsys] at hstep
      cases hstep
      have hown : ownFunctions (header :: headers) = ownFunctions headers := by
        simp [ownFunctions, hsys]
      rw [hown]
      exact ih h hrest
    | false =>
      rw [hsys] at hstep
      have hown : ownFunctions (header :: headers) =
          header.functions ++ ownFunctions headers := by simp [ownFunctions, hsys]
      have hgate := ih (h.lowerHeader hstep) hrest
      rwa [List.append_assoc, ← missing_append, ← hown] at hgate

end Gated

/-- The second lowerer comes from the first one by processing the headers with success, in one go or
in several, and by refusing names before, between and after. -/
inductive Processes (l : Lowerer) : List Header → Lowerer → Prop where
  | refl : Processes l [] l
  | process {l' l'' : Lowerer} {headers more : List Header} (h : Processes l headers l')
      (hrun : Lowerer.process more l' = .ok ⟨⟩ l'') : Processes l (headers ++ more) l''
  | suppress {l' : Lowerer} {headers : List Header} (h : Processes l headers l') (name : String) :
      Processes l headers (l'.suppress name)

theorem Processes.gated {headers : List Header} (h : Processes l headers l') (hl : l.Gated x fs []) :
    l'.Gated x fs (missing x fs (ownFunctions headers)) := by
  induction h with
  | refl => exact hl
  | @process l' l'' headers more _ hrun ih =>
    have hown : ownFunctions (headers ++ more) = ownFunctions headers ++ ownFunctions more := by
      simp [ownFunctions]
    rw [hown, missing_append]
    exact ih.process hrun
  | suppress _ name ih => exact ⟨ih.exports, ih.filters, ih.unresolved, ih.functions.suppress name⟩

/-- The lowerer before the first header, with the exports of the libraries, filters and an override. -/
def configured (libs : List LibraryExports) (filters : DeclFilters) (override : TypeOverride) :
    Lowerer :=
  { new with exports := .ofLibraries libs, filters, override }

/-- **The export gate is exact.** When headers have been processed with success, the names noted are
those of the functions that are not inline, that no filter leaves out and that no library lists, in
the order in which the headers declare them and as often. Every function that is registered is on
the list of a library, and belongs to the first one that lists it. -/
theorem Processes.export_gate_is_exact {libs : List LibraryExports} {override : TypeOverride}
    {headers : List Header} (h : (configured libs fs override).Processes headers l') :
    l'.unresolved = ((ownFunctions headers).filter fun decl =>
      !decl.isInline && !fs.skipsFunction decl &&
        !libs.any fun lib => lib.names.contains decl.name).map FunctionDecl.name ∧
    ∀ f, .functionDef f ∈ l'.registry.definitions →
      ∃ lib, (libs.find? fun lib => lib.names.contains f.label.name) = some lib ∧
        f.library = lib.library ∧ f.libraryIsConst = lib.libraryIsConst := by
  have hstart : (configured libs fs override).Gated (.ofLibraries libs) fs [] :=
    ⟨rfl, rfl, rfl, fun _ _ hf => absurd hf nofun⟩
  have hgated := h.gated hstart
  have hlacks : lacksExport (.ofLibraries libs) fs = fun decl =>
      !decl.isInline && !fs.skipsFunction decl &&
        !libs.any fun lib => lib.names.contains decl.name :=
    funext fun decl => by rw [lacksExport, ExportMap.contains_ofLibraries]
  refine ⟨by rw [hgated.unresolved, missing, hlacks], fun f hf => ?_⟩
  obtain ⟨id, hf⟩ := mem_definitions.mp hf
  have hexport := hgated.functions id f hf
  rw [ExportMap.get?_ofLibraries, Option.map_eq_some_iff] at hexport
  obtain ⟨lib, hlib, he⟩ := hexport
  obtain ⟨hl, hc⟩ := Export.mk.inj he
  exact ⟨lib, hlib, hl.symm, hc.symm⟩

/-- A function of the file library that takes and returns an `int`. -/
def fileFunction (name : String) (isInline : Bool) : FunctionDecl :=
  ⟨name, .builtin .int, [⟨"fd", .builtin .int, .none⟩], .c, isInline, none, .none⟩

/-- Both libraries list the name `close`. -/
def fileLibraries : List LibraryExports :=
  [⟨["open", "close"], "libc", true⟩, ⟨["close", "sync"], "LibraryPath", false⟩]

/-- Leaves out what is called `_exit`. -/
def exitFilter : DeclFilters := DeclFilters.none.skipFunctions fun decl => decl.name == "_exit"

/-- A system header, a header with an inline function, one that is left out and one without an
export, and a header that declares functions again. -/
def fileHeaders : List Header :=
  [⟨"sys.h", true, [], [], [], [], [fileFunction "ioctl" false]⟩,
    ⟨"file.h", false, [], [], [], [], [fileFunction "close" false, fileFunction "lock" true,
      fileFunction "fsync" false, fileFunction "_exit" false, fileFunction "sync" false]⟩,
    ⟨"more.h", false, [], [], [], [], [fileFunction "fsync" false, fileFunction "close" false]⟩]

/-- The function without an export is noted twice, and the name on both lists belongs to the first
library. The name `open` is refused before the headers come. -/
theorem export_gate_is_exact_fileHeaders : ∃ l',
    (configured fileLibraries exitFilter .none).Processes fileHeaders l' ∧
    l'.unresolved = ["fsync", "fsync"] ∧
    (l'.registry.definitions.filterMap fun d => d.asFunction?.map fun f =>
      (f.label.name, f.library, f.libraryIsConst)) =
        [("close", "libc", true), ("sync", "LibraryPath", false)] ∧
    l'.unresolved = ((ownFunctions fileHeaders).filter fun decl =>
      !decl.isInline && !exitFilter.skipsFunction decl &&
        !fileLibraries.any fun lib => lib.names.contains decl.name).map FunctionDecl.name ∧
    ∀ f, .functionDef f ∈ l'.registry.definitions →
      ∃ lib, (fileLibraries.find? fun lib => lib.names.contains f.label.name) = some lib ∧
        f.library = lib.library ∧ f.libraryIsConst = lib.libraryIsConst := by
  have hrefused : (configured fileLibraries exitFilter .none).Processes [] _ :=
    .suppress .refl "open"
  have hrun : (configured fileLibraries exitFilter .none).Processes fileHeaders _ :=
    hrefused.process rfl
  exact ⟨_, hrun, rfl, rfl, hrun.export_gate_is_exact⟩

end Lowerer

end Bindery
