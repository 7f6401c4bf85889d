import Bindery.Proofs.Lowering.Classification
import Bindery.Proofs.Lowering.Sparing

/-!
# What a macro says of itself

A macro gets its type when it is registered, by the macros that are known then, and what else it
says when the macros of its header are classified. Nothing is looked at again. It stays `Faithful`
all the same: what has a type keeps it when more macros become known (`Expr.type?_mono`), the macro
that has a name is never replaced, and classification leaves types alone. So in every lowerer that
has grown from the new one the types are those that the macros known now give
(`Grown.macros_stay_faithful`). To refuse the name of a macro would take types away.
-/

namespace Bindery

/-! ### Types in a growing environment -/

namespace MacroEnv

/-- The type of the macro called `name`. -/
def ty? (env : MacroEnv) (name : String) : Option Ty := (env.find? name).bind MacroInfo.ty

/-- Every macro that has a type in the first environment has it in the second one. -/
def KeepsTypes (env env' : MacroEnv) : Prop :=
  ∀ name ty, env.ty? name = some ty → env'.ty? name = some ty

theorem Settles.keepsTypes {env env' : MacroEnv} (h : env.Settles env') : env.KeepsTypes env' := by
  intro name ty hty
  rcases h name with hsame | ⟨info, body, hf, -, -, hf'⟩
  · rwa [ty?, hsame]
  · rw [ty?, hf] at hty
    rw [ty?, hf']
    exact hty

end MacroEnv

/-- An expression that has a type keeps it when more macros are known. -/
theorem Expr.type?_mono {env env' : MacroEnv} (h : env.KeepsTypes env') :
    ∀ {e : Expr} {ty : Ty}, e.type? env = some ty → e.type? env' = some ty
  | literal _, _, he | cast _ _, _, he | sizeofType _, _, he | sizeofTag _, _, he
  | sizeofExpr _, _, he => he
  | call .., _, he => nomatch he
  | ident _, _, he => h _ _ he
  | unary .not operand, ty, he => by
    obtain ⟨operandTy, ho, rfl⟩ := Option.map_eq_some_iff.mp he
    rw [type?, type?_mono h ho]
    rfl
  | unary .neg operand, _, he | unary .plus operand, _, he | unary .bitNot operand, _, he =>
    type?_mono h (e := operand) he
  | binary op left right, ty, he => by
    rw [type?] at he ⊢
    split at he
    · next l r hl hr => rwa [type?_mono h hl, type?_mono h hr]
    · cases he
  | ternary _ _ elseExpr, _, he => type?_mono h (e := elseExpr) he

/-! ### Macros -/

/-- What the macro says of itself is right by the macros of `env`. -/
structure MacroDef.Faithful (env : MacroEnv) (m : MacroDef) : Prop where
  expr : m.expr = (Expr.parse m.text).toOption
  ty : ∀ {ty}, m.ty = some ty → m.expr.bind (·.type? env) = some ty
  hostText : ∀ {text}, m.hostText = some text →
    m.ty.isSome = true ∧ m.expr.map Expr.render = some text
  constant : m.hostText = none → m.constant = false

namespace MacroDef.Faithful

variable {env env' : MacroEnv} {m m' : MacroDef}

theorem mono (hm : m.Faithful env) (h : env.KeepsTypes env') : m.Faithful env' := by
  refine ⟨hm.expr, fun {ty} hty => ?_, hm.hostText, hm.constant⟩
  obtain ⟨e, he, hty⟩ := Option.bind_eq_some_iff.mp (hm.ty hty)
  rw [he]
  exact Expr.type?_mono h hty

/-- Without an expression there is no type. -/
theorem ty_eq_none (hm : m.Faithful env) (he : m.expr = none) : m.ty = none := by
  cases hty : m.ty with
  | none => rfl
  | some ty =>
    have hbind := hm.ty hty
    rw [he] at hbind
    cases hbind

theorem ofDecl (env : MacroEnv) (decl : MacroDecl) : (MacroDef.ofDecl env decl).Faithful env :=
  ⟨rfl, id, nofun, fun _ => rfl⟩

/-- Classification fills in what is right, and leaves no macro with a type without host text. -/
theorem classified (hm : m.Faithful env) {env₀ : MacroEnv}
    (h : (Definition.macroDef m).classified env₀ = .macroDef m') :
    m'.Faithful env ∧ m'.hostText.isSome = m'.ty.isSome := by
  rcases (Definition.macroDef m).classified_cases env₀ with ⟨hc, hset⟩ | ⟨_, e, hd, hty, he, -, hc⟩
  · cases hc.symm.trans h
    refine ⟨hm, ?_⟩
    cases hhost : m.hostText with
    | some text => exact (hm.hostText hhost).1.symm
    | none =>
      -- without host text it was the type or the expression that was missing
      rcases hset m rfl with hty | he | hsome
      · rw [hty]
        rfl
      · rw [hm.ty_eq_none he]
        rfl
      · rw [hhost] at hsome
        cases hsome
  · cases hd
    cases hc.symm.trans h
    refine ⟨⟨hm.expr, hm.ty, fun ht => ⟨hty, ?_⟩, nofun⟩, hty.symm⟩
    cases ht
    exact congrArg (Option.map Expr.render) he

end MacroDef.Faithful

namespace Registry

variable {s t : Registry} {id : DefId} {m : MacroDef}

/-! ### The macros of a registry -/

theorem lookup_filterMap {α β : Type} (g : α → Option β) (n : String) :
    ∀ {l : List (String × α)}, (l.map Prod.fst).Nodup →
      (l.filterMap fun x => (g x.2).map fun b => (x.1, b)).lookup n = (l.lookup n).bind g
  | [], _ => rfl
  | (m, a) :: l, hn => by
    obtain ⟨hm, hn⟩ := List.nodup_cons.mp hn
    have ih := lookup_filterMap g n hn
    rw [List.filterMap_cons, List.lookup_cons]
    by_cases he : n = m
    · subst he
      have hnone : l.lookup n = none := List.lookup_eq_none_iff.mpr fun x hx =>
        bne_iff_ne.mpr fun he => hm (List.mem_map.mpr ⟨x, hx, he.symm⟩)
      cases ha : g a with
      | none => simp [ih, hnone, ha]
      | some b => simp [ha]
    · cases ha : g a with
      | none => simpa [beq_eq_false_iff_ne.mpr he] using ih
      | some b => simpa [List.lookup_cons, beq_eq_false_iff_ne.mpr he] using ih

/-- A name is known as a macro when a macro is registered under it. -/
theorem Consistent.find?_macroEnv (h : s.Consistent) (n : String) :
    s.macroEnv.find? n = ((s.find? n).bind Definition.asMacro?).map MacroDef.info := by
  rw [macroEnv_eq, MacroEnv.find?, lookup_filterMap _ _ h.nodup, find?, lookup?]
  cases s.index.lookup n <;> rfl

theorem Consistent.keepsTypes (hs : s.Consistent) (ht : t.Consistent)
    (h : ∀ {n m}, s.find? n = some (.macroDef m) → t.find? n = some (.macroDef m)) :
    s.macroEnv.KeepsTypes t.macroEnv := by
  intro n ty hty
  obtain ⟨info, hf, hinfo⟩ := Option.bind_eq_some_iff.mp hty
  rw [hs.find?_macroEnv, Option.map_eq_some_iff] at hf
  obtain ⟨m, hm, rfl⟩ := hf
  obtain ⟨d, hd, hm⟩ := Option.bind_eq_some_iff.mp hm
  cases d with
  | macroDef m' =>
    cases hm
    rw [MacroEnv.ty?, ht.find?_macroEnv, h hd]
    exact hinfo
  | _ => cases hm

/-- Every macro is faithful by the macros of the registry. -/
structure Faithful (r : Registry) : Prop where
  consistent : r.Consistent
  macros : ∀ {id m}, r.get? id = some (.macroDef m) → m.Faithful r.macroEnv

/-- Every macro that has a type is written in host syntax, and no other. -/
def Written (r : Registry) : Prop :=
  ∀ id m, r.get? id = some (.macroDef m) → m.hostText.isSome = m.ty.isSome

theorem Faithful.spares (h : s.Faithful) (hs : s.Spares .macroDef t) : t.Faithful := by
  have ht := hs.consistent h.consistent
  have hkeeps := h.consistent.keepsTypes ht fun hf => (hs.find?_iff h.consistent rfl).mpr hf
  exact ⟨ht, fun hm => (h.macros ((hs.get?_iff rfl).mp hm)).mono hkeeps⟩

theorem Written.spares (h : s.Written) (hs : s.Spares .macroDef t) : t.Written :=
  fun id m hm => h id m ((hs.get?_iff rfl).mp hm)

theorem Faithful.mention (h : s.Faithful) (name : String) : (s.mention name).Faithful :=
  h.spares (.mention _ s name)

theorem Faithful.insertMacro (h : s.Faithful) (decl : MacroDecl) : (s.insertMacro decl).Faithful := by
  have hmention := h.mention decl.name
  have ht := hmention.consistent.insert (.macroDef (.ofDecl s.macroEnv decl))
  have hkeeps : s.macroEnv.KeepsTypes (s.insertMacro decl).macroEnv :=
    hmention.consistent.keepsTypes ht fun hf =>
      (hmention.consistent.find?_insert ..).trans (by rw [hf]; rfl)
  refine ⟨ht, fun {id m} hm => ?_⟩
  rcases of_get?_insert hm with he | hm
  · cases he
    exact (MacroDef.Faithful.ofDecl s.macroEnv decl).mono hkeeps
  · exact (h.macros hm).mono hkeeps

theorem Faithful.registerMacros (h : s.Faithful) (skips : MacroDecl → Bool)
    (decls : List MacroDecl) : (s.registerMacros skips decls).Faithful := by
  unfold Registry.registerMacros
  generalize decls.filter _ = kept
  induction kept generalizing s with
  | nil => exact h
  | cons decl kept ih => exact ih (h.insertMacro decl)

theorem Faithful.lowerMacros (h : s.Faithful) (skips : MacroDecl → Bool) (decls : List MacroDecl) :
    (s.lowerMacros skips decls).Faithful ∧ (s.lowerMacros skips decls).Written := by
  have hreg := h.registerMacros skips decls
  have hmaps := s.maps_lowerMacros skips decls
  have hcons : (s.lowerMacros skips decls).Consistent :=
    hreg.consistent.of_names_eq hmaps.index hmaps.suppressed hmaps.arrays fun id => by
      rw [hmaps.get?_of_ids, Option.map_map]
      exact congrArg (Option.map · _) (funext (Definition.name_classified _))
  have hslot : ∀ {id m}, (s.lowerMacros skips decls).get? id = some (.macroDef m) →
      m.Faithful (s.registerMacros skips decls).macroEnv ∧ m.hostText.isSome = m.ty.isSome := by
    intro id m hm
    rw [hmaps.get?_of_ids] at hm
    obtain ⟨d, hd, hc⟩ := Option.map_eq_some_iff.mp hm
    cases d with
    | macroDef m₀ => exact (hreg.macros hd).classified hc
    | _ => cases hc
  exact ⟨⟨hcons, fun hm => (hslot hm).1.mono hmaps.settles.keepsTypes⟩, fun _ _ hm => (hslot hm).2⟩

end Registry

namespace Lowerer

open Registry

variable {l : Lowerer}

/-- The lowerers that come from the new one by choosing exports, filters and an override, by
processing headers, be it with success or not, and by refusing names before there are macros. -/
inductive Grown : Lowerer → Prop where
  | new : Grown new
  | configure {l : Lowerer} (h : Grown l) (exports : ExportMap) (filters : DeclFilters)
      (override : TypeOverride) : Grown { l with exports, filters, override }
  | suppress {l : Lowerer} (h : Grown l) (name : String)
      (hn : ∀ m, .macroDef m ∉ l.registry.definitions) : Grown (l.suppress name)
  | process {l : Lowerer} (h : Grown l) (headers : List Header) :
      Grown (l.after (process headers))

/-- Every macro of the lowerer is faithful and has been classified. -/
structure Faithful (l : Lowerer) : Prop where
  registry : l.registry.Faithful
  written : l.registry.Written

namespace Faithful

theorem concerns : Concerns .macroDef Faithful :=
  fun h hs => ⟨h.registry.spares hs, h.written.spares hs⟩

theorem process (headers : List Header) : Preserves Faithful (process headers) := by
  refine .process (.lowerHeader (fun l decls h => ?_) (concerns.lowerEnum rfl)
    (concerns.lowerRecord rfl) fun decl => ?_) headers
  · obtain ⟨hf, hw⟩ := h.registry.lowerMacros l.filters.skipsMacro decls
    exact ⟨hf, hw⟩
  · exact .lowerFunction (fun _ h => ⟨h.registry, h.written⟩) fun l e _ =>
      concerns.onRegistry (spares_exportFunction l.override e decl)

/-- Without macros there is nothing to say, whatever name is refused. -/
theorem suppress (h : l.Faithful) (name : String)
    (hn : ∀ m, .macroDef m ∉ l.registry.definitions) : (l.suppress name).Faithful := by
  have hnone : ∀ {id m}, (l.registry.suppress name).get? id ≠ some (.macroDef m) :=
    fun hm => hn _ (mem_definitions.mpr ⟨_, of_get?_suppress hm⟩)
  exact ⟨⟨h.registry.consistent.suppress name, fun hm => absurd hm hnone⟩,
    fun _ _ hm => absurd hm hnone⟩

end Faithful

theorem Grown.faithful (h : l.Grown) : l.Faithful := by
  induction h with
  | new => exact ⟨⟨.empty, nofun⟩, fun _ _ hm => absurd hm nofun⟩
  | configure _ _ _ _ ih => exact ⟨ih.registry, ih.written⟩
  | suppress _ name hn ih => exact ih.suppress name hn
  | process _ headers ih => exact Faithful.process headers _ ih

/-- **Macros stay faithful.** Whatever was processed, a macro has the expression that its text reads
as, if it reads as one. Its type, if it has one, is that of the expression by all macros that are
known now, although fewer were known when it was found. The macro is written in host syntax just
when it has a type, as its expression is, and only then it may be a constant. -/
theorem Grown.macros_stay_faithful (h : l.Grown) :
    ∀ m, .macroDef m ∈ l.registry.definitions →
      m.expr = (Expr.parse m.text).toOption ∧
      (m.expr = none → m.ty = none) ∧
      (∀ ty, m.ty = some ty → m.expr.bind (·.type? l.registry.macroEnv) = some ty) ∧
      m.hostText.isSome = m.ty.isSome ∧
      (∀ text, m.hostText = some text → m.expr.map Expr.render = some text) ∧
      (m.hostText = none → m.constant = false) := by
  intro m hm
  obtain ⟨id, hm⟩ := mem_definitions.mp hm
  have hf := h.faithful.registry.macros hm
  exact ⟨hf.expr, hf.ty_eq_none, fun ty => hf.ty, h.faithful.written id m hm,
    fun text ht => (hf.hostText ht).2, hf.constant⟩

/-- A header that declares the macros and nothing else. -/
def macroHeader (macros : List MacroDecl) : Header := ⟨"box.h", false, macros, [], [], [], []⟩

/-- Two headers, the second of which defines what a macro of the first one needs. The name of one
macro is refused. -/
def afterBoxHeaders : Lowerer :=
  (new.suppress "DEPTH").after (process
    [macroHeader [⟨"WIDTH", "4"⟩, ⟨"AREA", "WIDTH * HEIGHT"⟩, ⟨"OPEN", "("⟩],
      macroHeader [⟨"HEIGHT", "3L"⟩, ⟨"DEPTH", "2"⟩, ⟨"SIZE", "WIDTH*HEIGHT"⟩, ⟨"HEIGHT", "9"⟩]])

/-- The macro that came too early has no type in the end and the one with the same expression has,
and both are faithful. -/
theorem macros_stay_faithful_boxHeaders :
    afterBoxHeaders.Grown ∧
    (afterBoxHeaders.registry.definitions.filterMap fun d => d.asMacro?.map fun m =>
      (m.label.name, m.expr.isSome, m.ty, m.constant, m.hostText)) =
        [("WIDTH", true, some .i32, true, some "4"), ("AREA", true, none, false, none),
          ("OPEN", false, none, false, none), ("HEIGHT", true, some .i64, true, some "3L"),
          ("SIZE", true, some .i64, true, some "WIDTH * HEIGHT")] ∧
    ∀ m, .macroDef m ∈ afterBoxHeaders.registry.definitions →
      m.expr = (Expr.parse m.text).toOption ∧
      (m.expr = none → m.ty = none) ∧
      (∀ ty, m.ty = some ty →
        m.expr.bind (·.type? afterBoxHeaders.registry.macroEnv) = some ty) ∧
      m.hostText.isSome = m.ty.isSome ∧
      (∀ text, m.hostText = some text → m.expr.map Expr.render = some text) ∧
      (m.hostText = none → m.constant = false) :=
  have h : afterBoxHeaders.Grown := .process (.suppress .new _ fun _ hm => nomatch hm) _
  ⟨h, by cbv, h.macros_stay_faithful⟩

end Lowerer

end Bindery
