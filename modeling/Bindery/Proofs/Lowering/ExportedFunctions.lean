import Bindery.Proofs.Lowering.Runs

/-!
# What becomes of an exported function

All kinds of definitions share one space of names, and a name belongs to what is registered under it
first. So a function with an export is registered just when no macro, type or callback has come
before it under its name, be it in its own signature (`Reached.process_functions`).
-/

namespace Bindery

open Registry

namespace Registry.Accounts

variable {s t : Registry} {d : Definition}

/-- The kind under a name is that of what had it before, or of the first sighting. -/
theorem kind_eq {log : List Sighting} {n : String} (h : s.Accounts log t) (hk : s.Keeps t)
    (hd : t.find? n = some d) :
    some d.kind = (s.kindOf? n).or ((firstNamed n log).map Sighting.kind) := by
  unfold kindOf?
  cases hs : s.find? n with
  | some d₀ =>
    obtain ⟨d', hd', hc⟩ := hk.completes hs
    cases hd.symm.trans hd'
    rw [hc.kind_eq]
    rfl
  | none =>
    obtain ⟨e, he, hm⟩ := h.made hs hd
    rw [he, hm.kind_eq]
    rfl

/-- What was seen gives the kind under its name, unless something else came before it. -/
theorem kind_of_split {pre post : List Sighting} {e : Sighting}
    (h : s.Accounts (pre ++ e :: post) t) (hk : s.Keeps t) (hd : t.find? e.name = some d) :
    d.kind = ((s.kindOf? e.name).or ((firstNamed e.name pre).map Sighting.kind)).getD e.kind := by
  have hfirst : firstNamed e.name (e :: post) = some e := by simp [firstNamed]
  have hkind := h.kind_eq hk hd
  rw [firstNamed_append, hfirst] at hkind
  cases hs : s.kindOf? e.name with
  | some k =>
    rw [hs] at hkind
    exact Option.some.inj hkind
  | none =>
    rw [hs] at hkind
    cases hp : firstNamed e.name pre with
    | some e' =>
      rw [hp] at hkind
      exact Option.some.inj hkind
    | none =>
      rw [hp] at hkind
      exact Option.some.inj hkind

end Registry.Accounts

namespace Lowerer

variable {α : Type} {l l' : Lowerer} {header : Header} {headers : List Header}
  {decl : FunctionDecl}

/-- A successful loop comes to each of its declarations, and sees what that shows between what comes
before and after. -/
theorem Step.Logs.forM_visits {step : α → Step PUnit} {seen : α → Lowerer → List Sighting}
    (h : ∀ a (l : Lowerer), l.Ready → (step a).Logs l (seen a l)) {a : α} :
    ∀ {as : List α} {l : Lowerer}, l.Ready → as.forM step l = .ok ⟨⟩ l' → a ∈ as →
      ∃ l₁ l₂ pre post, l.Carries l₁ ∧ step a l₁ = .ok ⟨⟩ l₂ ∧ l₂.Carries l' ∧
        eachSeen step seen as l = pre ++ seen a l₁ ++ post
  | b :: as, l, hl, hrun, ha => by
    obtain ⟨_, m, hb, hrest⟩ := of_bind_eq_ok (m := step b) (f := fun _ => as.forM step) hrun
    have hm := ((h b l hl).of_ok hb).1
    have hseen : eachSeen step seen (b :: as) l = seen b l ++ eachSeen step seen as m := by
      rw [eachSeen, following_ok hb]
    rw [hseen]
    rcases List.mem_cons.mp ha with rfl | ha
    · have hrest := ((forM h as (hm.ready hl)).of_ok hrest).1
      exact ⟨l, m, [], _, .refl hl.wellTyped, hb, hrest, rfl⟩
    · obtain ⟨l₁, l₂, pre, post, hl₁, hstep, hl₂, hlog⟩ := forM_visits h (hm.ready hl) hrest ha
      exact ⟨l₁, l₂, seen b l ++ pre, post, hm.trans hl₁, hstep, hl₂, by simp [hlog]⟩

/-- Lowering a header comes to each of its functions. -/
theorem lowerHeader_visits (h : l.Ready) (hrun : lowerHeader header l = .ok ⟨⟩ l')
    (hd : decl ∈ header.functions) :
    ∃ l₁ l₂ pre post, l.Carries l₁ ∧ lowerFunction decl l₁ = .ok ⟨⟩ l₂ ∧ l₂.Carries l' ∧
      headerSeen header l = pre ++ functionSeen decl l₁ ++ post := by
  rw [lowerHeader] at hrun
  obtain ⟨_, m₁, hmacros, hrun⟩ := of_bind_eq_ok hrun
  obtain ⟨_, m₂, henums, hrun⟩ := of_bind_eq_ok hrun
  obtain ⟨_, m₃, hrecords, hrun⟩ := of_bind_eq_ok hrun
  obtain ⟨_, m₄, htypedefs, hfunctions⟩ := of_bind_eq_ok hrun
  rw [headerSeen, following_ok hmacros, following_ok henums, following_ok hrecords,
    following_ok htypedefs]
  have c₁ := ((logs_macros header.macros h).of_ok hmacros).1
  have c₂ := c₁.trans ((logs_enums header.enums (c₁.ready h)).of_ok henums).1
  have c₃ := c₂.trans ((logs_records header.records (c₂.ready h)).of_ok hrecords).1
  have c₄ := c₃.trans ((logs_typedefs header.typedefs (c₃.ready h)).of_ok htypedefs).1
  obtain ⟨l₁, l₂, pre, post, hl₁, hstep, hl₂, hlog⟩ := Step.Logs.forM_visits
    (fun decl _ => logs_lowerFunction decl) (c₄.ready h) hfunctions hd
  rw [hlog]
  refine ⟨l₁, l₂, macroSightings l.filters.skipsMacro header.macros ++
    eachSeen lowerEnum enumSeen header.enums m₁ ++
    eachSeen lowerTagged taggedSeen header.records m₂ ++
    eachSeen lowerTypedef typedefSeen header.typedefs m₃ ++ pre, post, c₄.trans hl₁, hstep, hl₂, ?_⟩
  simp only [List.append_assoc]

/-- Processing headers comes to each function of each header that is not a system header. -/
theorem process_visits (h : l.Ready) (hrun : process headers l = .ok ⟨⟩ l')
    (hh : header ∈ headers) (hsys : header.isSystem = false) (hd : decl ∈ header.functions) :
    ∃ l₁ l₂ pre post, l.Carries l₁ ∧ lowerFunction decl l₁ = .ok ⟨⟩ l₂ ∧ l₂.Carries l' ∧
      sightings headers l = pre ++ functionSeen decl l₁ ++ post := by
  obtain ⟨l₁, l₂, pre, post, hl₁, hstep, hl₂, hlog⟩ := Step.Logs.forM_visits
    (fun header _ => logs_lowerUnlessSystem header) h hrun hh
  have hready := hl₁.ready h
  have hstep' : lowerHeader header l₁ = .ok ⟨⟩ l₂ := by
    rw [lowerUnlessSystem, hsys] at hstep
    exact hstep
  have hseen : unlessSystemSeen header l₁ = headerSeen header l₁ := by
    rw [unlessSystemSeen, hsys]
    rfl
  obtain ⟨l₃, l₄, pre', post', hl₃, hfun, hl₄, hlog'⟩ := lowerHeader_visits hready hstep' hd
  refine ⟨l₃, l₄, pre ++ pre', post' ++ post, hl₁.trans hl₃, hfun, hl₄.trans hl₂, ?_⟩
  rw [sightings, hlog, hseen, hlog']
  simp

/-- A function without an export is noted. -/
theorem lowerFunction_of_no_export
    (hkept : (!decl.isInline && !l.filters.skipsFunction decl) = true)
    (he : l.exports.get? decl.name = none) :
    lowerFunction decl l = .ok ⟨⟩ { l with unresolved := l.unresolved ++ [decl.name] } := by
  refine (bind_ok rfl).trans ?_
  rw [if_pos hkept, he]
  rfl

/-- **What becomes of an exported function.** Without filters and suppressed names, a function that
is not inline is noted as unresolved if it has no export. If it has one, its name is registered in
the end, for the library of the export when it is registered as a function; and it is, unless
something else came before it under its name, which then keeps the name. -/
theorem Reached.process_functions (h : l.Reached) (hf : l.filters = .none)
    (hs : l.registry.suppressed = []) (hrun : Lowerer.process headers l = .ok ⟨⟩ l')
    (hh : header ∈ headers) (hsys : header.isSystem = false) (hd : decl ∈ header.functions)
    (hi : decl.isInline = false) :
    match l.exports.get? decl.name with
    | none => decl.name ∈ l'.unresolved
    | some e => ∃ before after d,
        sightings headers l = before ++ .function decl e :: after ∧
        l'.registry.find? decl.name = some d ∧
        d.kind = ((l.registry.kindOf? decl.name).or
          ((firstNamed decl.name before).map Sighting.kind)).getD .functionDef ∧
        ∀ f, d = .functionDef f → f.library = e.library ∧ f.libraryIsConst = e.libraryIsConst := by
  obtain ⟨l₁, l₂, pre, post, hl₁, hstep, hl₂, hlog⟩ :=
    process_visits h.ready hrun hh hsys hd
  have hkept : (!decl.isInline && !l₁.filters.skipsFunction decl) = true := by
    rw [hi, hl₁.filters, hf]
    rfl
  cases he : l.exports.get? decl.name with
  | none =>
    rw [← hl₁.exports] at he
    cases hstep.symm.trans (lowerFunction_of_no_export hkept he)
    exact hl₂.unresolved.subset (List.mem_append_right _ (List.mem_singleton_self _))
  | some e =>
    obtain ⟨hl, haccounts⟩ := (logs_process headers h.ready).of_ok hrun
    have hseen : functionSeen decl l₁ = functionSightings decl e l₁.registry := by
      rw [functionSeen, if_pos hkept, hl₁.exports, he]
    have hsplit : sightings headers l = (pre ++ signatureSightings decl.name decl.returnType
        decl.params l₁.registry) ++ .function decl e :: post := by
      rw [hlog, hseen, functionSightings]
      simp only [List.append_assoc, List.singleton_append]
    have hwell := hl.registry.advances.wellTyped
    -- the name is taken, and nothing is refused, so there is something under it
    have hmem : Sighting.function decl e ∈ sightings headers l := by
      rw [hsplit]
      exact List.mem_append_right _ (List.mem_cons_self ..)
    have hfree : l'.registry.isSuppressed decl.name = false := by
      rw [hl.registry.advances.grows.isSuppressed, isSuppressed, hs]
      rfl
    obtain ⟨d, hfind⟩ : ∃ d, l'.registry.find? decl.name = some d :=
      (haccounts.seen _ hmem).taken.find? hfree
    refine ⟨_, post, d, hsplit, hfind, ?_, ?_⟩
    · rw [hsplit] at haccounts
      exact haccounts.kind_of_split hl.registry.toKeeps hfind
    · rintro f rfl
      obtain ⟨id, hget, hname⟩ := hwell.consistent.find?_eq_some_iff.mp hfind
      have hset : l.exports.get? f.label.name = some ⟨f.library, f.libraryIsConst⟩ :=
        hl.registry.settled h.ready.settled _ _ hfind
      have hname : f.label.name = decl.name := hname
      rw [hname, he] at hset
      cases hset
      exact ⟨rfl, rfl⟩

/-- A header that declares the functions and nothing else. -/
def functionHeader (functions : List FunctionDecl) : Header :=
  ⟨"stat.h", false, [], [], [], [], functions⟩

/-- A function that takes a record of its own name. -/
def statDecl : FunctionDecl :=
  ⟨"stat", .builtin .int, [⟨"path", .pointer (.builtin .char) true, .none⟩,
    ⟨"buf", .pointer (.record ⟨some "stat", none, false, .none⟩) false, .none⟩],
    .c, false, none, .none⟩

/-- A function that takes nothing. -/
def syncDecl : FunctionDecl := ⟨"sync", .builtin .void, [], .c, false, none, .none⟩

/-- The lowerer that knows the exports of one library. -/
def withLibc : Lowerer := new.addExports ["stat", "sync"] "libc" true

/-- The second function is registered for the library that exports it. -/
theorem process_functions_sync :
    withLibc.Reached ∧ withLibc.filters = .none ∧ withLibc.registry.suppressed = [] ∧
    ∃ l', process [functionHeader [statDecl, syncDecl]] withLibc = .ok ⟨⟩ l' ∧
      (l'.registry.kindOf? "sync") = some .functionDef ∧
      match withLibc.exports.get? syncDecl.name with
      | none => syncDecl.name ∈ l'.unresolved
      | some e => ∃ before after d,
          sightings [functionHeader [statDecl, syncDecl]] withLibc =
            before ++ .function syncDecl e :: after ∧
          l'.registry.find? syncDecl.name = some d ∧
          d.kind = ((withLibc.registry.kindOf? syncDecl.name).or
            ((firstNamed syncDecl.name before).map Sighting.kind)).getD .functionDef ∧
          ∀ f, d = .functionDef f →
            f.library = e.library ∧ f.libraryIsConst = e.libraryIsConst := by
  have h : withLibc.Reached := .addExports .new _ _ _
  obtain ⟨l', hrun, hkind⟩ : ∃ l', process [functionHeader [statDecl, syncDecl]] withLibc =
      .ok ⟨⟩ l' ∧ l'.registry.kindOf? "sync" = some .functionDef := ⟨_, rfl, rfl⟩
  exact ⟨h, rfl, rfl, l', hrun, hkind, h.process_functions rfl rfl hrun
    (List.mem_singleton_self _) rfl (List.mem_cons_of_mem _ (List.mem_singleton_self _)) rfl⟩

/-- The first function is exported and neither noted as unresolved nor registered as a function: the
record that it takes has its name. -/
theorem not_functionDef_stat : ∃ l',
    withLibc.Reached ∧ withLibc.filters = .none ∧ withLibc.registry.suppressed = [] ∧
    process [functionHeader [statDecl, syncDecl]] withLibc = .ok ⟨⟩ l' ∧
    statDecl.isInline = false ∧ statDecl.name ∉ l'.unresolved ∧
    l'.registry.kindOf? statDecl.name = some .structDef :=
  ⟨_, .addExports .new _ _ _, rfl, rfl, rfl, rfl, nofun, rfl⟩

end Lowerer

end Bindery
