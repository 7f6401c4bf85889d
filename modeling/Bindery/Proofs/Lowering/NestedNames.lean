import Bindery.Proofs.Lowering.Runs

/-!
# Names of nested types

A nameless record, enum or function type takes a name that is put together from the owner and the
member that has the type: `record_Field` for a field and `owner_param`, or `owner_p0` where the
parameter has no name, for a parameter. The reference of the member goes by that name, whatever has
it: what is found there is made by the first declaration that was seen under the name, which need
not be the member's own. So members share a definition just when the same name is derived for them
(`process_nestedNames`), and `f(void (*p1)(int), void (*)(float))` has one callback.
-/

namespace Bindery

open Registry

/-- The type is a record, an enum or a function type without a name, or points to one. -/
def CType.isNameless : CType → Bool
  | record decl => decl.name.isNone
  | enum decl => decl.name.isNone
  | function _ => true
  | pointer pointee _ => pointee.isNameless
  | _ => false

/-- The name that is derived for the type of a field. -/
def fieldHint (record : String) (decl : FieldDecl) : String :=
  record ++ "_" ++ Identifier.camel decl.name

/-- Those fields that are no bit-fields are, in order, the declared ones, and a field of nameless
type refers to what has the name that is derived for it. -/
def Registry.FieldsFollow (r : Registry) (record : String) (decls : List FieldDecl)
    (fields : List Field) : Prop :=
  ∃ plain : List Field, plain.Sublist fields ∧
    List.Forall₂ (fun decl field => field.name = decl.name ∧ (decl.ty.isNameless = true →
      field.ty.base = fieldHint record decl ∧ (r.find? (fieldHint record decl)).isSome = true))
      (decls.filter (·.bitWidth.isNone)) plain

/-- The parameters are the declared ones, from number `i` on, and a parameter of nameless type
refers to what has the name that is derived for it, unless that is a fixed array and decays. -/
def Registry.ParamsFollow (r : Registry) (owner : String) (i : Nat) (decls : List ParamDecl)
    (params : List Param) : Prop :=
  List.Forall₂ (fun (decl, j) param => param.name = (paramName owner j decl.name).1 ∧
    (decl.ty.isNameless = true →
      (param.ty.base = (paramName owner j decl.name).2 ∨
        r.kindOf? (paramName owner j decl.name).2 = some .fixedArray) ∧
      (r.find? (paramName owner j decl.name).2).isSome = true)) (decls.zipIdx i) params

/-! ### When names coincide -/

theorem fieldHint_eq_iff {record : String} {a b : FieldDecl} :
    fieldHint record a = fieldHint record b ↔
      Identifier.camel a.name = Identifier.camel b.name := by
  simp [fieldHint]

theorem paramName_snd (owner : String) (i : Nat) (name : String) :
    (paramName owner i name).2 = owner ++ "_" ++ (paramName owner i name).1 := by
  unfold paramName
  split
  · show owner ++ ("_" ++ "p") ++ toString i = owner ++ "_" ++ ("p" ++ toString i)
    simp only [String.append_assoc]
  · rfl

theorem paramName_eq_iff {owner : String} {i j : Nat} {a b : String} :
    (paramName owner i a).2 = (paramName owner j b).2 ↔
      (paramName owner i a).1 = (paramName owner j b).1 := by
  rw [paramName_snd, paramName_snd]
  simp

/-! ### Where references go -/

variable {s t u : Registry} {n : String}

theorem declaredName?_of_isNone {tag : Option String} (hn : n ≠ "") (htag : tag.isNone = true) :
    declaredName? tag (some n) = some n := by
  cases tag with
  | none => simp [declaredName?, Option.filter, hn]
  | some _ => cases htag

/-- A delegate that has the name of the hint already is found under it. -/
theorem of_delegate?_eq_some (h : s.WellTyped) {known : TypeRef}
    (hk : (some n).bind s.delegate? = some known) : known.base = n ∧ s.Taken n := by
  simp only [Option.bind_some, delegate?] at hk
  split at hk
  · next hkind =>
    cases hk
    obtain ⟨id, d, hd, rfl, -⟩ := (kindOf?_eq_some_iff h.consistent).mp hkind
    exact ⟨rfl, .inl (by rw [h.consistent.find?_name hd]; rfl)⟩
  · cases hk

theorem leads_named_some (h : s.WellTyped) (kind : NamelessKind) (hn : s.Taken n) :
    (named kind (some n)).Leads s fun ref t => ref.base = n ∧ t.Taken n :=
  .pure h ⟨rfl, hn⟩

/-- A nameless type refers to what has the name that it takes. -/
theorem leads_nameless (hn : n ≠ "") (inStruct : Bool) : ∀ (ty : CType), ty.isNameless = true →
    ∀ {s : Registry}, s.WellTyped →
    (resolve .none (some n) inStruct ty).Leads s fun ref t => ref.base = n ∧ t.Taken n
  | .record decl, hty, s, h => by
    rw [resolve]
    refine leads_resolveFirst (fun _ => of_delegate?_eq_some h) h <|
      .bind (leads_makeStruct decl (some n) h) fun name t hst hname => ?_
    obtain ⟨rfl, hdecl⟩ := hname
    rw [declaredName?_of_isNone hn hty] at hdecl ⊢
    exact leads_named_some hst.wellTyped _ (hdecl n rfl).taken
  | .enum decl, hty, s, h => by
    rw [resolve]
    refine leads_resolveFirst (fun _ => of_delegate?_eq_some h) h <|
      .bind (leads_makeEnum h (some n) decl) fun name t hst hname => ?_
    obtain ⟨rfl, htaken⟩ := hname
    rw [declaredName?_of_isNone hn hty] at htaken ⊢
    exact leads_named_some hst.wellTyped _ (htaken n rfl)
  | .function ty, _, s, h => by
    rw [resolve]
    exact leads_resolveFirst (fun _ => of_delegate?_eq_some h) h <|
      (leads_makeDelegate ty n inStruct h).mono fun ref t _ hr => ⟨hr.1 ▸ rfl, hr.2⟩
  | .pointer pointee c, hty, s, h => by
    rw [resolve]
    refine leads_resolveFirst (fun _ => of_delegate?_eq_some h) h <|
      .bind (leads_nameless hn inStruct pointee hty h) fun ref t hst hr => .get_bind ?_
    split
    · exact .pure hst.wellTyped hr
    · exact .pure hst.wellTyped hr

/-- What is taken is found in the end where nothing is refused. -/
theorem Registry.Taken.found (h : t.Taken n) (ht : t.WellTyped) (htu : t.Advances u)
    (hu : u.suppressed = []) : (u.find? n).isSome = true := by
  have hfree : u.isSuppressed n = false := by rw [isSuppressed, hu]; rfl
  obtain ⟨d, hd⟩ := (h.advance ht htu).find? hfree
  rw [hd]
  rfl

theorem Registry.decay_cases (r : Registry) (ty : TypeRef) :
    r.decay ty = ty ∨ r.kindOf? ty.base = some .fixedArray := by
  unfold Registry.decay
  split
  · split
    · next a ha =>
      obtain ⟨d, hf, ha⟩ := Option.bind_eq_some_iff.mp ha
      cases d <;> cases ha
      exact .inr (by rw [kindOf?, hf]; rfl)
    · exact .inl rfl
  · exact .inl rfl

theorem append_underscore_ne_empty (a b : String) : a ++ "_" ++ b ≠ "" := by
  intro h
  have := congrArg String.length h
  simp [String.length_append] at this

theorem fieldHint_ne_empty (record : String) (decl : FieldDecl) : fieldHint record decl ≠ "" :=
  append_underscore_ne_empty record _

theorem paramName_ne_empty (owner : String) (i : Nat) (name : String) :
    (paramName owner i name).2 ≠ "" := by
  rw [paramName_snd]
  exact append_underscore_ne_empty owner _

theorem fieldsFollow_of_lowerFields {record : String} {decls : List FieldDecl}
    (hu : u.suppressed = []) : ∀ {run : BitFieldRun} {s t : Registry} {fields : List Field},
    s.WellTyped → lowerFields .none record run decls s = .ok fields t → t.Advances u →
    u.FieldsFollow record decls fields := by
  induction decls with
  | nil => exact fun _ _ _ => ⟨[], List.nil_sublist _, .nil⟩
  | cons decl decls ih =>
    intro run s t fields hs hrun htu
    obtain ⟨name, ty, bitWidth, doc, deprecation⟩ := decl
    cases bitWidth with
    | some width =>
      -- it only waits for the member that it shares
      rw [lowerFields] at hrun
      exact ih hs hrun htu
    | none =>
      rw [lowerFields] at hrun
      obtain ⟨packed, s₁, hpacked, hrun⟩ := of_bind_eq_ok hrun
      obtain ⟨ref, s₂, href, hrun⟩ := of_bind_eq_ok hrun
      obtain ⟨rest, s₃, hrest, hrun⟩ := of_bind_eq_ok hrun
      cases hrun
      have h₁ := ((leads_flush hs run record).of_ok hpacked).1
      have h₂ := ((leads_resolve ty _ true h₁.wellTyped).of_ok href).1
      have h₃ := ((leads_lowerFields decls record .empty h₂.wellTyped).of_ok hrest).1
      obtain ⟨plain, hsub, hall⟩ := ih h₂.wellTyped hrest htu
      refine ⟨{ Field.ofType name ref with doc, deprecation } :: plain,
        (hsub.cons_cons _).trans (List.sublist_append_right _ _), .cons ⟨rfl, fun hty => ?_⟩ hall⟩
      have hne := fieldHint_ne_empty record ⟨name, ty, none, doc, deprecation⟩
      obtain ⟨hbase, htaken⟩ := ((leads_nameless hne true ty hty h₁.wellTyped).of_ok href).2
      exact ⟨hbase, htaken.found h₂.wellTyped (h₃.trans htu) hu⟩

theorem paramsFollow_of_lowerParams {owner : String} {decls : List ParamDecl}
    (hu : u.suppressed = []) : ∀ {i : Nat} {s t : Registry} {params : List Param},
    s.WellTyped → lowerParams .none owner i decls s = .ok params t → t.Advances u →
    u.ParamsFollow owner i decls params := by
  induction decls with
  | nil =>
    intro i s t params _ hrun _
    rw [lowerParams] at hrun
    cases hrun
    exact .nil
  | cons decl decls ih =>
    intro i s t params hs hrun htu
    obtain ⟨name, ty, doc⟩ := decl
    have hne := paramName_ne_empty owner i name
    rw [lowerParams] at hrun
    generalize hp : paramName owner i name = p at hrun hne
    obtain ⟨pname, hint⟩ := p
    dsimp only at hrun
    obtain ⟨ref, s₁, href, hrun⟩ := of_bind_eq_ok hrun
    obtain ⟨_, _, hdecayed, hrun⟩ := of_bind_eq_ok hrun
    cases hdecayed
    obtain ⟨rest, s₂, hrest, hrun⟩ := of_bind_eq_ok hrun
    cases hrun
    have h₁ := ((leads_resolve ty _ false hs).of_ok href).1
    have h₂ := ((leads_lowerParams decls owner (i + 1) h₁.wellTyped).of_ok hrest).1
    refine .cons ⟨by rw [hp]; rfl, fun hty => ?_⟩ (ih h₁.wellTyped hrest htu)
    obtain ⟨hbase, htaken⟩ := ((leads_nameless hne false ty hty hs).of_ok href).2
    rw [hp]
    refine ⟨?_, htaken.found h₁.wellTyped (h₂.trans htu) hu⟩
    rcases decay_cases s₁ ref with hd | hk
    · exact .inl ((congrArg TypeRef.base hd).trans hbase)
    · rw [hbase] at hk
      exact .inr ((h₂.trans htu).grows.kindOf? h₁.wellTyped.consistent htu.wellTyped.consistent hk)

theorem Signature.LoweredFrom.paramsFollow {owner : String} {returnType : CType}
    {params : List ParamDecl} {callConv : CallConv} {sig : Signature} (hu : t.suppressed = [])
    (h : sig.LoweredFrom owner returnType params callConv s t) :
    t.ParamsFollow owner 0 params sig.params := by
  obtain ⟨u, v, w, hsu, hret, hparams, hwt⟩ := h.types
  have hv := ((leads_resolveInSignature hsu.wellTyped none returnType).of_ok hret).1.wellTyped
  exact paramsFollow_of_lowerParams hu hv hparams hwt

namespace Lowerer

variable {l l' : Lowerer} {headers : List Header}

/-- **What a definition is made from, and where its members lead.** When a lowerer that has no
definitions yet has processed headers, every definition is made by the first declaration that was
seen under its name, a complete struct by the first complete record. Its members of nameless type
refer to the definitions that have the names derived for them, so two members share a definition
just when these names are equal: for two fields of one record, when the camel-cased names are, and
for two parameters of one owner, when the names are that they have or are given. -/
theorem process_nestedNames (hl : l.registry = .empty) (ho : l.override = .none)
    (hrun : process headers l = .ok ⟨⟩ l') :
    (∀ n d, l'.registry.find? n = some d → d.name = n ∧
      (∃ e, firstNamed n (sightings headers l) = some e ∧ e.Makes l.registry l'.registry d) ∧
      match d with
      | .structDef sd => sd.complete = true → ∃ decl decls,
          firstBody n (sightings headers l) = some decl ∧ decl.fields = some decls ∧
          decl.Fills n l.registry l'.registry sd ∧ l'.registry.FieldsFollow n decls sd.fields
      | .delegateDef dd => ∃ ty embedded,
          firstNamed n (sightings headers l) = some (.callback n ty embedded) ∧
          l'.registry.ParamsFollow n 0 ty.params dd.signature.params
      | .functionDef fd => ∃ decl e,
          firstNamed n (sightings headers l) = some (.function decl e) ∧
          l'.registry.ParamsFollow n 0 decl.params fd.signature.params
      | _ => True) ∧
    (∀ record a b, fieldHint record a = fieldHint record b ↔
      Identifier.camel a.name = Identifier.camel b.name) ∧
    ∀ owner i j a b, (paramName owner i a).2 = (paramName owner j b).2 ↔
      (paramName owner i a).1 = (paramName owner j b).1 := by
  have hready : l.Ready := ⟨⟨ho, hl ▸ .empty⟩, hl ▸ .empty _⟩
  obtain ⟨hcarries, haccounts⟩ := (logs_process headers hready).of_ok hrun
  have hwell := hcarries.registry.advances.wellTyped
  have hfree : l'.registry.suppressed = [] := by
    rw [hcarries.registry.advances.grows.suppressed, hl]
    rfl
  have hnew : ∀ n, l.registry.find? n = none := fun n => by rw [hl, find?_empty]
  refine ⟨fun n d hd => ?_, fun _ _ _ => fieldHint_eq_iff, fun _ _ _ _ _ => paramName_eq_iff⟩
  obtain ⟨e, he, hm⟩ := haccounts.made (hnew n) hd
  have hname : d.name = n := by
    obtain ⟨id, -, hn⟩ := hwell.consistent.find?_eq_some_iff.mp hd
    exact hn
  refine ⟨hname, ⟨e, he, hm⟩, ?_⟩
  cases d with
  | structDef sd =>
    intro hc
    rcases haccounts.filled hd hc with hold | ⟨-, decl, hb, hfill⟩
    · -- there was nothing before
      rw [hnew] at hold
      cases hold
    · obtain ⟨decls, u, v, -, hdecls, hsu, -, -, -, hlower, hvt⟩ := hfill.fields
      exact ⟨decl, decls, hb, hdecls, hfill,
        fieldsFollow_of_lowerFields hfree hsu.wellTyped hlower hvt⟩
  | delegateDef dd =>
    cases e with
    | callback name ty embedded =>
      obtain ⟨sig, hsig, hlowered⟩ := hm
      cases hsig
      obtain rfl : name = n := (firstNamed_eq_some he).2
      exact ⟨ty, embedded, he, hlowered.paramsFollow hfree⟩
    | _ => cases hm.kind_eq
  | functionDef fd =>
    cases e with
    | function decl e =>
      obtain ⟨sig, hsig, hlowered⟩ := hm
      cases hsig
      obtain rfl : decl.name = n := (firstNamed_eq_some he).2
      exact ⟨decl, e, he, hlowered.paramsFollow hfree⟩
    | _ => cases hm.kind_eq
  | _ => trivial

/-- A function that takes a callback, a pointer to a nameless record of one bit-field and a callback
that has no name either. -/
def connectDecl : FunctionDecl :=
  let options : RecordDecl :=
    ⟨none, some [⟨"fast", .builtin .int, some 1, .none, none⟩], false, .none⟩
  let callback (b : Builtin) : CType :=
    .pointer (.function ⟨.builtin .void, [⟨"code", .builtin b, .none⟩], .c⟩) false
  ⟨"connect", .builtin .void, [⟨"done", callback .int, .none⟩,
    ⟨"options", .pointer (.record options) false, .none⟩, ⟨"", callback .float, .none⟩], .c, false,
    none, .none⟩

def connectHeader : Header := ⟨"net.h", false, [], [], [], [], [connectDecl]⟩

/-- The lowerer that knows the exports of one library and has no definitions. -/
def withConnect : Lowerer := new.addExports ["connect"] "net" true

/-- The three types have names of their own, and the record has what its declaration gives it. -/
theorem process_nestedNames_connect :
    withConnect.registry = .empty ∧ withConnect.override = .none ∧ ∃ l' fd sd,
      process [connectHeader] withConnect = .ok ⟨⟩ l' ∧
      l'.registry.find? "connect" = some (.functionDef fd) ∧
      fd.signature.params.map (fun param => (param.name, param.ty.base)) =
        [("done", "connect_done"), ("options", "connect_options"), ("p2", "connect_p2")] ∧
      (∃ decl e,
        firstNamed "connect" (sightings [connectHeader] withConnect) = some (.function decl e) ∧
        l'.registry.ParamsFollow "connect" 0 decl.params fd.signature.params) ∧
      l'.registry.find? "connect_options" = some (.structDef sd) ∧ sd.complete = true ∧
      (∃ decl decls,
        firstBody "connect_options" (sightings [connectHeader] withConnect) = some decl ∧
        decl.fields = some decls ∧
        decl.Fills "connect_options" withConnect.registry l'.registry sd ∧
        l'.registry.FieldsFollow "connect_options" decls sd.fields) ∧
      ((paramName "connect" 0 "p2").2 = (paramName "connect" 2 "").2 ↔
        (paramName "connect" 0 "p2").1 = (paramName "connect" 2 "").1) := by
  obtain ⟨l', fd, sd, hrun, hfind, hparams, hoptions, hc⟩ : ∃ l' fd sd,
      process [connectHeader] withConnect = .ok ⟨⟩ l' ∧
      l'.registry.find? "connect" = some (.functionDef fd) ∧
      fd.signature.params.map (fun param => (param.name, param.ty.base)) =
        [("done", "connect_done"), ("options", "connect_options"), ("p2", "connect_p2")] ∧
      l'.registry.find? "connect_options" = some (.structDef sd) ∧ sd.complete = true :=
    ⟨_, _, _, rfl, rfl, rfl, rfl, rfl⟩
  obtain ⟨hunits, -, hnames⟩ := process_nestedNames rfl rfl hrun
  obtain ⟨-, -, hmembers⟩ := hunits "connect" _ hfind
  obtain ⟨-, -, hfilled⟩ := hunits "connect_options" _ hoptions
  exact ⟨rfl, rfl, l', fd, sd, hrun, hfind, hparams, hmembers, hoptions, hc, hfilled hc,
    hnames _ _ _ _ _⟩

/-- A function with a parameter called `p1` and one that is given that name, both of them callbacks:
the first takes an `int` and the second a `float`. -/
def twoCallbacks : FunctionDecl :=
  let callback (b : Builtin) : CType :=
    .pointer (.function ⟨.builtin .void, [⟨"x", .builtin b, .none⟩], .c⟩) false
  ⟨"f", .builtin .void, [⟨"p1", callback .int, .none⟩, ⟨"", callback .float, .none⟩], .c, false,
    none, .none⟩

/-- Both parameters refer to one callback, which takes an `int`. -/
theorem not_distinct_twoCallbacks : ∃ l',
    process [⟨"f.h", false, [], [], [], [], [twoCallbacks]⟩] (new.addExports ["f"] "native" true) =
      .ok ⟨⟩ l' ∧
    l'.registry.definitions.map (fun d => (d.name, d.typeRefs.map TypeRef.base)) =
      [("f_p1", ["void", "int"]), ("f", ["void", "f_p1", "f_p1"])] :=
  ⟨_, rfl, rfl⟩

end Lowerer

end Bindery
