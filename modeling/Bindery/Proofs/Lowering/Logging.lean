import Bindery.Proofs.Lowering.Accounts
import Bindery.Proofs.Lowering.Advance

/-!
# The sightings of a run

`Logs` is said of lowering steps with a list of sightings: whatever was registered is kept, whether
the step answers or fails, and after an answer the sightings account for the registry. The main
statements are on the mutual recursion of `resolve`: the sightings of a type are what its resolution
logs (`logs_resolve`).
-/

namespace Bindery

open Registry

/-! ### One operation -/

namespace Registry

variable {x : ExportMap} {s t : Registry} {d : Definition} {e : Sighting} {n : String}

theorem Carries.of_find?_eq (ha : s.Advances t) (hf : ∀ n, t.find? n = s.find? n) : s.Carries x t :=
  ⟨⟨ha, fun {n d} hd => ⟨d, by rw [hf, hd], .refl d⟩⟩, fun hs n d hd => hs n d (by rw [← hf, hd])⟩

/-- Nothing new has to be accounted for. -/
theorem Accounts.of_find?_eq {log : List Sighting} (hf : ∀ n, t.find? n = s.find? n)
    (hseen : ∀ e ∈ log, t.Declared e.name e.isComplete) : s.Accounts log t := by
  refine ⟨hseen, fun {n d} hn hd => ?_, fun {n d} hd _ => .inl (by rwa [← hf])⟩
  rw [← hf, hd] at hn
  cases hn

theorem Accounts.refl : s.Accounts [] s := .of_find?_eq (fun _ => rfl) (List.forall_mem_nil _)

/-- `t` finds what `s` does, and `d` where its name was free. -/
def Inserts (s : Registry) (d : Definition) (t : Registry) : Prop :=
  ∀ n, t.find? n =
    (s.find? n).or (if n = d.name ∧ s.isSuppressed n = false then some d else none)

namespace Inserts

/-- What is found afterwards was found before, or it is the new definition. -/
theorem find?_cases (h : s.Inserts d t) {d' : Definition} (hd : t.find? n = some d') :
    s.find? n = some d' ∨ (s.find? n = none ∧ n = d.name ∧ d' = d) := by
  rw [h] at hd
  cases hs : s.find? n with
  | some d₀ => exact .inl (by rwa [hs] at hd)
  | none =>
    rw [hs, Option.none_or] at hd
    split at hd
    · next hn => cases hd; exact .inr ⟨rfl, hn.1, rfl⟩
    · cases hd

theorem keeps (h : s.Inserts d t) (ha : s.Advances t) : s.Keeps t :=
  ⟨ha, fun {n d'} hs => ⟨d', by rw [h, hs]; rfl, .refl d'⟩⟩

theorem carries (h : s.Inserts d t) (ha : s.Advances t) (hd : d.Settled x) : s.Carries x t := by
  refine ⟨h.keeps ha, fun hset n d' ht => ?_⟩
  rcases h.find?_cases ht with hs | ⟨-, -, rfl⟩
  · exact hset n d' hs
  · exact hd

theorem taken (h : s.Inserts d t) (ha : s.Advances t) : t.Taken d.name := by
  cases hs : s.isSuppressed d.name with
  | true => exact .inr (by rwa [ha.grows.isSuppressed])
  | false =>
    refine .inl ?_
    rw [h, if_pos ⟨rfl, hs⟩]
    simp

/-- A sighting accounts for the definition that is registered for it after all others. -/
theorem accounts_after {r : Registry} {log : List Sighting} (h : s.Inserts d t)
    (hr : r.WellTyped) (hs : s.WellTyped) (hlog : r.Accounts log s) (ha : s.Advances t)
    (hn : e.name = d.name) (hm : e.Makes r t d)
    (hc : ∀ d', d = .structDef d' → d'.complete = false)
    (hseen : t.Declared e.name e.isComplete) : r.Accounts (log ++ [e]) t := by
  refine ⟨fun e' he => ?_, fun {n d'} hr' ht => ?_, fun {n d'} ht hcomplete => ?_⟩
  · rcases List.mem_append.mp he with he | he
    · exact (hlog.seen e' he).grow ha.grows hs.consistent ha.wellTyped.consistent
    · rwa [List.mem_singleton.mp he]
  · rw [firstNamed_append]
    rcases h.find?_cases ht with hf | ⟨hf, rfl, rfl⟩
    · obtain ⟨e', he', hm'⟩ := hlog.made hr' hf
      rw [he']
      exact ⟨e', rfl, hm'.widen (.refl hr) ha⟩
    · have hnone : firstNamed d'.name log = none :=
        hlog.firstNamed_eq_none ha hf ht
      rw [hnone]
      exact ⟨e, by simp [firstNamed, hn], hm⟩
  · rw [firstBody_append]
    rcases h.find?_cases ht with hf | ⟨-, -, rfl⟩
    · rcases hlog.filled hf hcomplete with hr' | ⟨ha', decl, hb, hfill⟩
      · exact .inl hr'
      · rw [hb]
        exact .inr ⟨ha', decl, rfl, hfill.widen (.refl hr) ha⟩
    · rw [hc d' rfl] at hcomplete
      cases hcomplete

/-- A sighting accounts for the definition that is registered for it. -/
theorem accounts (h : s.Inserts d t) (hs : s.WellTyped) (ha : s.Advances t) (hn : e.name = d.name)
    (hm : e.Makes s t d) (hc : ∀ d', d = .structDef d' → d'.complete = false)
    (hseen : t.Declared e.name e.isComplete) : s.Accounts [e] t :=
  h.accounts_after hs hs .refl ha hn hm hc hseen

end Inserts

end Registry

/-! ### The rules of `Logs` -/

variable {α β : Type} {x : ExportMap} {r s t : Registry} {m : LowerM α} {f : α → LowerM β}
  {log L : List Sighting} {K : α → Registry → List Sighting} {id : DefId} {d : Definition}
  {e : Sighting} {n name : String} {ty : TypeRef}

/-- Started in `s` the step keeps what is there, and if it answers the log accounts for what it has
registered. -/
def LowerM.Logs (x : ExportMap) (m : LowerM α) (s : Registry) (log : List Sighting) : Prop :=
  match m s with
  | .ok _ t => s.Carries x t ∧ s.Accounts log t
  | .error _ t => s.Carries x t

namespace LowerM.Logs

theorem of_ok (h : m.Logs x s log) {a : α} (hm : m s = .ok a t) :
    s.Carries x t ∧ s.Accounts log t := by
  rw [Logs, hm] at h
  exact h

theorem of_error (h : m.Logs x s log) {e : LowerError} (hm : m s = .error e t) : s.Carries x t := by
  rw [Logs, hm] at h
  exact h

theorem pure (h : s.WellTyped) (a : α) : Logs x (Pure.pure a) s [] := ⟨.refl h, .refl⟩

theorem throw (h : s.WellTyped) (e : LowerError) :
    Logs x (MonadExcept.throw e : LowerM α) s log := Carries.refl h

theorem of_eq {a : α} (hm : m s = .ok a t) (hk : s.Carries x t) (ha : s.Accounts log t) :
    m.Logs x s log := by
  rw [Logs, hm]
  exact ⟨hk, ha⟩

theorem get_bind {g : Registry → LowerM α} (h : (g s).Logs x s log) : Logs x (get >>= g) s log :=
  h

theorem bind (h : s.WellTyped) (hm : m.Logs x s L)
    (hf : ∀ a t, m s = .ok a t → t.WellTyped → (f a).Logs x t (K a t)) :
    (m >>= f).Logs x s (L ++ following m s K) := by
  unfold Logs
  cases hs : m s with
  | error e t => rw [bind_error hs]; exact hm.of_error hs
  | ok a t =>
    obtain ⟨hst, hL⟩ := hm.of_ok hs
    have hfa := hf a t hs hst.advances.wellTyped
    rw [bind_ok hs, following_ok hs]
    cases ht : f a t with
    | error e u => exact hst.trans (hfa.of_error ht)
    | ok b u =>
      obtain ⟨htu, hK⟩ := hfa.of_ok ht
      exact ⟨hst.trans htu, hL.trans h hst.toKeeps htu.toKeeps hK⟩

/-- A step that only looks goes before the log. -/
theorem after_quiet (h : s.WellTyped) (hm : m.Logs x s [])
    (hf : ∀ a t, m s = .ok a t → t.WellTyped → (f a).Logs x t (K a t)) :
    (m >>= f).Logs x s (following m s K) := hm.bind h hf

/-- A step that only looks goes after the log. -/
theorem before_quiet (h : s.WellTyped) (hm : m.Logs x s L)
    (hf : ∀ a t, m s = .ok a t → t.WellTyped → (f a).Logs x t []) : (m >>= f).Logs x s L := by
  have := hm.bind (K := fun _ _ => []) h hf
  rwa [following_nil, List.append_nil] at this

/-- A step that registers nothing. -/
theorem quiet {a : α} (hm : m s = .ok a t) (hst : s.Advances t)
    (hf : ∀ n, t.find? n = s.find? n) : m.Logs x s [] :=
  of_eq hm (.of_find?_eq hst hf) (.of_find?_eq hf (List.forall_mem_nil _))

theorem mention (h : s.WellTyped) (name : String) : (LowerM.mention name).Logs x s [] :=
  quiet rfl (.mention h name) fun _ => rfl

theorem primitive (h : s.WellTyped) (p : Primitive) : (LowerM.primitive p).Logs x s [] :=
  quiet rfl (.mention h _) fun _ => rfl

/-- To mention a name goes before the log. -/
theorem mention_bind (h : s.WellTyped) (name : String) {f : PUnit → LowerM β}
    (hf : (f ⟨⟩).Logs x (s.mention name) log) : (LowerM.mention name >>= f).Logs x s log := by
  refine (mention h name).after_quiet (K := fun _ _ => log) h fun a t ht _ => ?_
  cases ht
  exact hf

end LowerM.Logs

/-! ### The steps of resolution -/

theorem logs_decayed (h : s.WellTyped) (ty : TypeRef) : (decayed ty).Logs x s [] :=
  .get_bind (.pure h _)

theorem logs_flush (h : s.WellTyped) (run : BitFieldRun) (record : String) :
    (run.flush record).Logs x s [] := by
  unfold BitFieldRun.flush
  split
  · exact .pure h _
  split
  · exact .throw h _
  · exact (LowerM.Logs.primitive h _).before_quiet h fun _ _ _ ht => .pure ht _

theorem logs_named (h : s.WellTyped) (kind : NamelessKind) (name : Option String) :
    (named kind name).Logs x s [] := by
  cases name with
  | none => exact .throw h _
  | some n => exact .pure h _

theorem logs_pointerTo (h : s.WellTyped) (pointeeConst : Bool) (ty : TypeRef) :
    (pointerTo pointeeConst ty).Logs x s [] := by
  refine .get_bind ?_
  split
  · exact .pure h _
  · exact .pure h _

theorem logs_fixedArrayOf (h : s.WellTyped) (length : Nat) {element : TypeRef}
    (he : s.Stands element.base) :
    (fixedArrayOf length element).Logs x s [.array element length] := by
  obtain ⟨t, ht, ha, hf⟩ := fixedArrayOf_eq_ok h length he
  have hi : s.Inserts (.fixedArray (s.newArray element length)) t := hf
  exact .of_eq ht (hi.carries ha trivial) <|
    hi.accounts h ha rfl ⟨_, rfl⟩ nofun (.of_taken (hi.taken ha))

theorem logs_makeEnum (h : s.WellTyped) (fallback : Option String) (decl : EnumDecl) :
    (makeEnum fallback decl).Logs x s (enumSightings fallback decl) := by
  unfold makeEnum enumSightings
  split
  · next hn => rw [hn]; exact .pure h _
  · next name hn =>
    rw [hn]
    have ht := (Advances.mention h name).wellTyped
    refine .mention_bind h name (.get_bind ?_)
    split
    · next hl =>
      have htaken : (s.mention name).Taken name := by
        rw [Bool.or_eq_true] at hl
        exact hl.elim (.of_lookup? ht.consistent) .inr
      refine .of_eq rfl (.refl ht) (.of_find?_eq (fun _ => rfl) fun e he => ?_)
      rw [List.mem_singleton.mp he]
      exact .of_taken htaken
    split
    · exact .throw ht _
    · next underlying hu =>
      have ha : (s.mention name).Advances
          ((s.mention name).insert (.enumDef (.ofDecl name underlying decl))).2 :=
        .insert ht (admits_enumDef _ _)
      have hi : (s.mention name).Inserts (.enumDef (.ofDecl name underlying decl))
          ((s.mention name).insert (.enumDef (.ofDecl name underlying decl))).2 :=
        ht.consistent.find?_insert _
      exact .of_eq rfl (hi.carries ha trivial) <|
        hi.accounts ht ha rfl ⟨underlying, hu, rfl⟩ (fun _ he => by cases he)
          (.of_taken (hi.taken ha))

theorem logs_resolveFirst {hint : Option String} {ctype : CType} {rules : LowerM TypeRef}
    (h : s.WellTyped) (hr : rules.Logs x s log) :
    (resolveFirst .none hint ctype rules).Logs x s
      (if (hint.bind s.delegate?).isSome then [] else log) := by
  unfold LowerM.Logs
  cases hd : hint.bind s.delegate? with
  | some known =>
    rw [resolveFirst_known hd]
    exact ⟨.refl h, .refl⟩
  | none =>
    rw [resolveFirst_eq hd]
    exact hr

/-! ### A signature and what is registered with it -/

theorem logs_resolveInSignature {hint : Option String} {ctype : CType} (h : s.WellTyped)
    (hr : (resolve .none hint false ctype).Logs x s log) :
    (resolveInSignature .none hint ctype).Logs x s log :=
  hr.before_quiet h fun ref _ _ ht => logs_decayed ht ref

theorem leads_resolveInSignature (h : s.WellTyped) (hint : Option String) (ctype : CType) :
    (resolveInSignature .none hint ctype).Leads s fun ref t => t.Suits ref :=
  .bind (leads_resolve ctype hint false h) fun _ _ hst hr => leads_decayed hst.wellTyped hr

theorem suits_of_signature {owner : String} {returnType : CType} {params : List ParamDecl}
    {ret : TypeRef} {ps : List Param} (h : s.WellTyped)
    (hr : resolveInSignature .none none returnType s = .ok ret t)
    (hp : lowerParams .none owner 0 params t = .ok ps r) :
    ∀ ty ∈ ret :: ps.map Param.ty, r.Suits ty := by
  obtain ⟨hst, hret⟩ := (leads_resolveInSignature h none returnType).of_ok hr
  obtain ⟨htr, hps⟩ := (leads_lowerParams params owner 0 hst.wellTyped).of_ok hp
  exact suits_signature (hret.advance hst.wellTyped htr) hps

/-- What is registered with a signature is seen after all that the signature shows. -/
theorem logs_signature {owner : String} {returnType : CType} {params : List ParamDecl}
    (callConv : CallConv) {k : TypeRef → List Param → LowerM α} {d : Signature → Definition}
    (h : s.WellTyped)
    (hret : (resolveInSignature .none none returnType).Logs x s (sightings none false returnType s))
    (hparams : ∀ {t}, t.WellTyped →
      (lowerParams .none owner 0 params).Logs x t (paramSightings owner 0 params t))
    (hk : ∀ ret ps t, t.WellTyped → (∀ ty ∈ ret :: ps.map Param.ty, t.Suits ty) →
      ∃ a u, k ret ps t = .ok a u ∧ t.Advances u ∧
        t.Inserts (d ⟨ret, ps, callConv.toHost, []⟩) u)
    (hd : ∀ sig, (d sig).name = e.name ∧ (d sig).kind = e.kind ∧ (d sig).Settled x)
    (he : e.kind ≠ .structDef)
    (hm : ∀ sig t, sig.LoweredFrom owner returnType params callConv s t → e.Makes s t (d sig)) :
    LowerM.Logs x (do
      let ret ← resolveInSignature .none none returnType
      let ps ← lowerParams .none owner 0 params
      k ret ps) s (signatureSightings owner returnType params s ++ [e]) := by
  unfold LowerM.Logs
  cases hr : resolveInSignature .none none returnType s with
  | error err t => rw [bind_error hr]; exact hret.of_error hr
  | ok ret t =>
    obtain ⟨hst, hlog⟩ := hret.of_ok hr
    have ht := hst.advances.wellTyped
    rw [bind_ok hr]
    cases hp : lowerParams .none owner 0 params t with
    | error err u => rw [bind_error hp]; exact hst.trans ((hparams ht).of_error hp)
    | ok ps u =>
      obtain ⟨htu, hlog'⟩ := (hparams ht).of_ok hp
      have hu := htu.advances.wellTyped
      obtain ⟨a, v, hv, huv, hi⟩ := hk ret ps u hu (suits_of_signature h hr hp)
      obtain ⟨hname, hkind, hset⟩ := hd ⟨ret, ps, callConv.toHost, []⟩
      have hsig : Signature.LoweredFrom owner returnType params callConv s v
          ⟨ret, ps, callConv.toHost, []⟩ := ⟨⟨s, t, u, .refl h, hr, hp, huv⟩, rfl, rfl⟩
      have hsu := hst.trans htu
      have hlogs : s.Accounts (signatureSightings owner returnType params s) u := by
        rw [signatureSightings, following_ok hr]
        exact hlog.trans h hst.toKeeps htu.toKeeps hlog'
      rw [bind_ok hp, hv]
      refine ⟨hsu.trans (hi.carries huv hset), ?_⟩
      refine hi.accounts_after h hu hlogs huv hname.symm (hm _ v hsig) (fun d' hd' => ?_)
        ⟨hname ▸ hi.taken huv, fun hc => ?_⟩
      · rw [hd'] at hkind
        exact absurd hkind.symm he
      · cases e with
        | record => exact absurd rfl he
        | _ => cases hc

end Bindery
