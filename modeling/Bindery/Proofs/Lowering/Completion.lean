import Bindery.Proofs.Lowering.Runs

/-!
# Structs are filled once

Lowering only appends: what is registered keeps its slot, its name and its kind, and all that may
become of it is that a struct that waits for its fields gets them. They are those of the first
complete record of its name that lowering comes to see, also when the record is met again while its
own fields are being lowered; later records of the name change nothing.
-/

namespace Bindery

namespace Registry

variable {s t : Registry} {id : DefId} {d : Definition}

/-- A definition that is kept stays in its slot. -/
theorem Keeps.get? (h : s.Keeps t) (hs : s.Consistent) (hd : s.get? id = some d) :
    ∃ d', t.get? id = some d' ∧ d.Completes d' := by
  obtain ⟨d', hd', hb⟩ := h.advances.grows.becomes hd
  obtain ⟨d'', hf, hc⟩ := h.completes (hs.find?_name hd)
  have ht := h.advances.wellTyped.consistent
  have hf' := ht.find?_name hd'
  rw [hb.name_eq, hf] at hf'
  cases hf'
  exact ⟨_, hd', hc⟩

end Registry

namespace Lowerer

variable {l : Lowerer}

/-- **A struct is filled once.** Whatever was registered is there after further headers, in its slot
and unchanged, except that a struct that waited for its fields may be complete; this holds when
processing fails too. When it succeeds, a struct that has become complete has the flag, the
documentation and the fields of the first complete record of its name among what was seen. -/
theorem Reached.process_completes (h : l.Reached) (headers : List Header) :
    (∀ id d, l.registry.get? id = some d →
      ∃ d', (l.after (Lowerer.process headers)).registry.get? id = some d' ∧ d.Completes d') ∧
    ∀ l', Lowerer.process headers l = .ok ⟨⟩ l' →
      ∀ id d, l'.registry.get? id = some (.structDef d) → d.complete = true →
        l.registry.get? id = some (.structDef d) ∨
        (∀ d₀, l.registry.get? id = some (.structDef d₀) → d₀.complete = false) ∧
        ∃ decl, firstBody d.label.name (sightings headers l) = some decl ∧
          decl.Fills d.label.name l.registry l'.registry d := by
  have hlogs := logs_process headers h.ready
  have hs := h.wellTyped.consistent
  refine ⟨fun id d hd => hlogs.carries_after.registry.toKeeps.get? hs hd,
    fun l' hrun id d hd hc => ?_⟩
  obtain ⟨hl, haccounts⟩ := hlogs.of_ok hrun
  have ht := hl.registry.advances.wellTyped.consistent
  have hname : d.label.name = (Definition.structDef d).name := rfl
  rcases haccounts.filled (ht.find?_name hd) hc with hf | ⟨haw, decl, hb, hfill⟩
  · -- it was complete before, in the same slot
    obtain ⟨id', hd', -⟩ := hs.find?_eq_some_iff.mp hf
    obtain ⟨d', hd'', hcomp⟩ := hl.registry.toKeeps.get? hs hd'
    cases hcomp.eq_of_complete hc
    rw [ht.id_eq hd hd'' rfl]
    exact .inl hd'
  · refine .inr ⟨fun d₀ hd₀ => haw d₀ ?_, decl, hb, hfill⟩
    obtain ⟨d', hd', hcomp⟩ := hl.registry.toKeeps.get? hs hd₀
    cases hd.symm.trans hd'
    have hn : d.label.name = d₀.label.name := by
      cases hcomp with
      | refl => rfl
      | fill hl => rw [hl]
    rw [← hname, hn]
    exact hs.find?_name hd₀

/-- A header that declares the records and nothing else. -/
def recordHeader (records : List RecordDecl) : Header :=
  ⟨"chain.h", false, [], [], records, [], []⟩

/-- A record of whose fields nothing is known. -/
def forwardChain : RecordDecl := ⟨some "chain", none, false, .none⟩

/-- The fields of a record that meets another definition of itself while its first field is being
lowered. -/
def chainFields : List FieldDecl :=
  let inner : RecordDecl := ⟨some "chain", some [⟨"inner", .builtin .char, none, .none, none⟩],
    true, .ofSummary "inner"⟩
  [⟨"next", .pointer (.record inner) false, none, .none, none⟩,
    ⟨"count", .builtin .int, none, .none, none⟩]

/-- The forward declaration is filled by the first of two definitions, whose own first field shows a
third one. -/
theorem process_completes_chain :
    let l := new.after (process [recordHeader [forwardChain]])
    let headers := [recordHeader [⟨some "chain", some chainFields, false, .ofSummary "outer"⟩,
      ⟨some "chain", some [], true, .none⟩]]
    l.Reached ∧ ∃ l' d, process headers l = .ok ⟨⟩ l' ∧
      l'.registry.get? ⟨0⟩ = some (.structDef d) ∧ d.complete = true ∧
      (d.isUnion, d.label.doc, d.fields.map Field.name) =
        (false, .ofSummary "outer", ["next", "count"]) ∧
      (∃ d', l'.registry.get? ⟨0⟩ = some d' ∧
        (Definition.structDef (.placeholder (.ofName "chain"))).Completes d') ∧
      (l.registry.get? ⟨0⟩ = some (.structDef d) ∨
        (∀ d₀, l.registry.get? ⟨0⟩ = some (.structDef d₀) → d₀.complete = false) ∧
        ∃ decl, firstBody d.label.name (sightings headers l) = some decl ∧
          decl.Fills d.label.name l.registry l'.registry d) := by
  intro l headers
  have h : l.Reached := .process .new _
  obtain ⟨l', d, hrun, hd, hc, hfields⟩ : ∃ l' d, process headers l = .ok ⟨⟩ l' ∧
      l'.registry.get? ⟨0⟩ = some (.structDef d) ∧ d.complete = true ∧
      (d.isUnion, d.label.doc, d.fields.map Field.name) =
        (false, .ofSummary "outer", ["next", "count"]) := ⟨_, _, rfl, rfl, rfl, rfl⟩
  obtain ⟨hkeeps, hfills⟩ := h.process_completes headers
  have hafter : l.after (process headers) = l' := by rw [after, hrun]
  refine ⟨h, l', d, hrun, hd, hc, hfields, ?_, hfills l' hrun ⟨0⟩ d hd hc⟩
  rw [← hafter]
  exact hkeeps ⟨0⟩ _ rfl

end Lowerer

end Bindery
