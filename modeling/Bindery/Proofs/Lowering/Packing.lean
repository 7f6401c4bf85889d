import Bindery.Proofs.Lowering.Blindness
import Bindery.Proofs.Lowering.NestedNames
import Mathlib.Data.List.SplitBy

/-!
# Packing bit-fields

The declarations of a record fall into stretches (`stretches`): a member that is no bit-field stands
alone, and the bit-fields between two such members belong together. Once the types of the members
resolve, lowering succeeds just when no stretch is wider than 64 bits. The record then has, in the
order of the declarations, each of the members and one field for each stretch that holds any bits
(`Packs`); otherwise the first stretch that is too wide is reported (`lowerFields_packs`).
-/

namespace Bindery

namespace FieldDecl

def isBitField (decl : FieldDecl) : Bool := decl.bitWidth.isSome

/-- The bits that a bit-field takes; other members take none. -/
def width (decl : FieldDecl) : Nat := decl.bitWidth.getD 0

/-- Neighbours that may share a field. -/
def joins (d e : FieldDecl) : Bool := d.isBitField && e.isBitField

/-- The declarations, cut between any two of which one is no bit-field. -/
def stretches (decls : List FieldDecl) : List (List FieldDecl) := decls.splitBy joins

def totalBits (run : List FieldDecl) : Nat := (run.map width).sum

/-- The bit-fields that hold something. -/
def occupied (run : List FieldDecl) : List FieldDecl := run.filter (·.width ≠ 0)

/-- Name and width of each bit-field that holds something: `a3_b2`. -/
def sharedName (run : List FieldDecl) : String :=
  "_".intercalate ((occupied run).map fun d => d.name ++ toString d.width)

/-- The summaries of the bit-fields that hold something, trimmed; blank ones are left out. -/
def summaries (run : List FieldDecl) : List String :=
  (((occupied run).filterMap (·.doc.summary)).map fun text =>
    String.ofList (Text.trim text.toList)).filter (· ≠ "")

def sharedDoc (run : List FieldDecl) : Doc :=
  match summaries run with
  | [] => .none
  | texts => .ofSummary (" ".intercalate texts)

/-- The field of a run of bit-fields: the first of the four unsigned types that has room for them.
There is none for a run that holds no bits, and for one that is too wide. -/
def sharedField? (run : List FieldDecl) : Option Field :=
  if totalBits run = 0 then none
  else ([.byte, .ushort, .uint, .ulong].find? (totalBits run ≤ ·.bits)).map fun (p : Primitive) =>
    { Field.ofType (sharedName run) (.plain p.name) with doc := sharedDoc run }

/-- The field of a member that is no bit-field. -/
def ownField (decl : FieldDecl) (ty : TypeRef) : Field :=
  { Field.ofType decl.name ty with doc := decl.doc, deprecation := decl.deprecation }

/-- The fields are what becomes of the stretches, whose members other than bit-fields have the types
`tys`. -/
inductive Packs : List (List FieldDecl) → List TypeRef → List Field → Prop where
  | nil : Packs [] [] []
  | member {decl : FieldDecl} {ty : TypeRef} {runs : List (List FieldDecl)} {tys : List TypeRef}
      {fields : List Field} (hd : decl.isBitField = false) (h : Packs runs tys fields) :
      Packs ([decl] :: runs) (ty :: tys) (decl.ownField ty :: fields)
  | bitFields {run : List FieldDecl} {runs : List (List FieldDecl)} {tys : List TypeRef}
      {fields : List Field} (hr : ∀ d ∈ run, d.isBitField = true) (h : Packs runs tys fields) :
      Packs (run :: runs) tys ((sharedField? run).toList ++ fields)

end FieldDecl

/-- What the types of the members that are no bit-fields resolve to, one after the other. -/
def resolveMembers (o : TypeOverride) (record : String) (decls : List FieldDecl) :
    LowerM (List TypeRef) :=
  (decls.filter (!·.isBitField)).mapM fun d => resolve o (some (fieldHint record d)) true d.ty

open FieldDecl

variable {o : TypeOverride} {record : String} {run decls : List FieldDecl}
  {runs : List (List FieldDecl)} {s t : Registry} {tys : List TypeRef} {fields : List Field}

/-! ### Stretches -/

namespace FieldDecl

/-- Single members and bit-fields take turns: what follows bit-fields is no bit-field. -/
inductive Stretched : List (List FieldDecl) → Prop where
  | nil : Stretched []
  | member {decl : FieldDecl} {runs : List (List FieldDecl)} (hd : decl.isBitField = false)
      (h : Stretched runs) : Stretched ([decl] :: runs)
  | bitFields {run : List FieldDecl} {runs : List (List FieldDecl)}
      (hr : ∀ d ∈ run, d.isBitField = true)
      (hnext : ∀ d ∈ runs.flatten.head?, d.isBitField = false) (h : Stretched runs) :
      Stretched (run :: runs)

theorem single_or_bitFields (hne : run ≠ [])
    (h : run.IsChain fun d e => d.joins e) :
    (∃ d, run = [d] ∧ d.isBitField = false) ∨ ∀ d ∈ run, d.isBitField = true := by
  induction run with
  | nil => exact absurd rfl hne
  | cons d run ih =>
    cases run with
    | nil => cases hd : d.isBitField <;> simp [hd]
    | cons e run =>
      obtain ⟨hde, h⟩ := List.isChain_cons_cons.1 h
      obtain ⟨hd, he⟩ := Bool.and_eq_true_iff.1 hde
      obtain ⟨e', heq, he'⟩ | hall := ih (List.cons_ne_nil _ _) h
      · cases heq
        rw [he] at he'
        cases he'
      · exact .inr (List.forall_mem_cons.2 ⟨hd, hall⟩)

theorem stretched_stretches (decls : List FieldDecl) : Stretched (stretches decls) := by
  have hin := fun run => List.isChain_of_mem_splitBy (m := run) (r := joins) (l := decls)
  have hne := List.nil_notMem_splitBy joins decls
  have hnext := List.isChain_getLast_head_splitBy joins decls
  unfold stretches
  generalize decls.splitBy joins = runs at hin hne hnext
  induction runs with
  | nil => exact .nil
  | cons run runs ih =>
    obtain ⟨hrun, hruns⟩ := not_or.1 (hne ∘ List.mem_cons.2)
    have hrest := ih (fun m hm => hin m (List.mem_cons_of_mem _ hm)) hruns hnext.tail
    obtain ⟨d, rfl, hd⟩ | hall := single_or_bitFields (Ne.symm hrun) (hin run List.mem_cons_self)
    · exact .member hd hrest
    · refine .bitFields hall (fun d hd => ?_) hrest
      cases runs with
      | nil => cases hd
      | cons next runs =>
        obtain ⟨hl, hh, hcut⟩ := (List.isChain_cons_cons.1 hnext).1
        obtain ⟨e, next, rfl⟩ := List.exists_cons_of_ne_nil hh
        obtain rfl : e = d := by simpa using hd
        simpa [joins, hall _ (List.getLast_mem hl)] using hcut

end FieldDecl

/-! ### The run that is pending -/

/-- The run after these bit-fields. -/
def BitFieldRun.ofDecls (run : List FieldDecl) : BitFieldRun :=
  ⟨(occupied run).map fun d => d.name ++ toString d.width, summaries run, totalBits run⟩

theorem BitFieldRun.push_ofDecls (run : List FieldDecl) {d : FieldDecl} {width : Nat}
    (hd : d.bitWidth = some width) :
    (BitFieldRun.ofDecls run).push d.name width d.doc = .ofDecls (run ++ [d]) := by
  have hw : d.width = width := by simp [FieldDecl.width, hd]
  unfold BitFieldRun.push
  split
  next h => simp [ofDecls, occupied, summaries, totalBits, hw, h]
  next h =>
    cases hs : d.doc.summary <;>
      simp [ofDecls, occupied, summaries, totalBits, summaryOf?, hw, h, hs]
    simp only [Option.filter, List.filter_cons]
    grind

theorem lowerFields_bitFields (hr : ∀ d ∈ run, d.isBitField = true) (pre : List FieldDecl) :
    lowerFields o record (.ofDecls pre) (run ++ decls) =
      lowerFields o record (.ofDecls (pre ++ run)) decls := by
  induction run generalizing pre with
  | nil => simp
  | cons d run ih =>
    obtain ⟨hd, hrest⟩ := List.forall_mem_cons.1 hr
    match d, hd with
    | ⟨name, ty, some width, doc, deprecation⟩, _ =>
      rw [List.cons_append, lowerFields,
        BitFieldRun.push_ofDecls pre (d := ⟨name, ty, some width, doc, deprecation⟩) rfl,
        ih hrest, List.append_assoc, List.singleton_append]

/-- Before a member that is no bit-field, and at the end, the run that is pending comes out. -/
theorem lowerFields_pending (hd : ∀ d ∈ decls.head?, d.isBitField = false) (run : BitFieldRun) :
    lowerFields o record run decls = do
      let packed ← run.flush record
      let fields ← lowerFields o record .empty decls
      return packed ++ fields := by
  have hempty : BitFieldRun.empty.flush record = pure [] := rfl
  match decls with
  | [] => simp [lowerFields, hempty]
  | ⟨name, ty, none, doc, deprecation⟩ :: decls => simp [lowerFields, hempty]
  | ⟨name, ty, some width, doc, deprecation⟩ :: decls => simp [FieldDecl.isBitField] at hd

theorem BitFieldRun.doc_ofDecls (run : List FieldDecl) :
    (BitFieldRun.ofDecls run).doc = sharedDoc run := by
  unfold BitFieldRun.doc BitFieldRun.ofDecls sharedDoc
  cases summaries run <;> rfl

theorem unsignedOfBits?_eq (bits : Nat) :
    Primitive.unsignedOfBits? bits =
      [Primitive.byte, .ushort, .uint, .ulong].find? (bits ≤ ·.bits) := by
  unfold Primitive.unsignedOfBits?
  simp only [List.find?_cons, Primitive.bits]
  grind

theorem unsignedOfBits?_eq_none_iff {bits : Nat} :
    Primitive.unsignedOfBits? bits = none ↔ 64 < bits := by
  unfold Primitive.unsignedOfBits?
  grind

/-- A run that is not too wide comes out as its field; only the name of the type is met. -/
theorem flush_ofDecls (record : String) (run : List FieldDecl) (s : Registry) :
    (totalBits run ≤ 64 ∧ ∃ names, (BitFieldRun.ofDecls run).flush record s =
      .ok (sharedField? run).toList (s.withNames names)) ∨
    (64 < totalBits run ∧ (BitFieldRun.ofDecls run).flush record s =
      .error (.bitFieldOverflow record (sharedName run) (totalBits run)) s) := by
  have hbits : (BitFieldRun.ofDecls run).bits = totalBits run := rfl
  unfold BitFieldRun.flush sharedField?
  rw [hbits, BitFieldRun.doc_ofDecls, ← unsignedOfBits?_eq]
  split
  next h => exact .inl ⟨by omega, s.names, rfl⟩
  next h =>
    cases hp : Primitive.unsignedOfBits? (totalBits run) with
    | none => exact .inr ⟨unsignedOfBits?_eq_none_iff.1 hp, rfl⟩
    | some p =>
      have hle : totalBits run ≤ 64 := by
        by_contra hwide
        cases hp.symm.trans (unsignedOfBits?_eq_none_iff.2 (Nat.lt_of_not_le hwide))
      exact .inl ⟨hle, s.names.add p.name, rfl⟩

/-! ### All stretches -/

theorem resolveMembers_member {d : FieldDecl} (hd : d.isBitField = false) :
    resolveMembers o record (d :: decls) = do
      let ty ← resolve o (some (fieldHint record d)) true d.ty
      let tys ← resolveMembers o record decls
      return ty :: tys := by
  simp [resolveMembers, hd]

theorem resolveMembers_bitFields (hr : ∀ d ∈ run, d.isBitField = true) :
    resolveMembers o record (run ++ decls) = resolveMembers o record decls := by
  have hnone : run.filter (!·.isBitField) = [] := List.filter_eq_nil_iff.2 (by simpa using hr)
  simp [resolveMembers, hnone]

theorem blind_resolveMembers (o : TypeOverride) (record : String) (decls : List FieldDecl) :
    (resolveMembers o record decls).Blind := by
  induction decls with
  | nil => exact .pure _
  | cons d decls ih =>
    cases hd : d.isBitField with
    | true => simpa [resolveMembers, hd] using ih
    | false =>
      rw [resolveMembers_member hd]
      exact .bind (blind_resolve o d.ty _ _) fun _ => .bind ih fun _ => .pure _

theorem lowerFields_member {d : FieldDecl} (hd : d.isBitField = false) :
    lowerFields o record .empty (d :: decls) = do
      let ty ← resolve o (some (fieldHint record d)) true d.ty
      let fields ← lowerFields o record .empty decls
      return d.ownField ty :: fields := by
  have hempty : BitFieldRun.empty.flush record = pure [] := rfl
  match d, hd with
  | ⟨name, ty, none, doc, deprecation⟩, _ => simp [lowerFields, hempty, fieldHint, ownField]

/-- Lowering packs the stretches up to the first that is too wide. -/
theorem lowerFields_stretched (hs : Stretched runs) :
    ∀ {s t : Registry} {tys : List TypeRef},
    resolveMembers o record runs.flatten s = .ok tys t →
    (runs.find? (64 < totalBits ·) = none ∧ ∃ fields names,
      lowerFields o record .empty runs.flatten s = .ok fields (t.withNames names) ∧
      Packs runs tys fields) ∨
    ∃ run t', runs.find? (64 < totalBits ·) = some run ∧
      lowerFields o record .empty runs.flatten s =
        .error (.bitFieldOverflow record (sharedName run) (totalBits run)) t' := by
  induction hs with
  | nil =>
    intro s t tys h
    obtain ⟨rfl, rfl⟩ : [] = tys ∧ s = t := by cases h; exact ⟨rfl, rfl⟩
    exact .inl ⟨rfl, [], s.names, rfl, .nil⟩
  | @member d runs hd hs ih =>
    intro s t tys h
    rw [List.flatten_cons, List.singleton_append] at h ⊢
    rw [resolveMembers_member hd] at h
    obtain ⟨ty, u, hty, h⟩ := of_bind_eq_ok h
    obtain ⟨tys, v, htys, h⟩ := of_bind_eq_ok h
    cases h
    have hnarrow : ¬64 < totalBits [d] := by
      cases hw : d.bitWidth <;> simp_all [totalBits, FieldDecl.width, FieldDecl.isBitField]
    rw [lowerFields_member hd, bind_ok hty]
    simp only [List.find?_cons_of_neg, hnarrow, decide_false, Bool.false_eq_true, not_false_eq_true]
    obtain ⟨hfind, fields, names, hok, hpacks⟩ | ⟨run, t', hfind, herr⟩ := ih htys
    · exact .inl ⟨hfind, _, names, by rw [bind_ok hok]; rfl, .member hd hpacks⟩
    · exact .inr ⟨run, t', hfind, bind_error herr⟩
  | @bitFields run runs hr hnext hs ih =>
    intro s t tys h
    rw [List.flatten_cons] at h ⊢
    rw [resolveMembers_bitFields hr] at h
    rw [show BitFieldRun.empty = .ofDecls [] from rfl, lowerFields_bitFields hr,
      lowerFields_pending hnext, List.nil_append]
    obtain ⟨hle, names, hflush⟩ | ⟨hwide, hflush⟩ := flush_ofDecls record run s
    · -- the field of the run has made its type known, which the members after it do not notice
      obtain ⟨names', h'⟩ := (blind_resolveMembers o record _).of_ok h names
      rw [bind_ok hflush, List.find?_cons_of_neg (by simpa using hle)]
      obtain ⟨hfind, fields, names'', hok, hpacks⟩ | ⟨run', t', hfind, herr⟩ := ih h'
      · exact .inl ⟨hfind, _, names'', by rw [bind_ok hok]; rfl, .bitFields hr hpacks⟩
      · exact .inr ⟨run', t', hfind, bind_error herr⟩
    · exact .inr ⟨run, s, List.find?_cons_of_pos (by simpa using hwide), bind_error hflush⟩

/-- A record whose members other than bit-fields have types that resolve is lowered just when no
stretch of its declarations takes more than 64 bits. Its fields are then what becomes of the
stretches, in order; otherwise the error is on the first stretch that is too wide. -/
theorem lowerFields_packs (h : resolveMembers o record decls s = .ok tys t) :
    ((∃ fields t', lowerFields o record .empty decls s = .ok fields t') ↔
      ∀ run ∈ stretches decls, totalBits run ≤ 64) ∧
    (∀ fields t', lowerFields o record .empty decls s = .ok fields t' →
      Packs (stretches decls) tys fields) ∧
    ∀ e t', lowerFields o record .empty decls s = .error e t' →
      ∃ run, (stretches decls).find? (64 < totalBits ·) = some run ∧
        e = .bitFieldOverflow record (sharedName run) (totalBits run) := by
  have hflat : (stretches decls).flatten = decls := List.flatten_splitBy _ _
  rw [← hflat] at h
  have hs := lowerFields_stretched (stretched_stretches decls) h
  rw [hflat] at hs
  obtain ⟨hfind, fields, names, hok, hpacks⟩ | ⟨run, t', hfind, herr⟩ := hs
  · refine ⟨⟨fun _ run hrun => ?_, fun _ => ⟨_, _, hok⟩⟩, fun _ _ h' => ?_, fun _ _ h' => ?_⟩
    · simpa using List.find?_eq_none.1 hfind run hrun
    · cases hok.symm.trans h'
      exact hpacks
    · cases hok.symm.trans h'
  · have hwide : 64 < totalBits run := by simpa using List.find?_some hfind
    refine ⟨⟨fun ⟨_, _, h'⟩ => ?_, fun hall => ?_⟩, fun _ _ h' => ?_, fun _ _ h' => ?_⟩
    · cases herr.symm.trans h'
    · exact absurd (hall run (List.mem_of_find?_eq_some hfind)) (Nat.not_le_of_lt hwide)
    · cases herr.symm.trans h'
    · cases herr.symm.trans h'
      exact ⟨run, hfind, rfl⟩

/-- Bit-fields around two other members. Those of width zero neither end a run nor add to its name,
and the run after the last member holds no bits. -/
def gappedDecls : List FieldDecl :=
  let bits (name : String) (width : Nat) (doc : Doc) : FieldDecl :=
    ⟨name, .builtin .int, some width, doc, none⟩
  [bits "a" 3 (.ofSummary " first "), bits "x" 0 (.ofSummary "gap"), bits "b" 2 (.ofSummary " "),
    ⟨"plain", .builtin .int, none, .ofSummary "kept", none⟩, bits "lo" 32 .none, bits "hi" 8 .none,
    ⟨"next", .pointer (.builtin .uchar) true, none, .none, some ""⟩, bits "" 0 .none]

/-- Two of the three runs of bit-fields hold bits, so there are four fields. -/
theorem lowerFields_packs_gapped : ∃ fields t t',
    resolveMembers .none "Gaps" gappedDecls .empty =
      .ok [.plain "int", (TypeRef.plain "byte").push .constPointer] t ∧
    lowerFields .none "Gaps" .empty gappedDecls .empty = .ok fields t' ∧
    fields.map (fun f => (f.name, f.ty.base, f.doc.summary)) =
      [("a3_b2", "byte", some "first"), ("plain", "int", some "kept"), ("lo32_hi8", "ulong", none),
        ("next", "byte", none)] ∧
    (∀ run ∈ stretches gappedDecls, totalBits run ≤ 64) ∧
    Packs (stretches gappedDecls)
      [.plain "int", (TypeRef.plain "byte").push .constPointer] fields := by
  obtain ⟨fields, t, t', hmembers, hok, hfields⟩ : ∃ fields t t',
      resolveMembers .none "Gaps" gappedDecls .empty =
        .ok [.plain "int", (TypeRef.plain "byte").push .constPointer] t ∧
      lowerFields .none "Gaps" .empty gappedDecls .empty = .ok fields t' ∧
      fields.map (fun f => (f.name, f.ty.base, f.doc.summary)) =
        [("a3_b2", "byte", some "first"), ("plain", "int", some "kept"),
          ("lo32_hi8", "ulong", none), ("next", "byte", none)] :=
    ⟨_, _, _, rfl, rfl, rfl⟩
  obtain ⟨hiff, hpacks, -⟩ := lowerFields_packs hmembers
  exact ⟨fields, t, t', hmembers, hok, hfields, hiff.1 ⟨_, _, hok⟩, hpacks _ _ hok⟩

/-- The second run is the one that is too wide. -/
example : ∃ t, lowerFields .none "Wide" .empty
    [⟨"a", .builtin .int, some 64, .none, none⟩, ⟨"p", .builtin .int, none, .none, none⟩,
      ⟨"b", .builtin .int, some 40, .none, none⟩, ⟨"c", .builtin .int, some 40, .none, none⟩]
    .empty = .error (.bitFieldOverflow "Wide" "b40_c40" 80) t := ⟨_, rfl⟩

end Bindery
