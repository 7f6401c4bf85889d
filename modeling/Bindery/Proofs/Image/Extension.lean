import Bindery.Proofs.Image.Listing

/-!
# More bytes after the end

A reading `Persists` when bytes after the end of the file leave it as it is, unless the file ended
too early for it. Words and strings are read so, and sequences of such readings are such readings,
whatever the later ones do with the answers of the earlier ones. So an image that is cut lists the
same exports as before, or it is found to be too short (`exports_append_and_take`).
-/

namespace Bindery

namespace Bytes

variable {α β : Type} {d x : Bytes} {offset v : Nat} {bytes : List UInt8}

/-- Bytes after the end change nothing, unless the file ended too early. -/
def Persists (read : Bytes → Except ImageError α) : Prop :=
  ∀ d x : Bytes, read (d ++ x) = read d ∨ ∃ offset, read d = .error (.truncated offset)

/-! ### What is there stays there -/

theorem getElem?_append_of_eq_some {i : Nat} {b : UInt8} (h : d[i]? = some b) :
    (d ++ x)[i]? = some b := by
  obtain ⟨hi, -⟩ := Array.getElem?_eq_some_iff.mp h
  rw [Array.getElem?_append_left hi, h]

theorem Word16At.append (h : d.Word16At offset v) (x : Bytes) : (d ++ x).Word16At offset v := by
  obtain ⟨a, b, ha, hb, hv⟩ := h
  exact ⟨a, b, getElem?_append_of_eq_some ha, getElem?_append_of_eq_some hb, hv⟩

theorem Word32At.append (h : d.Word32At offset v) (x : Bytes) : (d ++ x).Word32At offset v := by
  obtain ⟨a, b, c, e, ha, hb, hc, he, hv⟩ := h
  exact ⟨a, b, c, e, getElem?_append_of_eq_some ha, getElem?_append_of_eq_some hb,
    getElem?_append_of_eq_some hc, getElem?_append_of_eq_some he, hv⟩

theorem StringAt.append (h : d.StringAt offset bytes) (x : Bytes) :
    (d ++ x).StringAt offset bytes := by
  obtain ⟨hbytes, hzero⟩ := h
  refine ⟨fun i b hb => ?_, getElem?_append_of_eq_some hzero⟩
  obtain ⟨hd, hne⟩ := hbytes i b hb
  exact ⟨getElem?_append_of_eq_some hd, hne⟩

/-! ### Readings -/

namespace Persists

variable {read : Bytes → Except ImageError α} {next : Bytes → α → Except ImageError β}

theorem const (r : Except ImageError α) : Persists fun _ => r := fun _ _ => .inl rfl

/-- A reading that fails only where the file ends too early. -/
theorem of_ok (hok : ∀ d x a, read d = .ok a → read (d ++ x) = .ok a)
    (herror : ∀ d e, read d = .error e → ∃ offset, e = .truncated offset) : Persists read := by
  intro d x
  cases hd : read d with
  | ok a => exact .inl (hok d x a hd)
  | error e =>
    obtain ⟨offset, rfl⟩ := herror d e hd
    exact .inr ⟨offset, rfl⟩

theorem bind (hread : Persists read) (hnext : ∀ a, Persists fun d => next d a) :
    Persists fun d => read d >>= next d := by
  intro d x
  rcases hread d x with heq | ⟨offset, htrunc⟩
  · -- the first reading is the same, so the second one starts from the same answer
    dsimp only
    rw [heq]
    cases read d with
    | ok a => exact hnext a d x
    | error e => exact .inl rfl
  · refine .inr ⟨offset, ?_⟩
    dsimp only
    rw [htrunc]
    rfl

theorem ite {c : Prop} [Decidable c] {read' : Bytes → Except ImageError α} (h : Persists read)
    (h' : Persists read') : Persists fun d => if c then read d else read' d := by
  by_cases hc : c
  · simpa only [if_pos hc] using h
  · simpa only [if_neg hc] using h'

theorem word16 (offset : Nat) : Persists (·.word16 offset) := by
  refine of_ok (fun d x a ha => ?_) fun d e he => ?_
  · have hword : d.Word16At offset a := word16_eq_ok_iff.mp ha
    exact word16_eq_ok_iff.mpr (hword.append x)
  · unfold Bytes.word16 at he
    split at he
    · cases he
    · exact ⟨offset, (Except.error.inj he).symm⟩

theorem word32 (offset : Nat) : Persists (·.word32 offset) := by
  refine of_ok (fun d x a ha => ?_) fun d e he => ?_
  · have hword : d.Word32At offset a := word32_eq_ok_iff.mp ha
    exact word32_eq_ok_iff.mpr (hword.append x)
  · unfold Bytes.word32 at he
    split at he
    · cases he
    · exact ⟨offset, (Except.error.inj he).symm⟩

theorem cString (offset : Nat) : Persists (·.cString offset) := by
  refine of_ok (fun d x a ha => ?_) fun d e he => ?_
  · have hstring : d.StringAt offset a := cString_eq_ok_iff.mp ha
    exact cString_eq_ok_iff.mpr (hstring.append x)
  · unfold Bytes.cString at he
    split at he
    · exact ⟨offset, (Except.error.inj he).symm⟩
    split at he
    · cases he
    · exact ⟨d.size, (Except.error.inj he).symm⟩

end Persists

end Bytes

open Bytes

/-! ### Sections, names and images -/

theorem Section.persists_readAt (offset : Nat) : Persists (Section.readAt · offset) := by
  unfold Section.readAt
  refine .bind (.word32 _) fun virtualSize => ?_
  refine .bind (.word32 _) fun virtualAddress => ?_
  refine .bind (.word32 _) fun rawSize => ?_
  exact .bind (.word32 _) fun rawOffset => .const _

theorem Section.persists_readAllAt (count offset : Nat) :
    Persists (Section.readAllAt · count offset) := by
  induction count generalizing offset with
  | zero => exact .const (.ok [])
  | succ count ih =>
    simp only [Section.readAllAt]
    refine .bind (Section.persists_readAt offset) fun s => ?_
    exact .bind (ih _) fun more => .const _

namespace Image

theorem persists_readNamesAt (sections : List Section) (count offset : Nat) :
    Persists (readNamesAt · sections count offset) := by
  induction count generalizing offset with
  | zero => exact .const (.ok [])
  | succ count ih =>
    simp only [readNamesAt]
    refine .bind (.word32 _) fun address => ?_
    refine .bind (.const (fileOffset sections address)) fun start => ?_
    refine .bind (.cString _) fun name => ?_
    exact .bind (ih _) fun more => .const _

theorem persists_exports : Persists exports := by
  rw [funext exports_eq_exportsByOffset]
  unfold exportsByOffset
  refine .bind (.word16 _) fun magic => .ite (.const _) ?_
  refine .bind (.word32 _) fun header => .bind (.word32 _) fun signature => .ite (.const _) ?_
  refine .bind (.word16 _) fun machine => .bind (.word16 _) fun sectionCount => ?_
  refine .bind (.word32 _) fun exportAddress => .bind (.word32 _) fun _ => .ite (.const _) ?_
  refine .bind (Section.persists_readAllAt _ _) fun sections => ?_
  refine .bind (.const (fileOffset sections exportAddress)) fun directory => ?_
  refine .bind (.word32 _) fun count => .bind (.word32 _) fun table => .ite (.const _) ?_
  exact .bind (.const (fileOffset sections table)) fun start => persists_readNamesAt _ _ _

/-- **Exports depend on the bytes they need.** Bytes after the end of an image leave its exports, or
the error, as they are, unless the image ended too early. Equally, an image of which only the first
`n` bytes are left has the same exports or the same error, or it is found to end too early. -/
theorem exports_append_and_take (d x : Bytes) (n : Nat) :
    (exports (d ++ x) = exports d ∨ ∃ offset, exports d = .error (.truncated offset)) ∧
    (exports (d.take n) = exports d ∨
      ∃ offset, exports (d.take n) = .error (.truncated offset)) := by
  refine ⟨persists_exports d x, ?_⟩
  have hsplit : d.take n ++ d.drop n = d := by
    rw [Array.take_eq_extract, Array.drop_eq_extract, Array.extract_append_extract, Nat.zero_min,
      Array.extract_eq_self_iff]
    exact .inr ⟨rfl, Nat.le_max_right _ _⟩
  have hcut := persists_exports (d.take n) (d.drop n)
  rw [hsplit] at hcut
  exact hcut.imp_left Eq.symm

end Image

end Bindery
