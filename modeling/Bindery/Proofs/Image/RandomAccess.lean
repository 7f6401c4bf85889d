import Mathlib.Algebra.Group.Nat.Defs
import Bindery.Image.Exports

/-!
# Reading an image by offset

The same readings without a cursor: every word stands at an offset that is worked out from the words
before it. `CursorM.Reads` says of a step what it reads and where the cursor stands afterwards. The
offsets are sums of 32-bit words, so the cursor never comes near the last position, and reading with
it gives the same names, or fails in the same way: `exports_eq_exportsByOffset`.
-/

namespace Bindery

namespace Bytes

/-- The 16-bit word at an offset, if it lies inside the file. -/
def word16? (d : Bytes) (offset : Nat) : Option Nat :=
  match d[offset]?, d[offset + 1]? with
  | some a, some b => some (a.toNat + b.toNat * 0x100)
  | _, _ => none

/-- The 32-bit word at an offset, if it lies inside the file. -/
def word32? (d : Bytes) (offset : Nat) : Option Nat :=
  match word16? d offset, word16? d (offset + 2) with
  | some a, some b => some (a + b * 0x10000)
  | _, _ => none

def word16 (d : Bytes) (offset : Nat) : Except ImageError Nat :=
  match word16? d offset with
  | some n => .ok n
  | none => .error (.truncated offset)

def word32 (d : Bytes) (offset : Nat) : Except ImageError Nat :=
  match word32? d offset with
  | some n => .ok n
  | none => .error (.truncated offset)

end Bytes

namespace Section

/-- How far one section header lies after the one before. -/
def headerSize : Nat := 40

/-- The section header at an offset. -/
def readAt (d : Bytes) (offset : Nat) : Except ImageError Section := do
  let virtualSize ← d.word32 (offset + 8)
  let virtualAddress ← d.word32 (offset + 12)
  let rawSize ← d.word32 (offset + 16)
  let rawOffset ← d.word32 (offset + 20)
  return ⟨virtualSize, virtualAddress, rawSize, rawOffset⟩

/-- The section headers from an offset on. -/
def readAllAt (d : Bytes) : (count : Nat) → (offset : Nat) → Except ImageError (List Section)
  | 0, _ => .ok []
  | count + 1, offset => do
    let s ← readAt d offset
    let more ← readAllAt d count (offset + headerSize)
    return s :: more

end Section

namespace Image

/-- The names that `count` addresses from an offset on point to. -/
def readNamesAt (d : Bytes) (sections : List Section) :
    (count : Nat) → (offset : Nat) → Except ImageError (List String)
  | 0, _ => .ok []
  | count + 1, offset => do
    let address ← d.word32 offset
    let name ← d.cString (← fileOffset sections address)
    let more ← readNamesAt d sections count (offset + 4)
    return String.ofList (Text.decodeUtf8 name) :: more

/-- The exported names of an image, each word read at its offset. -/
def exportsByOffset (d : Bytes) : Except ImageError (List String) := do
  if (← d.word16 0) ≠ 0x5a4d then throw .badDosMagic
  let header ← d.word32 0x3c
  if (← d.word32 header) ≠ 0x4550 then throw (.badPeSignature header)
  let machine ← d.word16 (header + 4)
  let sectionCount ← d.word16 (header + 6)
  let entry := header + 8 + exportEntryDistance machine
  let exportAddress ← d.word32 entry
  let _ ← d.word32 (entry + 4)
  if exportAddress = 0 then return []
  let sections ← Section.readAllAt d sectionCount (entry + 8 + 15 * 8)
  let directory ← fileOffset sections exportAddress
  let count ← d.word32 (directory + 24)
  let table ← d.word32 (directory + 32)
  if count = 0 then return []
  readNamesAt d sections count (← fileOffset sections table)

end Image

/-! ### Words as bytes in a row -/

namespace Bytes

variable {d : Bytes} {p n v : Nat}

/-- What `take` gives with the cursor at `p`. -/
def bytesAt (d : Bytes) (p n : Nat) : Except ImageError (List UInt8) :=
  if p + n ≤ d.size then .ok (d.extract p (p + n)).toList else .error (.truncated p)

theorem toList_extract_succ (h : p < d.size) :
    (d.extract p (p + (n + 1))).toList = d[p] :: (d.extract (p + 1) (p + 1 + n)).toList := by
  simp only [Array.toList_extract, List.extract_eq_take_drop, Nat.add_sub_cancel_left]
  rw [List.drop_eq_getElem_cons (by simpa using h), List.take_succ_cons]
  rfl

theorem ofLittleEndian_extract (h : p + 2 ≤ d.size) :
    ofLittleEndian (d.extract p (p + (n + 2))).toList =
      d[p].toNat + 0x100 * d[p + 1].toNat +
        0x10000 * ofLittleEndian (d.extract (p + 2) (p + 2 + n)).toList := by
  have h₀ : (d.extract p (p + (n + 2))).toList = d[p] :: _ := toList_extract_succ (by omega)
  have h₁ : (d.extract (p + 1) (p + 1 + (n + 1))).toList =
      d[p + 1] :: (d.extract (p + 2) (p + 2 + n)).toList := toList_extract_succ (by omega)
  rw [h₀, h₁, ofLittleEndian, ofLittleEndian]
  omega

theorem word16?_eq_some (h : p + 2 ≤ d.size) :
    d.word16? p = some (ofLittleEndian (d.extract p (p + 2)).toList) := by
  have h₀ : p < d.size := by omega
  have h₁ : p + 1 < d.size := by omega
  have hb := ofLittleEndian_extract (n := 0) h
  rw [Nat.zero_add] at hb
  rw [hb]
  simp [word16?, h₀, h₁, ofLittleEndian, Nat.mul_comm]

theorem word16?_eq_none (h : ¬p + 2 ≤ d.size) : d.word16? p = none := by
  have h₁ : d[p + 1]? = none := Array.getElem?_eq_none (by omega)
  simp [word16?, h₁]

theorem word32?_eq_some (h : p + 4 ≤ d.size) :
    d.word32? p = some (ofLittleEndian (d.extract p (p + 4)).toList) := by
  have hlo : d.word16? p = _ := word16?_eq_some (by omega)
  have hhi : d.word16? (p + 2) = _ := word16?_eq_some (by omega)
  have hlow : ofLittleEndian (d.extract p (p + 2)).toList = _ :=
    ofLittleEndian_extract (n := 0) (by omega)
  have hall : ofLittleEndian (d.extract p (p + 4)).toList = _ :=
    ofLittleEndian_extract (n := 2) (by omega)
  have hz : ofLittleEndian (d.extract (p + 2) (p + 2 + 0)).toList = 0 := by simp [ofLittleEndian]
  rw [word32?, hlo, hhi, hall, hlow, hz]
  exact congrArg some (by omega)

theorem word32?_eq_none (h : ¬p + 4 ≤ d.size) : d.word32? p = none := by
  have hhi : d.word16? (p + 2) = none := word16?_eq_none (by omega)
  unfold word32?
  rw [hhi]
  cases d.word16? p <;> rfl

theorem bytesAt_map (d : Bytes) (p n : Nat) :
    (d.bytesAt p n).map ofLittleEndian =
      if p + n ≤ d.size then .ok (ofLittleEndian (d.extract p (p + n)).toList)
      else .error (.truncated p) := by
  unfold bytesAt
  split <;> rfl

theorem word16_eq_map (d : Bytes) (p : Nat) : d.word16 p = (d.bytesAt p 2).map ofLittleEndian := by
  rw [bytesAt_map, word16]
  by_cases h : p + 2 ≤ d.size
  · rw [word16?_eq_some h, if_pos h]
  · rw [word16?_eq_none h, if_neg h]

theorem word32_eq_map (d : Bytes) (p : Nat) : d.word32 p = (d.bytesAt p 4).map ofLittleEndian := by
  rw [bytesAt_map, word32]
  by_cases h : p + 4 ≤ d.size
  · rw [word32?_eq_some h, if_pos h]
  · rw [word32?_eq_none h, if_neg h]

theorem ofLittleEndian_lt (bytes : List UInt8) : ofLittleEndian bytes < 0x100 ^ bytes.length := by
  induction bytes with
  | nil => decide
  | cons b bytes ih =>
    have hb := b.toNat_lt
    rw [ofLittleEndian, List.length_cons, Nat.pow_succ]
    omega

theorem lt_of_bytesAt_map (h : (d.bytesAt p n).map ofLittleEndian = .ok v) : v < 0x100 ^ n := by
  rw [bytesAt_map] at h
  split at h
  · next hp =>
    cases h
    have hlen : (d.extract p (p + n)).toList.length = n := by
      simp only [Array.length_toList, Array.size_extract]
      omega
    have hlt := ofLittleEndian_lt (d.extract p (p + n)).toList
    rwa [hlen] at hlt
  · cases h

theorem word16_lt (h : d.word16 p = .ok v) : v < 0x10000 := by
  rw [word16_eq_map] at h
  exact lt_of_bytesAt_map h

theorem word32_lt (h : d.word32 p = .ok v) : v < 0x100000000 := by
  rw [word32_eq_map] at h
  exact lt_of_bytesAt_map h

end Bytes

/-! ### The size of what is read -/

section Sequences

variable {ε α β : Type} {x : Except ε α} {f : α → Except ε β} {b : β}

theorem bind_eq_ok_iff : (x >>= f) = .ok b ↔ ∃ a, x = .ok a ∧ f a = .ok b := by
  cases x with
  | error e => exact ⟨nofun, nofun⟩
  | ok a =>
    constructor
    · intro h
      exact ⟨a, rfl, h⟩
    · rintro ⟨a', ha, h⟩
      cases ha
      exact h

end Sequences

namespace Section

variable {d : Bytes} {offset count address : Nat} {s : Section} {sections : List Section}

theorem rawOffset_lt_of_readAt (h : readAt d offset = .ok s) : s.rawOffset < 0x100000000 := by
  simp only [readAt, bind_eq_ok_iff] at h
  obtain ⟨_, -, _, -, _, -, rawOffset, hr, h⟩ := h
  cases h
  exact Bytes.word32_lt hr

theorem rawOffset_lt_of_readAllAt (h : readAllAt d count offset = .ok sections) :
    ∀ s ∈ sections, s.rawOffset < 0x100000000 := by
  induction count generalizing offset sections with
  | zero =>
    cases h
    exact nofun
  | succ count ih =>
    simp only [readAllAt, bind_eq_ok_iff] at h
    obtain ⟨s, hs, more, hmore, h⟩ := h
    cases h
    exact List.forall_mem_cons.mpr ⟨rawOffset_lt_of_readAt hs, ih hmore⟩

end Section

theorem Image.fileOffset_lt {sections : List Section} {address offset : Nat}
    (hs : ∀ s ∈ sections, s.rawOffset < 0x100000000) (ha : address < 0x100000000)
    (h : fileOffset sections address = .ok offset) : offset < 0x200000000 := by
  unfold fileOffset at h
  split at h
  · next o ho =>
    cases h
    obtain ⟨s, hmem, ho⟩ := List.exists_of_findSome?_eq_some ho
    have := hs s hmem
    unfold Section.fileOffset? at ho
    split at ho
    · cases ho
      omega
    · cases ho
  · cases h

/-! ### Steps of the cursor -/

namespace CursorM

variable {α β : Type} {d : Bytes} {m : CursorM α} {f : α → CursorM β} {x : Except ImageError α}
  {g : α → Except ImageError β} {n p q r : Nat}

/-- What a few words can add up to is far from the last position. -/
theorem le_maxPos (h : p ≤ 0x10000000000) : p ≤ maxPos := Nat.le_trans h (by decide)

/-- With the cursor at `p`, the step reads what `x` says, and then the cursor stands at `q`. -/
def Reads (m : CursorM α) (p : Nat) (x : Except ImageError α) (q : Nat) : Prop :=
  m.run p = x.map fun a => (a, q)

namespace Reads

theorem pure (a : α) (p : Nat) : Reads (pure a) p (.ok a) p := rfl

theorem bind (h : Reads m p x q) (hf : ∀ a, x = .ok a → Reads (f a) q (g a) r) :
    Reads (m >>= f) p (x >>= g) r := by
  unfold Reads at h ⊢
  rw [StateT.run_bind, h]
  cases x with
  | error e => rfl
  | ok a => exact hf a rfl

theorem run' (h : Reads m p x q) : m.run' p = x := by
  rw [StateT.run'_eq, h]
  cases x <;> rfl

/-- What comes after the step goes on from where the cursor stands. -/
theorem run'_bind (h : Reads m p x q) (hf : ∀ a, x = .ok a → (f a).run' q = g a) :
    (m >>= f).run' p = x >>= g := by
  rw [StateT.run'_eq, StateT.run_bind, h]
  cases x with
  | error e => rfl
  | ok a => exact hf a rfl

theorem skip_bind {f : Unit → CursorM α} (hn : p + n ≤ maxPos) (h : Reads (f ()) (p + n) x r) :
    Reads (skip n >>= f) p x r := by
  show (f ()).run (min (p + n) maxPos) = x.map fun a => (a, r)
  rw [Nat.min_eq_left hn]
  exact h

theorem lift (x : Except ImageError α) (p : Nat) : Reads (liftM x) p x p := by
  cases x <;> rfl

theorem take (h : p + n ≤ maxPos) : Reads (take d n) p (d.bytesAt p n) (p + n) := by
  by_cases hd : p + n ≤ d.size
  · simp [Reads, CursorM.take, Bytes.bytesAt, h, hd]
    rfl
  · simp [Reads, CursorM.take, Bytes.bytesAt, hd]
    rfl

theorem map {h : α → β} (hm : Reads m p x q) : Reads (h <$> m) p (x.map h) q := by
  unfold Reads at hm ⊢
  rw [StateT.run_map, hm]
  cases x <;> rfl

theorem word16 (h : p + 2 ≤ maxPos) : Reads (word16 d) p (d.word16 p) (p + 2) := by
  rw [Bytes.word16_eq_map]
  exact (take h).map

theorem word32 (h : p + 4 ≤ maxPos) : Reads (word32 d) p (d.word32 p) (p + 4) := by
  rw [Bytes.word32_eq_map]
  exact (take h).map

end Reads

section Runs

variable {f : Unit → CursorM β} {y : Except ImageError β}

theorem run'_seek_bind (h : (f ()).run' q = y) : (seek q >>= f).run' p = y := h

theorem run'_skip_bind (hn : p + n ≤ maxPos) (h : (f ()).run' (p + n) = y) :
    (skip n >>= f).run' p = y := by
  have hmin : min (p + n) maxPos = p + n := Nat.min_eq_left hn
  show (f ()).run' (min (p + n) maxPos) = y
  rw [hmin, h]

/-- What goes on only where nothing is wrong. -/
theorem run'_guard {wrong : Prop} [Decidable wrong] {e : ImageError}
    {g : Unit → Except ImageError β} (h : ¬wrong → (f ()).run' p = g ()) :
    (if wrong then throw e >>= f else f ()).run' p = if wrong then throw e >>= g else g () := by
  by_cases hw : wrong
  · rw [if_pos hw, if_pos hw]
    rfl
  · rw [if_neg hw, if_neg hw, h hw]

/-- What ends early with an answer. -/
theorem run'_ite {c : Prop} [Decidable c] {b : β} {m : CursorM β} (h : ¬c → m.run' p = y) :
    (if c then pure b else m).run' p = if c then pure b else y := by
  by_cases hc : c
  · rw [if_pos hc, if_pos hc]
    rfl
  · rw [if_neg hc, if_neg hc, h hc]

end Runs

end CursorM

open CursorM

theorem Section.reads_read {d : Bytes} {p : Nat} (h : p + headerSize ≤ maxPos) :
    Reads (read d) p (readAt d p) (p + headerSize) := by
  have h : p + 40 ≤ maxPos := h
  unfold Section.read Section.readAt
  refine .skip_bind (by omega) (.bind (.word32 (by omega)) fun virtualSize _ => ?_)
  refine .bind (.word32 (by omega)) fun virtualAddress _ => ?_
  refine .bind (.word32 (by omega)) fun rawSize _ => ?_
  refine .bind (.word32 (by omega)) fun rawOffset _ => ?_
  exact .skip_bind h (.pure _ _)

theorem Section.reads_readAll {d : Bytes} {count p : Nat} (h : p + headerSize * count ≤ maxPos) :
    Reads (readAll d count) p (readAllAt d count p) (p + headerSize * count) := by
  induction count generalizing p with
  | zero => exact .pure [] p
  | succ count ih =>
    rw [Nat.mul_succ] at h ⊢
    have hrest := ih (p := p + headerSize) (by omega)
    rw [readAll, readAllAt, Nat.add_comm (headerSize * count), ← Nat.add_assoc]
    refine .bind (reads_read (by omega)) fun s _ => ?_
    exact .bind hrest fun more _ => .pure _ _

theorem Image.reads_readNames {d : Bytes} {sections : List Section} {count p : Nat}
    (h : p + 4 * count ≤ maxPos) :
    Reads (readNames d sections count) p (readNamesAt d sections count p) (p + 4 * count) := by
  induction count generalizing p with
  | zero => exact .pure [] p
  | succ count ih =>
    rw [Nat.mul_succ] at h ⊢
    have hrest := ih (p := p + 4) (by omega)
    rw [readNames, readNamesAt, Nat.add_comm (4 * count), ← Nat.add_assoc]
    refine .bind (.word32 (by omega)) fun address _ => ?_
    refine .bind (.lift _ _) fun offset _ => ?_
    rw [cStringAt, bind_assoc]
    refine .bind (.lift _ _) fun bytes _ => ?_
    rw [pure_bind]
    exact .bind hrest fun more _ => .pure _ _

/-- Reading with the cursor and reading by offset give the same names, or fail in the same way. -/
theorem Image.exports_eq_exportsByOffset (d : Bytes) : exports d = exportsByOffset d := by
  unfold exports readExports exportsByOffset
  refine (Reads.word16 (by decide)).run'_bind fun magic _ => run'_guard fun _ => run'_seek_bind ?_
  refine (Reads.word32 (by decide)).run'_bind fun header hheader => run'_seek_bind ?_
  have hheader := Bytes.word32_lt hheader
  refine (Reads.word32 (le_maxPos (by omega))).run'_bind fun signature _ => run'_guard fun _ => ?_
  refine (Reads.word16 (le_maxPos (by omega))).run'_bind fun machine _ => ?_
  refine (Reads.word16 (le_maxPos (by omega))).run'_bind fun sectionCount hcount => ?_
  have hcount := Bytes.word16_lt hcount
  have hdistance : exportEntryDistance machine ≤ 128 := by
    unfold exportEntryDistance
    split <;> decide
  refine run'_skip_bind (le_maxPos (by omega)) ?_
  refine (Reads.word32 (le_maxPos (by omega))).run'_bind fun address haddress => ?_
  have haddress := Bytes.word32_lt haddress
  refine (Reads.word32 (le_maxPos (by omega))).run'_bind fun _ _ => run'_ite fun _ => ?_
  refine run'_skip_bind (le_maxPos (by omega)) ?_
  have hsize : Section.headerSize = 40 := rfl
  refine (Section.reads_readAll (le_maxPos ?_)).run'_bind fun sections hsections => ?_
  · rw [hsize]; omega
  have hraw := Section.rawOffset_lt_of_readAllAt hsections
  refine (Reads.lift _ _).run'_bind fun directory hdirectory => run'_seek_bind ?_
  have hdirectory := fileOffset_lt hraw haddress hdirectory
  refine (Reads.word32 (le_maxPos (by omega))).run'_bind fun count hnames => run'_seek_bind ?_
  have hnames := Bytes.word32_lt hnames
  refine (Reads.word32 (le_maxPos (by omega))).run'_bind fun table htable => run'_ite fun _ => ?_
  have htable := Bytes.word32_lt htable
  refine (Reads.lift _ _).run'_bind fun start hstart => run'_seek_bind ?_
  have hstart := fileOffset_lt hraw htable hstart
  exact (reads_readNames (le_maxPos (by omega))).run'

end Bindery
