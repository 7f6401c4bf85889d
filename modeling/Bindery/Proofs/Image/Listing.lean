import Bindery.Proofs.Image.RandomAccess
import Bindery.Proofs.Text.Utf8

/-!
# What an image lists

The format of an image as facts on its bytes: which words stand at which offsets, which section
maps an address, and where a name ends. `Lists` says by these facts alone which names an image
exports, in whatever order they are read. Reading the exports with a cursor succeeds with a list of
names exactly when the image lists these (`exports_eq_ok_iff_lists`).
-/

namespace Bindery

namespace Bytes

/-- The bytes at the offset are the word `v`, its low byte first. -/
def Word16At (d : Bytes) (offset v : Nat) : Prop :=
  ∃ a b, d[offset]? = some a ∧ d[offset + 1]? = some b ∧ v = a.toNat + 0x100 * b.toNat

def Word32At (d : Bytes) (offset v : Nat) : Prop :=
  ∃ a b c e, d[offset]? = some a ∧ d[offset + 1]? = some b ∧ d[offset + 2]? = some c ∧
    d[offset + 3]? = some e ∧
    v = a.toNat + 0x100 * b.toNat + 0x10000 * c.toNat + 0x1000000 * e.toNat

/-- The bytes from the offset up to the first zero. -/
def StringAt (d : Bytes) (offset : Nat) (bytes : List UInt8) : Prop :=
  (∀ i b, bytes[i]? = some b → d[offset + i]? = some b ∧ b ≠ 0) ∧
    d[offset + bytes.length]? = some 0

end Bytes

namespace Section

/-- The address lies in the section, which ends where the larger of its two sizes does. -/
def Holds (s : Section) (address : Nat) : Prop :=
  s.virtualAddress ≤ address ∧ address < s.virtualAddress + max s.virtualSize s.rawSize

/-- The section header at the offset. -/
structure HeaderAt (d : Bytes) (offset : Nat) (s : Section) : Prop where
  virtualSize : d.Word32At (offset + 8) s.virtualSize
  virtualAddress : d.Word32At (offset + 12) s.virtualAddress
  rawSize : d.Word32At (offset + 16) s.rawSize
  rawOffset : d.Word32At (offset + 20) s.rawOffset

/-- The section headers that follow each other from the offset on. -/
def TableAt (d : Bytes) (offset : Nat) (sections : List Section) : Prop :=
  ∀ i s, sections[i]? = some s → HeaderAt d (offset + 40 * i) s

/-- The first section that holds the address has it at that file offset. -/
def Maps (sections : List Section) (address offset : Nat) : Prop :=
  ∃ (i : Nat) (s : Section), sections[i]? = some s ∧ s.Holds address ∧
    (∀ (j : Nat) (t : Section), j < i → sections[j]? = some t → ¬t.Holds address) ∧
    offset = address - s.virtualAddress + s.rawOffset

end Section

namespace Image

/-- The image has its export directory entry at `entry`, which gives `address`. -/
structure EntryAt (d : Bytes) (sectionCount entry address : Nat) : Prop where
  dosMagic : d.Word16At 0 0x5a4d
  header : ∃ header machine, d.Word32At 0x3c header ∧ d.Word32At header 0x4550 ∧
    d.Word16At (header + 4) machine ∧ d.Word16At (header + 6) sectionCount ∧
    entry = header + 8 + if machine = 0x8664 then 128 else 112
  address : d.Word32At entry address
  size : ∃ size, d.Word32At (entry + 4) size

/-- The `i`-th name of the table at the offset. -/
def NameAt (d : Bytes) (sections : List Section) (table i : Nat) (name : String) : Prop :=
  ∃ address offset bytes, d.Word32At (table + 4 * i) address ∧
    Section.Maps sections address offset ∧ d.StringAt offset bytes ∧
    name = String.ofList (Text.decodeUtf8 bytes)

/-- The names that the image exports. -/
inductive Lists (d : Bytes) (names : List String) : Prop where
  /-- There is no export directory. -/
  | none (sectionCount entry : Nat) (atEntry : EntryAt d sectionCount entry 0) (empty : names = [])
  /-- The export directory gives their number, and the address of their table unless there are
  none. -/
  | directory (sections : List Section) (entry address start table : Nat)
      (atEntry : EntryAt d sections.length entry address) (present : address ≠ 0)
      (atTable : Section.TableAt d (entry + 8 + 120) sections)
      (maps : Section.Maps sections address start)
      (number : d.Word32At (start + 24) names.length)
      (tableAddress : d.Word32At (start + 32) table)
      (each : names ≠ [] → ∃ offset, Section.Maps sections table offset ∧
        ∀ i name, names[i]? = some name → NameAt d sections offset i name)

end Image

/-! ### Words and strings -/

namespace Bytes

variable {d : Bytes} {offset v : Nat} {bytes : List UInt8}

theorem word16?_eq_some_iff : d.word16? offset = some v ↔ d.Word16At offset v := by
  unfold word16? Word16At
  cases d[offset]? with
  | none => simp
  | some a =>
    cases d[offset + 1]? with
    | none => simp
    | some b => simp [eq_comm, Nat.mul_comm]

theorem word32?_eq_some_iff : d.word32? offset = some v ↔ d.Word32At offset v := by
  constructor
  · intro h
    unfold word32? at h
    split at h
    · next lo hi hlo hhi =>
      cases h
      obtain ⟨a, b, ha, hb, rfl⟩ := word16?_eq_some_iff.mp hlo
      obtain ⟨c, e, hc, he, rfl⟩ := word16?_eq_some_iff.mp hhi
      exact ⟨a, b, c, e, ha, hb, hc, he, by omega⟩
    · cases h
  · rintro ⟨a, b, c, e, ha, hb, hc, he, rfl⟩
    have hlo : d.word16? offset = some _ := word16?_eq_some_iff.mpr ⟨a, b, ha, hb, rfl⟩
    have hhi : d.word16? (offset + 2) = some _ := word16?_eq_some_iff.mpr ⟨c, e, hc, he, rfl⟩
    rw [word32?, hlo, hhi]
    exact congrArg some (by omega)

theorem word16_eq_ok_iff : d.word16 offset = .ok v ↔ d.Word16At offset v := by
  rw [← word16?_eq_some_iff, word16]
  cases d.word16? offset <;> simp

theorem word32_eq_ok_iff : d.word32 offset = .ok v ↔ d.Word32At offset v := by
  rw [← word32?_eq_some_iff, word32]
  cases d.word32? offset <;> simp

theorem stringAt_nil : d.StringAt offset [] ↔ d[offset]? = some 0 := by
  simp [StringAt]

theorem stringAt_cons {b : UInt8} :
    d.StringAt offset (b :: bytes) ↔
      d[offset]? = some b ∧ b ≠ 0 ∧ d.StringAt (offset + 1) bytes := by
  have hshift : ∀ i, offset + (i + 1) = offset + 1 + i := fun i => by omega
  constructor
  · rintro ⟨hb, hz⟩
    refine ⟨(hb 0 b rfl).1, (hb 0 b rfl).2, fun i c hc => ?_, ?_⟩
    · rw [← hshift]
      exact hb (i + 1) c hc
    · rw [← hshift]
      exact hz
  · rintro ⟨hb, hne, hbs, hz⟩
    refine ⟨fun i c hc => ?_, ?_⟩
    · cases i with
      | zero => cases hc; exact ⟨hb, hne⟩
      | succ i => rw [hshift]; exact hbs i c hc
    · rw [List.length_cons, hshift]
      exact hz

theorem zeroTerminated?_eq_some_iff :
    d.zeroTerminated? offset = some bytes ↔ d.StringAt offset bytes := by
  fun_induction zeroTerminated? d offset generalizing bytes with
  | case1 offset h hz =>
    have hget : d[offset]? = some 0 := by rw [Array.getElem?_eq_getElem h, hz]
    cases bytes with
    | nil => simp [stringAt_nil, hget]
    | cons b bs =>
      rw [stringAt_cons, hget]
      refine ⟨nofun, ?_⟩
      rintro ⟨hb, hne, -⟩
      exact absurd (Option.some.inj hb).symm hne
  | case2 offset h hz ih =>
    have hget : d[offset]? = some d[offset] := Array.getElem?_eq_getElem h
    rw [Option.map_eq_some_iff]
    constructor
    · rintro ⟨bs, hbs, rfl⟩
      exact stringAt_cons.mpr ⟨hget, hz, ih.mp hbs⟩
    · intro hs
      cases bytes with
      | nil => exact absurd (Option.some.inj (hget.symm.trans (stringAt_nil.mp hs))) hz
      | cons b bs =>
        obtain ⟨hb, -, hbs⟩ := stringAt_cons.mp hs
        cases hget.symm.trans hb
        exact ⟨bs, ih.mpr hbs, rfl⟩
  | case3 offset h =>
    have hget : d[offset]? = none := Array.getElem?_eq_none (Nat.le_of_not_lt h)
    cases bytes with
    | nil => simp [stringAt_nil, hget]
    | cons b bs => simp [stringAt_cons, hget]

theorem cString_eq_ok_iff : d.cString offset = .ok bytes ↔ d.StringAt offset bytes := by
  rw [← zeroTerminated?_eq_some_iff, cString]
  split
  · next hlt =>
    have hn : d.zeroTerminated? offset = none := by
      rw [zeroTerminated?, dif_neg (Nat.not_lt_of_lt hlt)]
    simp [hn]
  · cases d.zeroTerminated? offset <;> simp

end Bytes

/-! ### Readings that may stop -/

section Readings

variable {ε β : Type} {b : β}

/-- What goes on only where nothing is wrong. -/
theorem guard_eq_ok_iff {wrong : Prop} [Decidable wrong] {e : ε} {k : PUnit → Except ε β} :
    (if wrong then throw e >>= k else k ⟨⟩) = .ok b ↔ ¬wrong ∧ k ⟨⟩ = .ok b := by
  split
  · next h => exact ⟨nofun, fun h' => absurd h h'.1⟩
  · next h => simp [h]

end Readings

/-! ### Sections -/

namespace Section

variable {d : Bytes} {offset address count : Nat} {s : Section} {sections : List Section}

theorem readAt_eq_ok_iff : readAt d offset = .ok s ↔ HeaderAt d offset s := by
  obtain ⟨virtualSize, virtualAddress, rawSize, rawOffset⟩ := s
  simp only [readAt, bind_eq_ok_iff, Bytes.word32_eq_ok_iff]
  constructor
  · rintro ⟨a, ha, b, hb, c, hc, e, he, h⟩
    cases h
    exact ⟨ha, hb, hc, he⟩
  · rintro ⟨ha, hb, hc, he⟩
    exact ⟨_, ha, _, hb, _, hc, _, he, rfl⟩

theorem tableAt_cons : TableAt d offset (s :: sections) ↔
    HeaderAt d offset s ∧ TableAt d (offset + 40) sections := by
  have hshift : ∀ i, offset + 40 * (i + 1) = offset + 40 + 40 * i := fun i => by omega
  constructor
  · intro h
    refine ⟨h 0 s rfl, fun i t ht => ?_⟩
    rw [← hshift]
    exact h (i + 1) t ht
  · rintro ⟨hs, h⟩ i t ht
    cases i with
    | zero => cases ht; exact hs
    | succ i => rw [hshift]; exact h i t ht

theorem readAllAt_eq_ok_iff : readAllAt d count offset = .ok sections ↔
    sections.length = count ∧ TableAt d offset sections := by
  induction count generalizing offset sections with
  | zero =>
    rw [readAllAt, List.length_eq_zero_iff]
    constructor
    · intro h
      cases h
      exact ⟨rfl, fun i s hs => by cases hs⟩
    · rintro ⟨rfl, -⟩
      rfl
  | succ count ih =>
    simp only [readAllAt, bind_eq_ok_iff, readAt_eq_ok_iff, ih]
    constructor
    · rintro ⟨s, hs, more, ⟨rfl, hmore⟩, h⟩
      cases h
      exact ⟨rfl, tableAt_cons.mpr ⟨hs, hmore⟩⟩
    · rintro ⟨hlen, h⟩
      cases sections with
      | nil => cases hlen
      | cons s more =>
        obtain ⟨hs, hmore⟩ := tableAt_cons.mp h
        exact ⟨s, hs, more, ⟨Nat.succ.inj hlen, hmore⟩, rfl⟩

theorem fileOffset?_eq_some_iff : s.fileOffset? address = some offset ↔
    s.Holds address ∧ offset = address - s.virtualAddress + s.rawOffset := by
  unfold fileOffset? Holds
  split
  · next h => simp [h, eq_comm]
  · next h => simp [h]

theorem fileOffset?_eq_none_iff : s.fileOffset? address = none ↔ ¬s.Holds address := by
  unfold fileOffset? Holds
  split
  · next h => simp [h]
  · next h => simp [h]

theorem findSome?_eq_some_iff :
    sections.findSome? (·.fileOffset? address) = some offset ↔ Maps sections address offset := by
  induction sections with
  | nil =>
    refine ⟨nofun, ?_⟩
    rintro ⟨i, s, hs, -⟩
    cases hs
  | cons s more ih =>
    rw [List.findSome?_cons]
    cases hf : s.fileOffset? address with
    | some o =>
      obtain ⟨hh, rfl⟩ := fileOffset?_eq_some_iff.mp hf
      constructor
      · intro h
        cases h
        exact ⟨0, s, rfl, hh, fun j t hj => absurd hj (Nat.not_lt_zero j), rfl⟩
      · rintro ⟨i, t, ht, -, hfirst, rfl⟩
        cases i with
        | zero => cases ht; rfl
        | succ i => exact absurd hh (hfirst 0 s (Nat.succ_pos i) rfl)
    | none =>
      have hh := fileOffset?_eq_none_iff.mp hf
      simp only [ih]
      constructor
      · rintro ⟨i, t, ht, hholds, hfirst, rfl⟩
        refine ⟨i + 1, t, ht, hholds, fun j u hj hu => ?_, rfl⟩
        cases j with
        | zero => cases hu; exact hh
        | succ j => exact hfirst j u (Nat.lt_of_succ_lt_succ hj) hu
      · rintro ⟨i, t, ht, hholds, hfirst, rfl⟩
        cases i with
        | zero => cases ht; exact absurd hholds hh
        | succ i =>
          exact ⟨i, t, ht, hholds, fun j u hj hu => hfirst (j + 1) u (Nat.succ_lt_succ hj) hu, rfl⟩

end Section

/-! ### Names and images -/

namespace Image

variable {d : Bytes} {offset address count : Nat} {sections : List Section} {names : List String}

theorem fileOffset_eq_ok_iff :
    fileOffset sections address = .ok offset ↔ Section.Maps sections address offset := by
  rw [← Section.findSome?_eq_some_iff, fileOffset]
  cases sections.findSome? (·.fileOffset? address) <;> simp

theorem readNamesAt_eq_ok_iff : readNamesAt d sections count offset = .ok names ↔
    names.length = count ∧ ∀ i name, names[i]? = some name → NameAt d sections offset i name := by
  induction count generalizing offset names with
  | zero =>
    rw [readNamesAt, List.length_eq_zero_iff]
    constructor
    · intro h
      cases h
      exact ⟨rfl, fun i s hs => by cases hs⟩
    · rintro ⟨rfl, -⟩
      rfl
  | succ count ih =>
    simp only [readNamesAt, bind_eq_ok_iff, Bytes.word32_eq_ok_iff, fileOffset_eq_ok_iff,
      Bytes.cString_eq_ok_iff, ih]
    have hshift : ∀ i, offset + 4 * (i + 1) = offset + 4 + 4 * i := fun i => by omega
    constructor
    · rintro ⟨address, ha, o, ho, bytes, hb, more, ⟨rfl, hmore⟩, h⟩
      cases h
      refine ⟨rfl, fun i name hn => ?_⟩
      cases i with
      | zero => cases hn; exact ⟨address, o, bytes, ha, ho, hb, rfl⟩
      | succ i =>
        rw [NameAt, hshift]
        exact hmore i name hn
    · rintro ⟨hlen, h⟩
      cases names with
      | nil => cases hlen
      | cons name more =>
        obtain ⟨address, o, bytes, ha, ho, hb, rfl⟩ := h 0 _ rfl
        refine ⟨address, ha, o, ho, bytes, hb, more, ⟨Nat.succ.inj hlen, fun i name hn => ?_⟩, rfl⟩
        rw [NameAt, ← hshift]
        exact h (i + 1) name hn

/-- The names of the table, whose address is looked up only where there are names. -/
theorem readTable_eq_ok_iff : (if count = 0 then pure [] else
      fileOffset sections address >>= readNamesAt d sections count) = .ok names ↔
    names.length = count ∧ (names ≠ [] → ∃ offset, Section.Maps sections address offset ∧
      ∀ i name, names[i]? = some name → NameAt d sections offset i name) := by
  by_cases hz : count = 0
  · rw [if_pos hz, hz, List.length_eq_zero_iff]
    constructor
    · intro h
      cases h
      exact ⟨rfl, fun hne => absurd rfl hne⟩
    · rintro ⟨rfl, -⟩
      rfl
  · simp only [if_neg hz, bind_eq_ok_iff, fileOffset_eq_ok_iff, readNamesAt_eq_ok_iff]
    constructor
    · rintro ⟨offset, hmaps, hlen, hnames⟩
      exact ⟨hlen, fun _ => ⟨offset, hmaps, hnames⟩⟩
    · rintro ⟨rfl, h⟩
      have hne : names ≠ [] := fun he => hz (by rw [he]; rfl)
      obtain ⟨offset, hmaps, hnames⟩ := h hne
      exact ⟨offset, hmaps, rfl, hnames⟩

theorem exports_eq_ok_iff : exports d = .ok names ↔ Lists d names := by
  simp only [exports_eq_exportsByOffset, exportsByOffset, exportEntryDistance, bind_eq_ok_iff,
    guard_eq_ok_iff, Bytes.word16_eq_ok_iff, Bytes.word32_eq_ok_iff, Classical.not_not]
  constructor
  · rintro ⟨_, hmagic, rfl, header, hheader, _, hsignature, rfl, machine, hmachine, sectionCount,
      hcount, address, haddress, size, hsize, h⟩
    have hentry : EntryAt d sectionCount _ address :=
      ⟨hmagic, ⟨header, machine, hheader, hsignature, hmachine, hcount, rfl⟩, haddress, size, hsize⟩
    by_cases hz : address = 0
    · rw [if_pos hz] at h
      cases h
      exact .none _ _ (hz ▸ hentry) rfl
    · simp only [if_neg hz, bind_eq_ok_iff, Section.readAllAt_eq_ok_iff, fileOffset_eq_ok_iff,
        Bytes.word32_eq_ok_iff, readTable_eq_ok_iff] at h
      obtain ⟨sections, ⟨rfl, htable⟩, start, hmaps, _, hnumber, table, hnames, rfl, heach⟩ := h
      exact .directory _ _ _ _ _ hentry hz htable hmaps hnumber hnames heach
  · intro h
    cases h with
    | none sectionCount entry hentry hempty =>
      obtain ⟨hmagic, ⟨header, machine, hheader, hsignature, hmachine, hcount, rfl⟩, haddress, size,
        hsize⟩ := hentry
      exact ⟨_, hmagic, rfl, header, hheader, _, hsignature, rfl, machine, hmachine, sectionCount,
        hcount, 0, haddress, size, hsize, by rw [if_pos rfl, hempty]; rfl⟩
    | directory sections entry address start table hentry hz htable hmaps hnumber hnames heach =>
      obtain ⟨hmagic, ⟨header, machine, hheader, hsignature, hmachine, hcount, rfl⟩, haddress, size,
        hsize⟩ := hentry
      refine ⟨_, hmagic, rfl, header, hheader, _, hsignature, rfl, machine, hmachine, _, hcount,
        address, haddress, size, hsize, ?_⟩
      simp only [if_neg hz, bind_eq_ok_iff, Section.readAllAt_eq_ok_iff, fileOffset_eq_ok_iff,
        Bytes.word32_eq_ok_iff, readTable_eq_ok_iff]
      exact ⟨sections, ⟨rfl, htable⟩, start, hmaps, _, hnumber, table, hnames, rfl, heach⟩

/-- **Reading exports.** Reading with a cursor succeeds with a list of names exactly when the image
lists these names, and a name that is written as UTF-8 is read as it is written. -/
theorem exports_eq_ok_iff_lists (d : Bytes) (names : List String) :
    (exports d = .ok names ↔ Lists d names) ∧
    ∀ text : String, String.ofList (Text.decodeUtf8 text.toByteArray.data.toList) = text := by
  refine ⟨exports_eq_ok_iff, fun text => ?_⟩
  have h : text.toByteArray.data.toList = text.toList.flatMap String.utf8EncodeChar := by
    rw [← String.utf8Encode_toList, List.utf8Encode]
    simp
  rw [h, Text.decodeUtf8_encode, String.ofList_toList]

end Image

end Bindery
