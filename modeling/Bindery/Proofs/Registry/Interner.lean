import Bindery.NameTable

/-!
# Names stand for strings

What an interner answers to any sequence of calls (`log_stands_for_strings`). It holds the strings
that were interned, each once and in the order in which they came, so a string and its place tell
each other (`Valid.get?_eq_some_iff`). A table with an index keeps the two sides inverse to each
other and answers the same until it is full (`NameTable.Mirrors.run?`).
-/

namespace Bindery

theorem getElem?_push_of_eq_some {α : Type} {xs : Array α} {i : Nat} {a : α} (h : xs[i]? = some a)
    (b : α) : (xs.push b)[i]? = some a := by
  obtain ⟨hlt, -⟩ := Array.getElem?_eq_some_iff.mp h
  rw [Array.getElem?_push, if_neg (Nat.ne_of_lt hlt), h]

namespace Interner

variable {t : Interner} {s s' : String} {n n' : Name} {i : Nat}

/-! ### Strings and their places -/

/-- The strings are distinct, and the first one is empty. -/
structure Valid (t : Interner) : Prop where
  nodup : t.strings.toList.Nodup
  first : t.strings[0]? = some ""

theorem getElem?_of_get? (h : t.get? s = some n) : t.strings[n.raw]? = some s := by
  obtain ⟨⟨strings⟩⟩ := t
  obtain ⟨i, hi, rfl⟩ := Option.map_eq_some_iff.mp h
  rw [List.idxOf?_toArray] at hi
  obtain ⟨hlt, he, -⟩ := List.idxOf?_eq_some_iff.mp hi
  rw [← Array.getElem?_toList]
  exact List.getElem?_eq_some_iff.mpr ⟨hlt, he⟩

theorem get?_eq_none_iff : t.get? s = none ↔ s ∉ t.strings := by
  rw [get?, Option.map_eq_none_iff, Array.idxOf?_eq_none_iff]

namespace Valid

theorem new : Valid new := ⟨List.pairwise_singleton _ _, rfl⟩

/-- No string stands in two places. -/
theorem eq_of_getElem? {j : Nat} (h : t.Valid) (hi : t.strings[i]? = some s)
    (hj : t.strings[j]? = some s) : i = j := by
  rw [← Array.getElem?_toList] at hi hj
  obtain ⟨hlt, -⟩ := List.getElem?_eq_some_iff.mp hi
  exact (List.getElem?_inj hlt h.nodup).mp (hi.trans hj.symm)

theorem get?_eq_some_iff (h : t.Valid) : t.get? s = some n ↔ t.strings[n.raw]? = some s := by
  refine ⟨getElem?_of_get?, fun hn => ?_⟩
  cases hg : t.get? s with
  | none => exact absurd (Array.mem_of_getElem? hn) (get?_eq_none_iff.mp hg)
  | some n' => exact congrArg (some ∘ Name.mk) (h.eq_of_getElem? (getElem?_of_get? hg) hn)

theorem push (h : t.Valid) (hs : s ∉ t.strings) : Valid ⟨t.strings.push s⟩ := by
  refine ⟨?_, ?_⟩
  · rw [Array.toList_push, List.nodup_append]
    refine ⟨h.nodup, List.pairwise_singleton _ _, ?_⟩
    rintro a ha b hb rfl
    exact hs (Array.mem_toList_iff.mp (List.mem_singleton.mp hb ▸ ha))
  · exact getElem?_push_of_eq_some h.first s

end Valid

/-! ### Interning -/

theorem intern_cases (t : Interner) (s : String) :
    (∃ n, t.get? s = some n ∧ t.intern s = (n, t)) ∨
      (t.get? s = none ∧ t.intern s = (⟨t.strings.size⟩, ⟨t.strings.push s⟩)) := by
  rw [intern]
  cases h : t.get? s with
  | none => exact .inr ⟨rfl, rfl⟩
  | some n => exact .inl ⟨n, rfl, rfl⟩

theorem Valid.intern (h : t.Valid) (s : String) : (t.intern s).2.Valid := by
  rcases intern_cases t s with ⟨n, -, hi⟩ | ⟨hg, hi⟩ <;> rw [hi]
  · exact h
  · exact h.push (get?_eq_none_iff.mp hg)

/-- The name of a string leads back to it. -/
theorem getElem?_intern_self (t : Interner) (s : String) :
    (t.intern s).2.strings[(t.intern s).1.raw]? = some s := by
  rcases intern_cases t s with ⟨n, hg, hi⟩ | ⟨-, hi⟩ <;> rw [hi]
  · exact getElem?_of_get? hg
  · exact Array.getElem?_push_size

/-- A string stays in its place. -/
theorem getElem?_intern (h : t.strings[i]? = some s') (s : String) :
    (t.intern s).2.strings[i]? = some s' := by
  rcases intern_cases t s with ⟨n, -, hi⟩ | ⟨-, hi⟩ <;> rw [hi]
  · exact h
  · exact getElem?_push_of_eq_some h s

/-- A place that is new belongs to the string that was interned. -/
theorem eq_of_size_le (h : t.size ≤ i) (hi : i < (t.intern s).2.size) : (t.intern s).1 = ⟨i⟩ := by
  rcases intern_cases t s with ⟨n, -, he⟩ | ⟨-, he⟩ <;> rw [he] at hi ⊢
  · exact absurd hi (Nat.not_lt.mpr h)
  · simp only [size, Array.size_push] at h hi
    rw [Nat.le_antisymm h (Nat.le_of_lt_succ hi)]

theorem toList_strings_intern (t : Interner) (s : String) :
    (t.intern s).2.strings.toList = t.strings.toList ++ [s].removeAll t.strings.toList := by
  rcases intern_cases t s with ⟨n, hg, hi⟩ | ⟨hg, hi⟩ <;> rw [hi]
  · have hm : s ∈ t.strings := Array.mem_of_getElem? (getElem?_of_get? hg)
    simp [List.removeAll, hm]
  · have hm : s ∉ t.strings := get?_eq_none_iff.mp hg
    simp [List.removeAll, hm]

/-! ### Calls and answers -/

/-- A call on an interner. -/
inductive Call where
  | intern (s : String)
  | get (s : String)
  | lookup (name : Name)
deriving DecidableEq, Repr

/-- A call with its answer. -/
inductive Event where
  /-- The string was interned and has this name. -/
  | interned (s : String) (name : Name)
  /-- The name of the string was asked for, if it has one. -/
  | got (s : String) (name : Option Name)
  /-- The string of the name was asked for. -/
  | read (name : Name) (s : String)
deriving DecidableEq, Repr

/-- The string that a call interns. -/
def Call.interned? : Call → Option String
  | intern s => some s
  | _ => none

/-- The call that was answered. -/
def Event.call : Event → Call
  | interned s _ => .intern s
  | got s _ => .get s
  | read name _ => .lookup name

/-- The answer to a call, and the interner after it. -/
def perform (t : Interner) : Call → Event × Interner
  | .intern s => (.interned s (t.intern s).1, (t.intern s).2)
  | .get s => (.got s (t.get? s), t)
  | .lookup name => (.read name (t.lookup name), t)

/-- The interner after a sequence of calls. -/
def after (t : Interner) (calls : List Call) : Interner :=
  calls.foldl (fun t call => (t.perform call).2) t

/-- The answers to a sequence of calls. -/
def log (t : Interner) : List Call → List Event
  | [] => []
  | call :: calls => (t.perform call).1 :: log (t.perform call).2 calls

/-- The empty string and those that calls intern, each once, in the order in which they come. -/
def known (calls : List Call) : List String := ("" :: calls.filterMap Call.interned?).eraseDups

variable {calls : List Call}

@[simp] theorem after_nil (t : Interner) : t.after [] = t := rfl

@[simp] theorem after_cons (t : Interner) (call : Call) (calls : List Call) :
    t.after (call :: calls) = (t.perform call).2.after calls := rfl

theorem call_perform (t : Interner) (call : Call) : (t.perform call).1.call = call := by
  cases call <;> rfl

theorem Valid.perform (h : t.Valid) (call : Call) : (t.perform call).2.Valid := by
  cases call with
  | intern s => exact h.intern s
  | get s => exact h
  | lookup n => exact h

theorem getElem?_perform (h : t.strings[i]? = some s) (call : Call) :
    (t.perform call).2.strings[i]? = some s := by
  cases call with
  | intern s' => exact getElem?_intern h s'
  | get s' => exact h
  | lookup n => exact h

theorem toList_strings_perform (t : Interner) (call : Call) :
    (t.perform call).2.strings.toList =
      t.strings.toList ++ call.interned?.toList.removeAll t.strings.toList := by
  cases call with
  | intern s => exact toList_strings_intern t s
  | get s => exact (List.append_nil _).symm
  | lookup n => exact (List.append_nil _).symm

/-! ### Runs -/

theorem Valid.after (h : t.Valid) (calls : List Call) : (t.after calls).Valid := by
  induction calls generalizing t with
  | nil => exact h
  | cons call calls ih => exact ih (h.perform call)

theorem getElem?_after (h : t.strings[i]? = some s) (calls : List Call) :
    (t.after calls).strings[i]? = some s := by
  induction calls generalizing t with
  | nil => exact h
  | cons call calls ih => exact ih (getElem?_perform h call)

theorem size_le_after (t : Interner) (calls : List Call) : t.size ≤ (t.after calls).size := by
  refine Nat.le_of_not_lt fun hlt => ?_
  have h := getElem?_after (Array.getElem?_eq_getElem hlt) calls
  exact Nat.lt_irrefl _ (Array.getElem?_eq_some_iff.mp h).1

theorem map_call_log (t : Interner) (calls : List Call) : (t.log calls).map Event.call = calls := by
  induction calls generalizing t with
  | nil => rfl
  | cons call calls ih => rw [log, List.map_cons, call_perform, ih]

/-- Every answer is given by the interner that the calls before it lead to. -/
theorem eq_of_log_eq_append {before rest : List Event} {e : Event}
    (h : t.log calls = before ++ e :: rest) :
    t.log (before.map Event.call) = before ∧
      ((t.after (before.map Event.call)).perform e.call).1 = e := by
  induction before generalizing t calls with
  | nil =>
    cases calls with
    | nil => cases h
    | cons call calls =>
      obtain ⟨rfl, -⟩ := List.cons.inj h
      exact ⟨rfl, congrArg (fun c => (t.perform c).1) (call_perform t call)⟩
  | cons e' before ih =>
    cases calls with
    | nil => cases h
    | cons call calls =>
      obtain ⟨rfl, h'⟩ := List.cons.inj h
      obtain ⟨hlog, he⟩ := ih h'
      rw [List.map_cons, call_perform, log, hlog, after_cons]
      exact ⟨rfl, he⟩

/-- A string that was interned stands where its name says, from then on. -/
theorem getElem?_of_mem_log (h : .interned s n ∈ t.log calls) :
    (t.after calls).strings[n.raw]? = some s := by
  induction calls generalizing t with
  | nil => cases h
  | cons call calls ih =>
    rcases List.mem_cons.mp h with he | h
    · cases call with
      | intern s' =>
        cases he
        exact getElem?_after (getElem?_intern_self t s) calls
      | get s' => cases he
      | lookup n' => cases he
    · exact ih h

/-- Every place that is new was given to a string that was interned. -/
theorem exists_mem_log (h : t.size ≤ i) (hi : i < (t.after calls).size) :
    ∃ s, .interned s ⟨i⟩ ∈ t.log calls := by
  induction calls generalizing t with
  | nil => exact absurd hi (Nat.not_lt.mpr h)
  | cons call calls ih =>
    by_cases hlt : (t.perform call).2.size ≤ i
    · obtain ⟨s, hs⟩ := ih hlt hi
      exact ⟨s, List.mem_cons_of_mem _ hs⟩
    · cases call with
      | intern s =>
        have he : .interned s ⟨i⟩ = (t.perform (.intern s)).1 :=
          congrArg (Event.interned s) (eq_of_size_le h (Nat.lt_of_not_le hlt)).symm
        exact ⟨s, he ▸ List.mem_cons_self⟩
      | get s => exact absurd h hlt
      | lookup n => exact absurd h hlt

theorem toList_strings_after {ss : List String} (h : t.strings.toList = ss.eraseDups)
    (calls : List Call) :
    (t.after calls).strings.toList = (ss ++ calls.filterMap Call.interned?).eraseDups := by
  induction calls generalizing t ss with
  | nil => rw [List.filterMap_nil, List.append_nil, after_nil, h]
  | cons call calls ih =>
    -- `ss` takes over the string of the first call, whether or not it is a new one
    have hp : (t.perform call).2.strings.toList = (ss ++ call.interned?.toList).eraseDups := by
      rw [toList_strings_perform, List.eraseDups_append, h]
      congr 1
      cases call.interned? with
      | none => rfl
      | some s => by_cases hs : s ∈ ss <;> simp [List.removeAll, hs, List.eraseDups_cons]
    rw [after_cons, ih hp, List.append_assoc]
    cases hc : call.interned? <;> simp [hc]

theorem toList_strings_new (calls : List Call) : (new.after calls).strings.toList = known calls :=
  toList_strings_after (show new.strings.toList = [""].eraseDups from rfl) calls

theorem size_after_new (calls : List Call) : (new.after calls).size = (known calls).length := by
  rw [← toList_strings_new, Array.length_toList]
  rfl

/-! ### Runs of a new interner -/

theorem valid_after_new (calls : List Call) : (new.after calls).Valid := Valid.new.after calls

/-- The string has the name after the answered calls. The empty string has one from the start. -/
def Named (log : List Event) (s : String) (n : Name) : Prop :=
  s = "" ∧ n = .empty ∨ .interned s n ∈ log

/-- The strings stand in the places that the log tells of, and in no others. -/
theorem getElem?_after_new_iff (calls : List Call) (s : String) (n : Name) :
    (new.after calls).strings[n.raw]? = some s ↔ Named (new.log calls) s n := by
  have hfirst := (valid_after_new calls).first
  constructor
  · intro hn
    have hlt := (Array.getElem?_eq_some_iff.mp hn).1
    rcases Nat.eq_zero_or_pos n.raw with h0 | hpos
    · rw [h0, hfirst] at hn
      exact .inl ⟨(Option.some.inj hn).symm, congrArg Name.mk h0⟩
    · -- a place after the first one is new, so its string was interned
      obtain ⟨s', hs'⟩ := exists_mem_log (t := new) hpos hlt
      have he := getElem?_of_mem_log hs'
      rw [hn] at he
      obtain rfl := Option.some.inj he
      exact .inr hs'
  · rintro (⟨rfl, rfl⟩ | h)
    · exact hfirst
    · exact getElem?_of_mem_log h

theorem lt_size_after_new_iff (calls : List Call) (k : Nat) :
    k < (new.after calls).size ↔ ∃ s, Named (new.log calls) s ⟨k⟩ := by
  simp only [← getElem?_after_new_iff, Array.getElem?_eq_some_iff]
  exact ⟨fun hk => ⟨_, hk, rfl⟩, fun ⟨_, hk, _⟩ => hk⟩

/-- Two names are one when the strings are. -/
theorem Named.eq_iff (h : Named (new.log calls) s n) (h' : Named (new.log calls) s' n') :
    n = n' ↔ s = s' := by
  rw [← getElem?_after_new_iff] at h h'
  constructor
  · rintro rfl
    exact Option.some.inj (h.symm.trans h')
  · rintro rfl
    exact congrArg Name.mk ((valid_after_new calls).eq_of_getElem? h h')

theorem lookup_after_new (h : Named (new.log calls) s n) : (new.after calls).lookup n = s := by
  rw [lookup, (getElem?_after_new_iff calls s n).mpr h]
  rfl

theorem lookup_of_size_le (h : t.size ≤ n.raw) : t.lookup n = "" := by
  rw [lookup, Array.getElem?_eq_none h]
  rfl

theorem get?_after_new_iff (calls : List Call) (s : String) (n : Name) :
    (new.after calls).get? s = some n ↔ Named (new.log calls) s n := by
  rw [(valid_after_new calls).get?_eq_some_iff, getElem?_after_new_iff]

end Interner

/-! ### The two sides of a table -/

namespace NameTable

open Interner (Call Event)

variable {table : NameTable} {t : Interner} {s : String} {call : Call} {calls : List Call}

/-- The answer to a call, and the table after it; a full table cannot intern a new string. -/
def perform? (table : NameTable) : Call → Option (Event × NameTable)
  | .intern s => (table.intern? s).map fun (name, table) => (.interned s name, table)
  | .get s => some (.got s (table.get? s), table)
  | .lookup name => some (.read name (table.lookup name), table)

/-- The answers to a sequence of calls, and the table after them. -/
def run? (table : NameTable) : List Call → Option (List Event × NameTable)
  | [] => some ([], table)
  | call :: calls => (table.perform? call).bind fun (event, table) =>
    (table.run? calls).map fun (events, table) => (event :: events, table)

/-- The table has the strings of the interner, and its index is inverse to them. -/
structure Mirrors (table : NameTable) (t : Interner) : Prop where
  strings : table.strings = t.strings
  get?_eq_some_iff : ∀ {s n}, table.get? s = some n ↔ table.strings[n.raw]? = some s

namespace Mirrors

theorem push (h : table.Mirrors t) (hs : table.get? s = none) :
    Mirrors ⟨(s, ⟨table.strings.size⟩) :: table.index, table.strings.push s⟩
      ⟨t.strings.push s⟩ := by
  refine ⟨by rw [h.strings], fun {s' n} => ?_⟩
  by_cases he : s' = s
  · subst he
    rw [get?, List.lookup_cons_self]
    constructor
    · rintro ⟨⟩
      exact Array.getElem?_push_size
    · intro hn
      rw [Array.getElem?_push] at hn
      split at hn
      · next hr => rw [← hr]
      · -- the string stood in no place before
        rw [← h.get?_eq_some_iff, hs] at hn
        cases hn
  · rw [get?, List.lookup_cons, beq_false_of_ne he]
    constructor
    · exact fun hn => getElem?_push_of_eq_some (h.get?_eq_some_iff.mp hn) s
    · intro hn
      rw [Array.getElem?_push] at hn
      split at hn
      · exact absurd (Option.some.inj hn).symm he
      · exact h.get?_eq_some_iff.mpr hn

theorem new : Mirrors .new .new := by
  have hnone : Mirrors ⟨[], #[]⟩ ⟨#[]⟩ := ⟨rfl, by simp [get?]⟩
  exact hnone.push rfl

theorem get?_eq (h : table.Mirrors t) (ht : t.Valid) (s : String) : table.get? s = t.get? s :=
  Option.ext fun n => by rw [h.get?_eq_some_iff, ht.get?_eq_some_iff, h.strings]

theorem lookup_eq (h : table.Mirrors t) (n : Name) : table.lookup n = t.lookup n := by
  rw [lookup, Interner.lookup, h.strings]

theorem intern? (h : table.Mirrors t) (ht : t.Valid)
    (hle : (t.intern s).2.size ≤ capacity) :
    ∃ table', table.intern? s = some ((t.intern s).1, table') ∧ table'.Mirrors (t.intern s).2 := by
  rw [NameTable.intern?, h.get?_eq ht]
  rcases Interner.intern_cases t s with ⟨n, hg, hi⟩ | ⟨hg, hi⟩ <;> rw [hi] at hle ⊢ <;> rw [hg]
  · exact ⟨table, rfl, h⟩
  · rw [Interner.size, Array.size_push, ← h.strings] at hle
    refine ⟨_, by rw [← h.strings]; exact if_pos hle, h.push ?_⟩
    rw [h.get?_eq ht, hg]

theorem intern?_eq_none (h : table.Mirrors t) (ht : t.Valid) (hle : t.size ≤ capacity)
    (hlt : capacity < (t.intern s).2.size) : table.intern? s = none := by
  rw [NameTable.intern?, h.get?_eq ht]
  rcases Interner.intern_cases t s with ⟨n, -, hi⟩ | ⟨hg, hi⟩ <;> rw [hi] at hlt
  · exact absurd hlt (Nat.not_lt.mpr hle)
  · rw [Interner.size, Array.size_push, ← h.strings] at hlt
    rw [hg]
    exact if_neg (Nat.not_lt.mpr (Nat.le_of_lt_succ hlt))

theorem perform? (h : table.Mirrors t) (ht : t.Valid)
    (hle : (t.perform call).2.size ≤ capacity) :
    ∃ table', table.perform? call = some ((t.perform call).1, table') ∧
      table'.Mirrors (t.perform call).2 := by
  cases call with
  | intern s =>
    obtain ⟨table', hi, h'⟩ := h.intern? ht hle
    refine ⟨table', ?_, h'⟩
    rw [NameTable.perform?, hi]
    rfl
  | get s =>
    refine ⟨table, ?_, h⟩
    rw [NameTable.perform?, h.get?_eq ht]
    rfl
  | lookup n =>
    refine ⟨table, ?_, h⟩
    rw [NameTable.perform?, h.lookup_eq]
    rfl

theorem perform?_eq_none (h : table.Mirrors t) (ht : t.Valid) (hle : t.size ≤ capacity)
    (hlt : capacity < (t.perform call).2.size) : table.perform? call = none := by
  cases call with
  | intern s =>
    rw [NameTable.perform?, h.intern?_eq_none ht hle hlt]
    rfl
  | get s => exact absurd hlt (Nat.not_lt.mpr hle)
  | lookup n => exact absurd hlt (Nat.not_lt.mpr hle)

/-- The table answers as the interner does as long as there are numbers. -/
theorem run? (h : table.Mirrors t) (ht : t.Valid) (hle : (t.after calls).size ≤ capacity) :
    ∃ table', table.run? calls = some (t.log calls, table') ∧ table'.Mirrors (t.after calls) := by
  induction calls generalizing table t with
  | nil => exact ⟨table, rfl, h⟩
  | cons call calls ih =>
    obtain ⟨table₁, hp, h₁⟩ := h.perform? ht (Nat.le_trans (Interner.size_le_after _ calls) hle)
    obtain ⟨table₂, hr, h₂⟩ := ih h₁ (ht.perform call) hle
    refine ⟨table₂, ?_, h₂⟩
    rw [NameTable.run?, hp, Option.bind_some]
    dsimp only
    rw [hr]
    rfl

theorem run?_eq_none (h : table.Mirrors t) (ht : t.Valid) (hle : t.size ≤ capacity)
    (hlt : capacity < (t.after calls).size) : table.run? calls = none := by
  induction calls generalizing table t with
  | nil => exact absurd hlt (Nat.not_lt.mpr hle)
  | cons call calls ih =>
    rw [NameTable.run?]
    by_cases hp : (t.perform call).2.size ≤ capacity
    · obtain ⟨table', ht', h'⟩ := h.perform? ht hp
      rw [ht', Option.bind_some]
      dsimp only
      rw [ih h' (ht.perform call) hp hlt]
      rfl
    · rw [h.perform?_eq_none ht hle (Nat.lt_of_not_le hp)]
      rfl

end Mirrors

theorem run?_new_eq_none_iff (calls : List Call) :
    new.run? calls = none ↔ capacity < (Interner.known calls).length := by
  rw [← Interner.size_after_new]
  constructor
  · intro h
    refine Nat.lt_of_not_le fun hle => ?_
    obtain ⟨table, hr, -⟩ := Mirrors.new.run? Interner.Valid.new hle
    rw [h] at hr
    cases hr
  · exact Mirrors.new.run?_eq_none Interner.Valid.new (by decide)

theorem run?_new_cases {log : List Event}
    (h : new.run? calls = some (log, table)) :
    log = Interner.new.log calls ∧ table.Mirrors (Interner.new.after calls) := by
  have hle : (Interner.new.after calls).size ≤ capacity := by
    rw [Interner.size_after_new]
    refine Nat.le_of_not_lt fun hlt => ?_
    rw [(run?_new_eq_none_iff calls).mpr hlt] at h
    cases h
  obtain ⟨table', hr, hm⟩ := Mirrors.new.run? Interner.Valid.new hle
  rw [h] at hr
  cases hr
  exact ⟨rfl, hm⟩

end NameTable

namespace Interner

/-- **Names stand for strings.** Of any calls on a new interner, two that intern have one name just
when they have one string. A name that was given out is read as its string from then on, and one past
the end as the empty string. A string has a name just when it is empty or was interned before, and it
is that name. The numbers are those below the size, 0 for the empty string, and follow the order in
which the strings came. A table with an index gets through the calls just when there are no more
strings than numbers; then it gives the same answers, and its two sides are inverse to each other. -/
theorem log_stands_for_strings (calls : List Call) :
    (new.log calls).map Event.call = calls ∧
    (∀ s s' n n', .interned s n ∈ new.log calls → .interned s' n' ∈ new.log calls →
      (n = n' ↔ s = s')) ∧
    (∀ before n s later, new.log calls = before ++ .read n s :: later →
      (∀ s', Named before s' n → s = s') ∧
      ((new.after (before.map Event.call)).size ≤ n.raw → s = "")) ∧
    (∀ before s r later, new.log calls = before ++ .got s r :: later →
      ∀ n, r = some n ↔ Named before s n) ∧
    ((∀ k, k < (new.after calls).size ↔ ∃ s, Named (new.log calls) s ⟨k⟩) ∧
      (∀ s n, .interned s n ∈ new.log calls → (n = .empty ↔ s = "")) ∧
      (new.after calls).strings.toList = known calls) ∧
    (NameTable.new.run? calls = none ↔ NameTable.capacity < (known calls).length) ∧
    ∀ log table, NameTable.new.run? calls = some (log, table) →
      log = new.log calls ∧ table.strings = (new.after calls).strings ∧
        ∀ s n, table.get? s = some n ↔ table.strings[n.raw]? = some s := by
  refine ⟨map_call_log new calls, fun s s' n n' h h' => Named.eq_iff (.inr h) (.inr h'), ?_, ?_,
    ⟨lt_size_after_new_iff calls, fun s n h => Named.eq_iff (.inr h) (.inl ⟨rfl, rfl⟩),
      toList_strings_new calls⟩, NameTable.run?_new_eq_none_iff calls, ?_⟩
  · intro before n s later h
    obtain ⟨hlog, he⟩ := eq_of_log_eq_append h
    obtain ⟨-, rfl⟩ := Event.read.inj he
    refine ⟨fun s' hs' => lookup_after_new ?_, lookup_of_size_le⟩
    rwa [hlog]
  · intro before s r later h n
    obtain ⟨hlog, he⟩ := eq_of_log_eq_append h
    obtain ⟨-, rfl⟩ := Event.got.inj he
    rw [get?_after_new_iff, hlog]
  · intro log table h
    obtain ⟨he, hm⟩ := NameTable.run?_new_cases h
    exact ⟨he, hm.strings, fun s n => hm.get?_eq_some_iff⟩

/-- Calls that meet two strings, one of them twice, and ask for what is not there. -/
def frameCalls : List Call :=
  [.get "AVPacket", .intern "AVFrame", .intern "AVPacket", .lookup ⟨1⟩, .get "AVPacket",
    .intern "AVFrame", .lookup ⟨3⟩, .intern ""]

/-- The answers to `frameCalls` before the string of name 1 is asked for. -/
def frameStart : List Event :=
  [.got "AVPacket" none, .interned "AVFrame" ⟨1⟩, .interned "AVPacket" ⟨2⟩]

theorem log_stands_for_strings_frame :
    new.log frameCalls = frameStart ++ [.read ⟨1⟩ "AVFrame", .got "AVPacket" (some ⟨2⟩),
      .interned "AVFrame" ⟨1⟩, .read ⟨3⟩ "", .interned "" ⟨0⟩] ∧
    ((⟨1⟩ : Name) = ⟨2⟩ ↔ "AVFrame" = "AVPacket") ∧
    (∀ s, Named frameStart s ⟨1⟩ → "AVFrame" = s) ∧
    (∀ n, none = some n ↔ Named [] "AVPacket" n) ∧
    known frameCalls = ["", "AVFrame", "AVPacket"] ∧
    ∃ table, NameTable.new.run? frameCalls = some (new.log frameCalls, table) ∧
      ∀ s n, table.get? s = some n ↔ table.strings[n.raw]? = some s := by
  have hlog : new.log frameCalls = frameStart ++ [.read ⟨1⟩ "AVFrame", .got "AVPacket" (some ⟨2⟩),
      .interned "AVFrame" ⟨1⟩, .read ⟨3⟩ "", .interned "" ⟨0⟩] := by decide +kernel
  have hknown : known frameCalls = ["", "AVFrame", "AVPacket"] := by decide
  obtain ⟨-, hnames, hread, hgot, -, hfull, htable⟩ := log_stands_for_strings frameCalls
  refine ⟨hlog, hnames _ _ _ _ (by rw [hlog]; decide) (by rw [hlog]; decide),
    (hread _ _ _ _ hlog).1, hgot [] _ _ _ hlog, hknown, ?_⟩
  cases hr : NameTable.new.run? frameCalls with
  | none =>
    rw [hfull, hknown] at hr
    exact absurd hr (by decide)
  | some r =>
    obtain ⟨log, table⟩ := r
    obtain ⟨rfl, -, hinv⟩ := htable log table hr
    exact ⟨table, rfl, hinv⟩

end Interner

end Bindery
