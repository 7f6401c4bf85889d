import Bindery.Proofs.Expr.Nesting

/-!
# No parentheses are needless

Every operand has a place (`Expr.every_placed`), and the printer puts a pair of parentheses around
it (`Expr.Pair`) when it binds looser than its place (`Expr.Slot.wrap_eq`). Without such a pair the
text lacks a parenthesis before a token (`Expr.Pair.reads`), and no derivation of the tree does, so
the text is not parsed to the tree that it stood for: `Expr.parse_without_pair`. The pairs that keep
two signs apart are left out: `- -x` needs none.
-/

namespace Bindery

/-! ### Too few parentheses -/

/-- The counts `l` are as many as those that are asked for, `n`, and do not cover them, also when as
many more parentheses are asked for before the first token as stand there. With `free`, the first
token plays no part in this. -/
structure Short (free : Prop) (n l : List Nat) : Prop where
  length : n.length = l.length
  not_covers : ∀ j k, free ∨ k ≤ j → ¬ Covers (raise k l) (raise j n)

namespace Short

variable {free : Prop} {n n' l l' : List Nat}

theorem mono {free' : Prop} (h : Short free n l) (hf : free' → free) : Short free' n l :=
  ⟨h.length, fun j k hjk => h.not_covers j k (hjk.imp_left hf)⟩

theorem ne_nil (h : Short free n l) : n ≠ [] ∧ l ≠ [] := by
  have hl : l ≠ [] := by
    rintro rfl
    obtain rfl := List.eq_nil_of_length_eq_zero h.length
    exact h.not_covers 0 0 (.inr (Nat.le_refl 0)) .nil
  refine ⟨?_, hl⟩
  rintro rfl
  exact hl (List.eq_nil_of_length_eq_zero h.length.symm)

theorem append_right (h : Short free n l) (hl : n'.length = l'.length) :
    Short free (n ++ n') (l ++ l') := by
  refine ⟨by simp [h.length, hl], fun j k hjk hc => h.not_covers j k hjk ?_⟩
  rw [raise_append h.ne_nil.1, raise_append h.ne_nil.2] at hc
  have ht := List.forall₂_take_append _ _ _ hc
  rwa [List.take_left' (by simp [h.length])] at ht

theorem append_left (h : Short False n l) (hl : n'.length = l'.length) (hne : n' ≠ []) :
    Short free (n' ++ n) (l' ++ l) := by
  have hne' : l' ≠ [] := by
    rintro rfl
    exact hne (List.eq_nil_of_length_eq_zero hl)
  refine ⟨by simp [h.length, hl], fun j k _ hc => h.not_covers 0 0 (.inr (Nat.le_refl 0)) ?_⟩
  rw [raise_append hne, raise_append hne'] at hc
  have ht := List.forall₂_drop_append _ _ _ hc
  rw [List.drop_left' (by simp [hl])] at ht
  simpa using ht

theorem cons (h : Short False n l) (m : Nat) : Short free (m :: n) (m :: l) := by
  have hb : Short free ([m] ++ n) ([m] ++ l) := h.append_left rfl (by simp)
  exact hb

/-- With another operand on the right. -/
theorem spaced (h : Short free n l) (h' : Aligned n' l') :
    Short free (n ++ 0 :: n') (l ++ 0 :: l') :=
  h.append_right (by simp [h'.length])

/-- With another operand on the left. -/
theorem behind (h' : Aligned n' l') (h : Short False n l) :
    Short free (n' ++ 0 :: n) (l' ++ 0 :: l) :=
  (h.cons 0).append_left h'.length h'.ne_nil

theorem raise (h : Short False n l) (i : Nat) : Short False (raise i n) (raise i l) := by
  refine ⟨by simp [h.length], fun j k hjk => ?_⟩
  rw [raise_raise, raise_raise]
  exact h.not_covers _ _ (hjk.imp_right fun hkj => Nat.add_le_add_right hkj i)

theorem raise_free (h : Short True n l) (k : Nat) : Short True n (Bindery.raise k l) := by
  refine ⟨by simp [h.length], fun j i _ => ?_⟩
  rw [raise_raise]
  exact h.not_covers _ _ (.inl trivial)

theorem of_aligned (h : Aligned n l) : Short False (Bindery.raise 1 n) l := by
  refine ⟨by simp [h.length], fun j k hjk hc => ?_⟩
  obtain ⟨m, h⟩ := h
  cases hc with
  | cons hle _ =>
    have hle : j + (1 + m) ≤ k + m := hle
    have := hjk.resolve_left id
    omega

end Short

namespace Expr

/-! ### Places of operands -/

/-- Where an argument stands: the text of the arguments before it and after it. -/
inductive ArgSlot : List Expr → Expr → List Char → List Char → Prop where
  | last {x} : ArgSlot [x] x [] []
  | head {x es} (h : es ≠ []) : ArgSlot (x :: es) x [] (',' :: ' ' :: argsChars es)
  | tail {e es x before after} (h : ArgSlot es x before after) :
    ArgSlot (e :: es) x (e.chars ++ ',' :: ' ' :: before) after

/-- Where an operand stands: how tightly it has to bind, and the text before it and after it. -/
inductive Slot : Expr → Nat → Expr → List Char → List Char → Prop where
  | arg {callee args x before after} (h : ArgSlot args x before after) :
    Slot (call callee args) ternaryPrecedence x (callee.toList ++ '(' :: before) (after ++ [')'])
  | unary {op x} : Slot (unary op x) unaryPrecedence x op.spelling.toList []
  | cast {target x} :
    Slot (cast target x) unaryPrecedence x ('(' :: (Ty.ofName target).spelling.toList ++ [')']) []
  | left {op x right} : Slot (binary op x right) op.precedence x []
      (' ' :: op.spelling.toList ++ ' ' :: wrapped (right.precedence ≤ op.precedence) right.chars)
  | right {op left x} : Slot (binary op left x) (op.precedence + 1) x
      (wrapped (left.precedence < op.precedence) left.chars ++
        ' ' :: op.spelling.toList ++ [' ']) []
  | cond {x thenExpr elseExpr} : Slot (ternary x thenExpr elseExpr) (ternaryPrecedence + 1) x []
      (' ' :: '?' :: ' ' :: thenExpr.chars ++ ' ' :: ':' :: ' ' :: elseExpr.chars)
  | thenExpr {cond x elseExpr} : Slot (ternary cond x elseExpr) ternaryPrecedence x
      (wrapped (cond.precedence ≤ ternaryPrecedence) cond.chars ++ [' ', '?', ' '])
      (' ' :: ':' :: ' ' :: elseExpr.chars)
  | elseExpr {cond thenExpr x} : Slot (ternary cond thenExpr x) ternaryPrecedence x
      (wrapped (cond.precedence ≤ ternaryPrecedence) cond.chars ++
        ' ' :: '?' :: ' ' :: thenExpr.chars ++ [' ', ':', ' ']) []

/-- Whether the sign in front of the expression and that in front of its operand `x` would join. -/
def joinsSign (e x : Expr) : Bool :=
  match e with
  | unary op _ => sameSign op x
  | _ => false

def isUnary : Expr → Bool
  | unary .. => true
  | _ => false

/-- The printer puts parentheses around the operand `x`, somewhere in the expression, and they are
not the ones that keep two signs apart. `before` and `after` is the text outside of the pair. -/
inductive Pair : Expr → List Char → Expr → List Char → Prop where
  | here {e level x before after} (h : Slot e level x before after)
    (hx : e.chars = before ++ (wrapped true x.chars ++ after)) (hs : e.joinsSign x = false) :
    Pair e before x after
  | inside {e level x y before after pre post} (wrap : Bool) (h : Slot e level x before after)
    (hx : e.chars = before ++ (wrapped wrap x.chars ++ after)) (hp : Pair x pre y post) :
    Pair e (before ++ ((if wrap then ['('] else []) ++ pre)) y
      (post ++ ((if wrap then [')'] else []) ++ after))

/-! ### The text around an operand -/

variable {e x : Expr} {level : Nat} {before after : List Char}

theorem isUnary_of_joinsSign (h : e.joinsSign x = true) : x.isUnary = true := by
  unfold joinsSign sameSign at h
  split at h
  · split at h <;> first | rfl | cases h
  · cases h

theorem ArgSlot.chars {args : List Expr} (h : ArgSlot args x before after) :
    argsChars args = before ++ (x.chars ++ after) := by
  induction h with
  | last => simp [argsChars]
  | head h => simp [argsChars_cons _ h]
  | @tail e es _ _ _ h ih =>
    have hne : es ≠ [] := by rintro rfl; cases h
    simp [argsChars_cons e hne, ih]

theorem ArgSlot.mem {args : List Expr} (h : ArgSlot args x before after) : x ∈ args := by
  induction h with
  | last | head => simp
  | tail _ ih => exact List.mem_cons_of_mem _ ih

theorem exists_argSlot : ∀ {args : List Expr}, x ∈ args →
    ∃ before after, ArgSlot args x before after
  | [], h => by cases h
  | e :: es, h => by
    rcases List.mem_cons.mp h with rfl | h
    · rcases es with _ | ⟨e', es⟩
      · exact ⟨_, _, .last⟩
      · exact ⟨_, _, .head (List.cons_ne_nil e' es)⟩
    · obtain ⟨before, after, h⟩ := exists_argSlot h
      exact ⟨_, _, .tail h⟩

namespace Slot

theorem mem (h : Slot e level x before after) : x ∈ e.children := by
  cases h with
  | arg h => exact h.mem
  | _ => simp [children]

/-- The printer writes an operand in its place, in parentheses where it binds looser than the place
asks for or where two signs would join. -/
theorem chars (h : Slot e level x before after) :
    e.chars = before ++ (wrapped (x.loose level || e.joinsSign x) x.chars ++ after) := by
  cases h with
  | arg h => simp [Expr.chars, h.chars, loose, ternaryPrecedence, joinsSign, wrapped]
  | unary => simp [Expr.chars, loose, joinsSign]
  | cast => simp [Expr.chars, loose, joinsSign]
  | left => simp [Expr.chars, loose, joinsSign]
  | right => simp [Expr.chars, loose, joinsSign]
  | cond => simp [Expr.chars, loose, joinsSign]
  | thenExpr => simp [Expr.chars, loose, ternaryPrecedence, joinsSign, wrapped]
  | elseExpr => simp [Expr.chars, loose, ternaryPrecedence, joinsSign, wrapped]

theorem wrap_eq {wrap : Bool} (h : Slot e level x before after)
    (hx : e.chars = before ++ (wrapped wrap x.chars ++ after)) :
    wrap = (x.loose level || e.joinsSign x) := by
  have hlen := congrArg List.length (hx.symm.trans h.chars)
  generalize (x.loose level || e.joinsSign x) = wraps at hlen
  cases wrap <;> cases wraps <;> simp [wrapped] at hlen ⊢ <;> omega

end Slot

/-- Every operand has a place. -/
theorem exists_slot (hs : e.isSizeof = false) (h : x ∈ e.children) :
    ∃ level before after, Slot e level x before after := by
  cases e with
  | literal | ident | sizeofType | sizeofTag => cases h
  | sizeofExpr => cases hs
  | call callee args =>
    have hargs : x ∈ args := h
    obtain ⟨before, after, ha⟩ := exists_argSlot hargs
    exact ⟨_, _, _, .arg ha⟩
  | unary op operand =>
    obtain rfl := List.mem_singleton.mp h
    exact ⟨_, _, _, .unary⟩
  | cast target operand =>
    obtain rfl := List.mem_singleton.mp h
    exact ⟨_, _, _, .cast⟩
  | binary op left right =>
    simp only [children, List.mem_cons, List.not_mem_nil, or_false] at h
    rcases h with rfl | rfl
    · exact ⟨_, _, _, .left⟩
    · exact ⟨_, _, _, .right⟩
  | ternary cond thenExpr elseExpr =>
    simp only [children, List.mem_cons, List.not_mem_nil, or_false] at h
    rcases h with rfl | rfl | rfl
    · exact ⟨_, _, _, .cond⟩
    · exact ⟨_, _, _, .thenExpr⟩
    · exact ⟨_, _, _, .elseExpr⟩

/-- Every operand has a place, and the printer puts parentheses around it there just when it binds
looser than the place asks for or two signs would join. -/
def Placed (e : Expr) : Prop :=
  ∀ x ∈ e.children, ∃ level before after, Slot e level x before after ∧
    e.chars = before ++ (wrapped (x.loose level || e.joinsSign x) x.chars ++ after)

theorem every_placed (h : SizeofFree e) : Every Placed e := by
  induction h with
  | node hs _ ih =>
    refine .node (fun x hx => ?_) ih
    obtain ⟨level, before, after, h⟩ := exists_slot hs hx
    exact ⟨level, before, after, h, h.chars⟩

theorem Pair.chars {pre post : List Char} (h : Pair e pre x post) :
    e.chars = pre ++ ('(' :: (x.chars ++ ')' :: post)) := by
  induction h with
  | here _ hx => simpa [wrapped] using hx
  | inside wrap _ hx _ ih =>
    rw [hx, ih]
    cases wrap <;> simp [wrapped]

theorem colon_ne_paren : Punct.colon ≠ .lParen ∧ Punct.colon ≠ .rParen := by decide

theorem question_ne_paren : Punct.question ≠ .lParen ∧ Punct.question ≠ .rParen := by decide

/-! ### Texts and the counts of their tokens -/

/-- The text begins an operand, and the counts of its tokens are related to `n`. -/
def Reads (R : List Nat → List Nat → Prop) (n : List Nat) (cs : List Char) : Prop :=
  Starts cs ∧ ∃ ks l, LexesOnto cs ks ∧ Counts ks l ∧ R n l

namespace Reads

variable {R R' S : List Nat → List Nat → Prop} {m n : List Nat} {cs cs' : List Char}

theorem imp (h : Reads R n cs) (hR : ∀ l, R n l → S m l) : Reads S m cs := by
  obtain ⟨hst, ks, l, hlex, hc, hl⟩ := h
  exact ⟨hst, ks, l, hlex, hc, hR l hl⟩

theorem of_readable (hr : Readable e) (hs : SizeofFree e) : Reads Aligned e.needs e.chars := by
  obtain ⟨l, hc, hl⟩ := exists_counts_kinds hs
  exact ⟨starts_chars hr, e.kinds, l, lexesOnto_chars hr, hc, hl⟩

theorem wrapped (h : Reads R n cs) (wrap : Bool) (hR : ∀ l, R n l → S m (raise wrap.toNat l)) :
    Reads S m (wrapped wrap cs) := by
  obtain ⟨hst, ks, l, hlex, hc, hl⟩ := h
  exact ⟨hst.wrapped wrap, _, _, hlex.wrapped wrap, hc.wrapped wrap, hR l hl⟩

theorem spaced {p : Punct} (hp : p ≠ .lParen ∧ p ≠ .rParen) (h : Reads R n cs)
    (h' : Reads R' m cs') (hR : ∀ l l', R n l → R' m l' → S (n ++ 0 :: m) (l ++ 0 :: l')) :
    Reads S (n ++ 0 :: m) (cs ++ ' ' :: (p.spelling ++ ' ' :: cs')) := by
  obtain ⟨hst, ks, l, hlex, hc, hl⟩ := h
  obtain ⟨-, ks', l', hlex', hc', hl'⟩ := h'
  exact ⟨hst.append _, _, _, hlex.spaced p hlex',
    hc.append (hc'.cons (by simpa using hp.1) (by simpa using hp.2)), hR l l' hl hl'⟩

theorem comma (h : Reads R n cs) (h' : Reads R' m cs')
    (hR : ∀ l l', R n l → R' m l' → S (n ++ 0 :: m) (l ++ 0 :: l')) :
    Reads S (n ++ 0 :: m) (cs ++ ',' :: ' ' :: cs') := by
  obtain ⟨hst, ks, l, hlex, hc, hl⟩ := h
  obtain ⟨-, ks', l', hlex', hc', hl'⟩ := h'
  exact ⟨hst.append _, _, _, hlex.comma hlex', hc.append (hc'.cons (by simp) (by simp)),
    hR l l' hl hl'⟩

theorem call {name : String} (hn : IsName name) (h : Reads R n cs)
    (hR : ∀ l, R n l → S (0 :: raise 1 n) (0 :: raise 1 l)) :
    Reads S (0 :: raise 1 n) (name.toList ++ '(' :: (cs ++ [')'])) := by
  obtain ⟨-, ks, l, hlex, hc, hl⟩ := h
  exact ⟨(starts_of_isName hn).append _, _, _, hlex.call hn, hc.paren.cons (by simp) (by simp),
    hR l hl⟩

theorem unary (op : UnaryOp) (h : Reads R n cs) (hR : ∀ l, R n l → S (0 :: n) (0 :: l)) :
    Reads S (0 :: n) (op.spelling.toList ++ cs) := by
  obtain ⟨hst, ks, l, hlex, hc, hl⟩ := h
  exact ⟨starts_unary op cs, _, _, .unary op hst hlex,
    hc.cons (by cases op <;> decide) (by cases op <;> decide), hR l hl⟩

theorem cast {name : String} (hn : IsName name) (h : Reads R n cs)
    (hR : ∀ l, R n l → S (1 :: n) (1 :: l)) :
    Reads S (1 :: n) ('(' :: (name.toList ++ ')' :: cs)) := by
  obtain ⟨-, ks, l, hlex, hc, hl⟩ := h
  have ht : Counts [.ident name] [0] := .token (by simp) (by simp)
  exact ⟨⟨'(', _, rfl, by decide⟩, _, _, .cast hn hlex, ht.paren.append hc, hR l hl⟩

end Reads

theorem reads_argsChars : ∀ {args : List Expr}, args ≠ [] → (∀ a ∈ args, Readable a) →
    (∀ a ∈ args, SizeofFree a) → Reads Aligned (argsNeeds args) (argsChars args)
  | [], h, _, _ => absurd rfl h
  | [e], _, hr, hs => by
    rw [argsNeeds, argsChars]
    exact .of_readable (hr e (by simp)) (hs e (by simp))
  | e :: e' :: es, _, hr, hs => by
    have hes := reads_argsChars (List.cons_ne_nil e' es)
      (fun a ha => hr a (List.mem_cons_of_mem _ ha)) fun a ha => hs a (List.mem_cons_of_mem _ ha)
    rw [argsNeeds_cons e (by simp), argsChars_cons e (by simp)]
    exact (Reads.of_readable (hr e (by simp)) (hs e (by simp))).comma hes fun l l' => .spaced

/-! ### A text without a pair -/

theorem ArgSlot.reads {args : List Expr} {cs : List Char} (h : ArgSlot args x before after)
    (hr : ∀ a ∈ args, Readable a) (hs : ∀ a ∈ args, SizeofFree a)
    (hx : Reads (Short False) x.needs cs) :
    Reads (Short False) (argsNeeds args) (before ++ (cs ++ after)) := by
  induction h with
  | last => simpa [argsNeeds] using hx
  | @head x es h =>
    have hes := reads_argsChars h (fun a ha => hr a (List.mem_cons_of_mem _ ha))
      fun a ha => hs a (List.mem_cons_of_mem _ ha)
    rw [argsNeeds_cons _ h]
    exact hx.comma hes fun _ _ => .spaced
  | @tail e es x before after h ih =>
    have hne : es ≠ [] := by rintro rfl; cases h
    have hes := ih (fun a ha => hr a (List.mem_cons_of_mem _ ha))
      (fun a ha => hs a (List.mem_cons_of_mem _ ha)) hx
    have he : Reads (Short False) (e.needs ++ 0 :: argsNeeds es)
        (e.chars ++ ',' :: ' ' :: (before ++ (cs ++ after))) :=
      (Reads.of_readable (hr e (by simp)) (hs e (by simp))).comma hes fun _ _ => .behind
    rw [argsNeeds_cons e hne]
    simpa using he

/-- What an operand's text lacks in its place, the text of the whole expression lacks. -/
theorem Slot.reads {cs : List Char} (h : Slot e level x before after) (hr : Readable e)
    (hs : SizeofFree e) (hx : Reads (Short False) (raise (x.loose level).toNat x.needs) cs) :
    Reads (Short e.isUnary) e.needs (before ++ (cs ++ after)) := by
  have hw := hr.here
  have whole : ∀ {y : Expr}, y ∈ e.children → Reads Aligned y.needs y.chars :=
    fun hy => .of_readable (hr.child hy) (hs.child hy)
  have operand : ∀ {y : Expr} (n : Nat), y ∈ e.children →
      Reads Aligned (raise (y.loose n).toNat y.needs) (Expr.wrapped (y.loose n) y.chars) :=
    fun n hy => (whole hy).wrapped _ fun _ hl => hl.raise _
  cases h with
  | @arg callee args x before after h =>
    rw [show ternaryPrecedence = 0 from rfl, raise_loose (Nat.zero_le _)] at hx
    have ha : Reads (Short False) (0 :: raise 1 (argsNeeds args))
        (callee.toList ++ '(' :: ((before ++ (cs ++ after)) ++ [')'])) :=
      (h.reads (fun _ => hr.child) (fun _ => hs.child) hx).call hw.1 fun l hl => (hl.raise 1).cons 0
    rw [needs]
    simpa [isUnary] using ha
  | @unary op x =>
    rw [needs, List.append_nil]
    exact hx.unary op fun l hl => hl.cons 0
  | @cast target x =>
    have hc : Reads (Short False) (1 :: raise (x.loose unaryPrecedence).toNat x.needs)
        ('(' :: ((Ty.ofName target).spelling.toList ++ ')' :: cs)) :=
      hx.cast (isName_spelling_ofName hw.1) fun l hl => hl.cons 1
    rw [needs]
    simpa [isUnary] using hc
  | @left op x right =>
    have hright := operand (y := right) (op.precedence + 1) (by simp [children])
    have hb : Reads (Short False) _ _ := hx.spaced op.punct_ne_paren hright fun _ _ => .spaced
    rw [needs]
    simpa [isUnary, loose, op.spelling_punct] using hb
  | @right op left x =>
    have hleft := operand (y := left) op.precedence (by simp [children])
    have hb : Reads (Short False) _ _ := hleft.spaced op.punct_ne_paren hx fun _ _ => .behind
    rw [needs]
    simpa [isUnary, loose, op.spelling_punct] using hb
  | @cond x thenExpr elseExpr =>
    have hthen := whole (y := thenExpr) (by simp [children])
    have helse := whole (y := elseExpr) (by simp [children])
    have hr : Reads Aligned _ _ := hthen.spaced colon_ne_paren helse fun _ _ => .spaced
    have hb : Reads (Short False) _ _ := hx.spaced question_ne_paren hr fun _ _ => .spaced
    rw [needs]
    simpa [isUnary, loose, Punct.spelling, ternaryPrecedence] using hb
  | @thenExpr cond x elseExpr =>
    rw [show ternaryPrecedence = 0 from rfl, raise_loose (Nat.zero_le _)] at hx
    have hcond := operand (y := cond) 1 (by simp [children])
    have helse := whole (y := elseExpr) (by simp [children])
    have hr : Reads (Short False) _ _ := hx.spaced colon_ne_paren helse fun _ _ => .spaced
    have hb : Reads (Short False) _ _ := hcond.spaced question_ne_paren hr fun _ _ => .behind
    rw [needs]
    simpa [isUnary, loose, Punct.spelling, ternaryPrecedence] using hb
  | @elseExpr cond thenExpr x =>
    rw [show ternaryPrecedence = 0 from rfl, raise_loose (Nat.zero_le _)] at hx
    have hcond := operand (y := cond) 1 (by simp [children])
    have hthen := whole (y := thenExpr) (by simp [children])
    have hr : Reads (Short False) _ _ := hthen.spaced colon_ne_paren hx fun _ _ => .behind
    have hb : Reads (Short False) _ _ := hcond.spaced question_ne_paren hr fun _ _ => .behind
    rw [needs]
    simpa [isUnary, loose, Punct.spelling, ternaryPrecedence] using hb

/-- Without a pair, the text of an expression has too few parentheses before some token. -/
theorem Pair.reads {pre post : List Char} (h : Pair e pre x post) (hr : Readable e)
    (hs : SizeofFree e) : Reads (Short e.isUnary) e.needs (pre ++ (x.chars ++ post)) := by
  induction h with
  | @here e level x _ _ h hx hsign =>
    have hloose : x.loose level = true := by simpa [hsign] using (h.wrap_eq hx).symm
    refine h.reads hr hs ?_
    rw [hloose]
    exact (Reads.of_readable (hr.child h.mem) (hs.child h.mem)).imp fun _ => .of_aligned
  | @inside e level x y before after pre post wrap h hchars hp ih =>
    obtain rfl := h.wrap_eq hchars
    have hx := ih (hr.child h.mem) (hs.child h.mem)
    have hw : Reads (Short False) (raise (x.loose level).toNat x.needs)
        (Expr.wrapped (x.loose level || e.joinsSign x) (pre ++ (y.chars ++ post))) := by
      refine hx.wrapped _ fun l hl => ?_
      -- A pair that is needed stays needed. One that only keeps two signs apart adds a parenthesis
      -- before the inner sign, and the token that lacks one stands behind it.
      cases hloose : x.loose level with
      | true => exact (hl.mono False.elim).raise 1
      | false =>
        rw [Bool.toNat_false, raise_zero, Bool.false_or]
        cases hj : e.joinsSign x with
        | false => exact (raise_zero l).symm ▸ hl.mono False.elim
        | true => exact ((hl.mono fun _ => isUnary_of_joinsSign hj).raise_free 1).mono False.elim
    have he := h.reads hr hs hw
    cases hb : x.loose level || e.joinsSign x <;> simpa [Expr.wrapped, hb] using he

/-- A text that lacks a parenthesis of the tree is not parsed to it. -/
theorem parse_ne_of_reads {free : Prop} {cs : List Char} (h : Reads (Short free) e.needs cs)
    (hs : SizeofFree e) : Expr.parse (String.ofList cs) ≠ .ok e := by
  intro hparse
  obtain ⟨-, ks, l, hlex, hc, hl⟩ := h
  obtain ⟨ts, ht, hk⟩ := hlex [] [] .nil .nil 0
  rw [List.append_nil] at ht hk
  have ht : tokenize (String.ofList cs).toList = .ok ts := by rwa [String.toList_ofList]
  have hne : ts ≠ [] := by
    rintro rfl
    exact hc.tokens_ne_nil hk.symm
  obtain ⟨ks', l', hks, hc', hl'⟩ :=
    (spends_of_derives ((parse_eq_ok_iff_derives ht hne).mp hparse) hs).whole
  rw [hk, List.append_nil] at hks
  subst hks
  obtain rfl := hc.unique hc'
  exact hl.not_covers 0 0 (.inr (Nat.le_refl 0)) (by simpa using hl')

/-- Every operand has a place, and that tells whether there is a pair around it. Without one of the
pairs that the printer puts around an operand, the text is not parsed to the tree that the whole
text is parsed to. -/
theorem parse_without_pair {text : String} (h : Expr.parse text = .ok e) (hs : SizeofFree e) :
    Every Placed e ∧ ∀ {pre x post}, Pair e pre x post →
      e.render = String.ofList (pre ++ '(' :: (x.chars ++ ')' :: post)) ∧
      Expr.parse e.render = .ok e.hostForm ∧
      Expr.parse (String.ofList (pre ++ (x.chars ++ post))) ≠ .ok e.hostForm := by
  refine ⟨every_placed hs, fun {pre x post} hp => ?_⟩
  have hd : Reads (Short e.isUnary) e.hostForm.needs (pre ++ (x.chars ++ post)) := by
    rw [needs_hostForm hs]
    exact hp.reads (readable_of_parse h) hs
  exact ⟨by rw [render_eq_ofList_chars, hp.chars], parse_render_of_parse h hs,
    parse_ne_of_reads hd hs.hostForm⟩

/-- `(a + b) * c` without its parentheses has another tree. -/
theorem parse_without_pair_sum :
    Expr.parse "(a + b) * c" =
        .ok (binary .mul (binary .add (ident "a") (ident "b")) (ident "c")) ∧
      Expr.parse "a + b * c" ≠
        .ok (binary .mul (binary .add (ident "a") (ident "b")) (ident "c")) := by
  have hp : Expr.parse "(a + b) * c" =
      .ok (binary .mul (binary .add (ident "a") (ident "b")) (ident "c")) := by cbv
  have hs : SizeofFree (binary .mul (binary .add (ident "a") (ident "b")) (ident "c")) := by
    have leaf : ∀ name, SizeofFree (ident name) := fun name => .node rfl (by simp [children])
    exact .node rfl (List.forall_mem_cons.mpr ⟨.node rfl (List.forall_mem_cons.mpr
      ⟨leaf "a", List.forall_mem_singleton.mpr (leaf "b")⟩),
      List.forall_mem_singleton.mpr (leaf "c")⟩)
  have h := ((parse_without_pair hp hs).2 (.here .left (by cbv) rfl)).2.2
  have ht : String.ofList ([] ++ ((binary .add (ident "a") (ident "b")).chars ++
      (' ' :: BinaryOp.mul.spelling.toList ++ ' ' ::
        Expr.wrapped ((ident "c").precedence ≤ BinaryOp.mul.precedence) (ident "c").chars))) =
      "a + b * c" := by cbv
  rw [ht] at h
  exact ⟨hp, h⟩

end Expr

end Bindery
