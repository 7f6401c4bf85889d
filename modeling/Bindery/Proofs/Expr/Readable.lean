import Bindery.Proofs.Expr.Acceptance
import Bindery.Proofs.Expr.Spelling

/-!
# What a parsed tree holds

The leaves of a parsed tree are spelled as tokens are: `readable_of_derives`. Names come from
identifiers other than `sizeof`; the tag after `struct` alone may be any identifier.
-/

namespace Bindery

namespace Ty

/-- The types that a word can name. -/
def isBase : Ty → Bool
  | char | str | named _ => false
  | _ => true

theorem isBase_of_ofName? {name : String} {ty : Ty} (h : ofName? name = some ty) : ty.isBase := by
  unfold ofName? at h
  split at h <;> cases h <;> rfl

/-- The host spelling of a type names it. -/
theorem ofName?_spelling {ty : Ty} (h : ty.isBase) : ofName? ty.spelling = some ty := by
  cases ty <;> first | rfl | cases h

theorem ofName_spelling_ofName (name : String) :
    ofName (ofName name).spelling = ofName name := by
  cases h : ofName? name with
  | none =>
    have hn : ofName name = named name := by simp [ofName, h]
    rw [hn]
    exact hn
  | some ty =>
    have hn : ofName name = ty := by simp [ofName, h]
    rw [hn, ofName, ofName?_spelling (isBase_of_ofName? h)]
    rfl

theorem isBase_toUnsigned {ty : Ty} (h : ty.isBase) : ty.toUnsigned.isBase := by
  cases ty <;> first | rfl | cases h

end Ty

/-- A base type is a tag that is one of its words, or a type with a name. -/
theorem SpellsBaseType.tag_or_type {words : List String} {e : Expr} (h : SpellsBaseType words e) :
    (∃ tag ∈ words, e = .sizeofTag tag) ∨ ∃ ty : Ty, ty.isBase ∧ e = .sizeofType ty := by
  have hbase : ∀ x ∈ signedWords, x.2.isBase := by decide
  cases h with
  | tag => exact .inl ⟨_, by simp, rfl⟩
  | name h => exact .inr ⟨_, Ty.isBase_of_ofName? h, rfl⟩
  | integer h => exact .inr ⟨_, hbase _ (List.mem_append_right [_, _] h), rfl⟩
  | signed h => exact .inr ⟨_, hbase _ h, rfl⟩
  | unsigned h => exact .inr ⟨_, Ty.isBase_toUnsigned (hbase _ h), rfl⟩

namespace Expr

/-- The operands of an expression. -/
def children : Expr → List Expr
  | literal _ | ident _ | sizeofType _ | sizeofTag _ => []
  | call _ args => args
  | unary _ operand | cast _ operand | sizeofExpr operand => [operand]
  | binary _ left right => [left, right]
  | ternary cond thenExpr elseExpr => [cond, thenExpr, elseExpr]

/-- `p` holds of the expression and of every expression in it. -/
inductive Every (p : Expr → Prop) : Expr → Prop where
  | node {e} (h : p e) (hc : ∀ c ∈ e.children, Every p c) : Every p e

namespace Every

variable {p q : Expr → Prop} {e : Expr}

theorem here (h : Every p e) : p e := by
  cases h with
  | node h => exact h

theorem child (h : Every p e) {c : Expr} (hc : c ∈ e.children) : Every p c := by
  cases h with
  | node _ h => exact h c hc

theorem imp (hpq : ∀ e, p e → q e) (h : Every p e) : Every q e := by
  induction h with
  | node h _ ih => exact .node (hpq _ h) ih

theorem and (hp : Every p e) (hq : Every q e) : Every (fun e => p e ∧ q e) e := by
  induction hp with
  | node h _ ih => exact .node ⟨h, hq.here⟩ fun c hc => ih c hc (hq.child hc)

end Every

/-- The words of the expression can be read where they stand. -/
def HasReadableWords : Expr → Prop
  | literal l => l.WellSpelled
  | ident name | call name _ | cast name _ => IsName name ∧ name ≠ "sizeof"
  | sizeofType ty => ty.isBase
  | sizeofTag tag => IsName tag
  | _ => True

/-- All words in the expression can be read where they stand. -/
abbrev Readable : Expr → Prop := Every HasReadableWords

end Expr

open Bindery.Expr

theorem Derives.suffix {resolved : Bool} {c : Category} {ts rest : List TokenKind} {e : Expr}
    (h : Derives resolved c ts e rest) : rest <:+ ts := by
  induction h with
  | single _ ih | tighter _ _ ih | operand _ ih | uncast _ _ ih | atom _ ih => exact ih
  | ternary _ _ _ ihc iht ihf =>
    have h₁ := (List.suffix_cons _ _).trans ihc
    have h₂ := (List.suffix_cons _ _).trans iht
    exact (ihf.trans h₂).trans h₁
  | operator _ _ _ ihl ihr => exact (ihr.trans (List.suffix_cons _ _)).trans ihl
  | cast _ _ ih => exact ih.trans (List.suffix_append [_, _, _] _)
  | @sizeofType rest _ words _ =>
    exact ⟨.ident "sizeof" :: .punct .lParen :: (words.map .ident ++ [.punct .rParen]), by simp⟩
  | sizeofExpr _ _ ih | prefixed _ _ ih => exact ih.trans (List.suffix_cons _ _)
  | literal | name => exact List.suffix_cons _ _
  | emptyCall => exact List.suffix_append [_, _, _] _
  | call _ _ ih => exact ih.trans (List.suffix_append [_, _] _)
  | paren _ ih => exact ((List.suffix_cons _ _).trans ih).trans (List.suffix_cons _ _)
  | lastArg _ ih => exact (List.suffix_cons _ _).trans ih
  | moreArgs _ _ ih ihs => exact (ihs.trans (List.suffix_cons _ _)).trans ih

/-- A tree derived from tokens that can be read is readable. -/
theorem readable_of_derives {resolved : Bool} {c : Category} {ts rest : List TokenKind} {e : Expr}
    (h : Derives resolved c ts e rest) (hts : ∀ k ∈ ts, k.WellSpelled)
    (hf : ∀ f, c = .args f → IsName f ∧ f ≠ "sizeof") : Readable e := by
  have sub : ∀ {ts rest : List TokenKind}, rest <:+ ts → (∀ k ∈ ts, k.WellSpelled) →
      ∀ k ∈ rest, k.WellSpelled := fun hs h k hk => h k (hs.mem hk)
  have tail : ∀ {k : TokenKind} {ts : List TokenKind}, (∀ k' ∈ k :: ts, k'.WellSpelled) →
      ∀ k' ∈ ts, k'.WellSpelled := fun h => (List.forall_mem_cons.mp h).2
  induction h with
  | single _ ih | tighter _ _ ih | operand _ ih | uncast _ _ ih | atom _ ih => exact ih hts nofun
  | ternary hc ht _ ihc iht ihf =>
    have h₁ := tail (sub hc.suffix hts)
    have h₂ := tail (sub ht.suffix h₁)
    refine .node trivial ?_
    simp only [children, List.forall_mem_cons]
    exact ⟨ihc hts nofun, iht h₁ nofun, ihf h₂ nofun, nofun⟩
  | operator hl _ _ ihl ihr =>
    refine .node trivial ?_
    simp only [children, List.forall_mem_cons]
    exact ⟨ihl hts nofun, ihr (tail (sub hl.suffix hts)) nofun, nofun⟩
  | cast hn _ ih =>
    refine .node ⟨(List.forall_mem_cons.mp (tail hts)).1, hn⟩ ?_
    simp only [children, List.forall_mem_cons]
    exact ⟨ih (tail (tail (tail hts))) nofun, nofun⟩
  | sizeofType hw =>
    rcases hw.tag_or_type with ⟨tag, ht, rfl⟩ | ⟨ty, ht, rfl⟩
    · exact .node (hts (.ident tag) (by simp [ht])) nofun
    · exact .node ht nofun
  | sizeofExpr _ _ ih | prefixed _ _ ih =>
    refine .node trivial ?_
    simp only [children, List.forall_mem_cons]
    exact ⟨ih (tail hts) nofun, nofun⟩
  | literal => exact .node (hts _ List.mem_cons_self) nofun
  | name hn => exact .node ⟨hts _ List.mem_cons_self, hn⟩ nofun
  | emptyCall hn => exact .node ⟨hts _ List.mem_cons_self, hn⟩ nofun
  | call hn _ ih =>
    exact ih (tail (tail hts)) fun f hf => by cases hf; exact ⟨hts _ List.mem_cons_self, hn⟩
  | paren _ ih => exact ih (tail hts) nofun
  | lastArg _ ih =>
    refine .node (hf _ rfl) ?_
    simp only [children, List.forall_mem_cons]
    exact ⟨ih hts nofun, nofun⟩
  | moreArgs h _ ih ihs =>
    have hs := ihs (tail (sub h.suffix hts)) hf
    refine .node (hf _ rfl) ?_
    simp only [children, List.forall_mem_cons]
    exact ⟨ih hts nofun, fun a ha => hs.child ha⟩

/-- A text that is parsed has tokens. -/
theorem exists_tokens_of_parse {text : String} {e : Expr} (h : Expr.parse text = .ok e) :
    ∃ tokens, tokenize text.toList = .ok tokens ∧ tokens ≠ [] ∧
      Derives true .expr (tokens.map Token.kind) e [] := by
  cases ht : tokenize text.toList with
  | error fault => simp [Expr.parse, ht, bind, Except.bind] at h
  | ok tokens =>
    have hne : tokens ≠ [] := by
      rintro rfl
      rw [parse_eq_parseTokens ht] at h
      cases h
    exact ⟨tokens, rfl, hne, (parse_eq_ok_iff_derives ht hne).mp h⟩

/-- A parsed tree is readable. -/
theorem readable_of_parse {text : String} {e : Expr} (h : Expr.parse text = .ok e) :
    Readable e := by
  obtain ⟨tokens, ht, -, hd⟩ := exists_tokens_of_parse h
  refine readable_of_derives hd ?_ nofun
  rintro k hk
  obtain ⟨t, ht', rfl⟩ := List.mem_map.mp hk
  exact wellSpelled_of_mem_tokensFrom ht t ht'

end Bindery
