import Bindery.Proofs.Expr.Readable
import Bindery.Proofs.Expr.Rescan
import Bindery.Proofs.Expr.Spacing

/-!
# The tokens of host text

`Expr.kinds` follows the printer token by token, and the printer's text is tokenized to them:
`lexesOnto_chars`. Blanks stand only around operators; elsewhere a bracket or an operator ends the
word before it.
-/

namespace Bindery

/-! ### The tokens that the printer writes -/

def UnaryOp.punct : UnaryOp → Punct
  | plus => .plus
  | neg => .minus
  | not => .bang
  | bitNot => .tilde

theorem UnaryOp.spelling_punct (op : UnaryOp) : op.punct.spelling = op.spelling.toList := by
  cases op <;> decide

theorem UnaryOp.unaryOp?_punct (op : UnaryOp) : op.punct.unaryOp? = some op := by cases op <;> rfl

def BinaryOp.punct : BinaryOp → Punct
  | mul => .star
  | div => .slash
  | mod => .percent
  | add => .plus
  | sub => .minus
  | shl => .shl
  | shr => .shr
  | lt => .lt
  | le => .ltEq
  | gt => .gt
  | ge => .gtEq
  | eq => .eqEq
  | ne => .notEq
  | bitAnd => .amp
  | bitXor => .caret
  | bitOr => .pipe
  | and => .ampAmp
  | or => .pipePipe

theorem BinaryOp.spelling_punct (op : BinaryOp) : op.punct.spelling = op.spelling.toList := by
  cases op <;> decide

theorem BinaryOp.binaryOp?_punct (op : BinaryOp) : op.punct.binaryOp? = some op := by
  cases op <;> rfl

namespace Expr

/-- `ks`, in parentheses when `wrap` says so. -/
def wrappedKinds (wrap : Bool) (ks : List TokenKind) : List TokenKind :=
  if wrap then .punct .lParen :: (ks ++ [.punct .rParen]) else ks

/-- `sizeof` of what `ks` spell. -/
def sizeofKinds (ks : List TokenKind) : List TokenKind :=
  .ident "sizeof" :: .punct .lParen :: (ks ++ [.punct .rParen])

mutual

/-- The tokens of the expression in host syntax. -/
def kinds : Expr → List TokenKind
  | literal l => [.literal l.host]
  | ident name => [.ident name]
  | call callee args => .ident callee :: .punct .lParen :: (argsKinds args ++ [.punct .rParen])
  | unary op operand =>
    .punct op.punct ::
      wrappedKinds (operand.precedence < unaryPrecedence || sameSign op operand) operand.kinds
  | cast target operand =>
    .punct .lParen :: .ident (Ty.ofName target).spelling :: .punct .rParen ::
      wrappedKinds (operand.precedence < unaryPrecedence) operand.kinds
  | sizeofType ty => sizeofKinds [.ident ty.spelling]
  | sizeofTag tag => sizeofKinds [.ident tag]
  | sizeofExpr operand =>
    sizeofKinds <| match operand.literalTy? with
      | some ty => [.ident ty.sizeofSpelling]
      | none => operand.kinds
  | binary op left right =>
    wrappedKinds (left.precedence < op.precedence) left.kinds ++
      .punct op.punct :: wrappedKinds (right.precedence ≤ op.precedence) right.kinds
  | ternary cond thenExpr elseExpr =>
    wrappedKinds (cond.precedence ≤ ternaryPrecedence) cond.kinds ++
      .punct .question :: (thenExpr.kinds ++ .punct .colon :: elseExpr.kinds)

/-- The tokens of the arguments of a call. -/
def argsKinds : List Expr → List TokenKind
  | [] => []
  | [e] => e.kinds
  | e :: es => e.kinds ++ .punct .comma :: argsKinds es

end

/-! ### What the printer writes begins an operand -/

/-- The text begins with a character, and not with one that makes `!=` of a `!`. -/
def Starts (cs : List Char) : Prop := ∃ c t, cs = c :: t ∧ c ≠ '='

theorem Starts.append {cs : List Char} (h : Starts cs) (rest : List Char) :
    Starts (cs ++ rest) := by
  obtain ⟨c, t, rfl, hc⟩ := h
  exact ⟨c, t ++ rest, rfl, hc⟩

theorem Starts.wrapped {cs : List Char} (h : Starts cs) (wrap : Bool) :
    Starts (wrapped wrap cs) := by
  cases wrap
  · exact h
  · exact ⟨'(', cs ++ [')'], rfl, by decide⟩

theorem kind_of_scan_eq {cs : List Char} {lx : Lexeme} (h : Lexeme.scan '=' cs = .ok lx) :
    lx.kind = .punct .eqEq := by
  have hn : ('='.isDigit || '=' == '.' && cs.head?.any Char.isDigit) = false := rfl
  rw [Lexeme.scan, hn, if_neg (by decide), if_neg (by decide), if_neg (by decide),
    if_neg (by decide)] at h
  split at h
  · next p rest hp =>
    cases h
    have hs := Punct.spelling_append_of_scan? hp
    cases p <;> cases (List.cons.inj hs).1
    rfl
  · cases h

theorem starts_of_scansAs {k : TokenKind} {w : List Char} (h : ScansAs k w [])
    (hk : k ≠ .punct .eqEq) : Starts w := by
  obtain ⟨c, cs, he, hl⟩ := h
  rw [List.append_nil] at he
  refine ⟨c, cs, he, ?_⟩
  rintro rfl
  exact hk (kind_of_scan_eq hl)

theorem starts_of_isName {name : String} (h : IsName name) : Starts name.toList :=
  starts_of_scansAs (scansAs_ident h .nil) (by simp)

theorem starts_sizeofChars (cs : List Char) : Starts (sizeofChars cs) :=
  ⟨'s', _, rfl, by decide⟩

theorem starts_unary (op : UnaryOp) (cs : List Char) : Starts (op.spelling.toList ++ cs) := by
  rw [← op.spelling_punct]
  exact Starts.append (by cases op <;> exact ⟨_, _, rfl, by decide⟩) _

theorem starts_chars {e : Expr} (h : Readable e) : Starts e.chars := by
  induction h with
  | @node e h _ ih =>
    cases e with
    | literal l =>
      rw [chars]
      exact starts_of_scansAs (scansAs_literal h .nil) (by simp)
    | ident name =>
      rw [chars]
      exact starts_of_isName h.1
    | call callee args =>
      rw [chars, List.append_assoc]
      exact (starts_of_isName h.1).append _
    | unary op operand =>
      rw [chars]
      exact starts_unary op _
    | cast target operand => rw [chars]; exact ⟨'(', _, rfl, by decide⟩
    | sizeofType ty => rw [chars]; exact starts_sizeofChars _
    | sizeofTag tag => rw [chars]; exact starts_sizeofChars _
    | sizeofExpr operand => rw [chars]; exact starts_sizeofChars _
    | binary op left right =>
      rw [chars, List.append_assoc]
      exact ((ih left (by simp [children])).wrapped _).append _
    | ternary cond thenExpr elseExpr =>
      rw [chars, List.append_assoc]
      exact ((ih cond (by simp [children])).wrapped _).append _

/-! ### The printer's text and its tokens -/

/-- Before any text that does not go on with it, the text is tokenized to these tokens. -/
def LexesOnto (cs : List Char) (ks : List TokenKind) : Prop :=
  ∀ rest krest, Boundary rest → Lexes rest krest → Lexes (cs ++ rest) (ks ++ krest)

theorem boundary_space {cs : List Char} : Boundary (' ' :: cs) := .cons (by decide)

theorem boundary_rParen {cs : List Char} : Boundary (')' :: cs) := .cons (by decide)

theorem boundary_lParen {cs : List Char} : Boundary ('(' :: cs) := .cons (by decide)

theorem boundary_comma {cs : List Char} : Boundary (',' :: cs) := .cons (by decide)

theorem lexes_lParen {cs : List Char} {ks : List TokenKind} (h : Lexes cs ks) :
    Lexes ('(' :: cs) (.punct .lParen :: ks) :=
  h.token (w := ['(']) (scansAs_punct (p := .lParen) fun _ _ => rfl)

theorem lexes_rParen {cs : List Char} {ks : List TokenKind} (h : Lexes cs ks) :
    Lexes (')' :: cs) (.punct .rParen :: ks) :=
  h.token (w := [')']) (scansAs_punct (p := .rParen) fun _ _ => rfl)

/-- A token between two blanks. -/
theorem lexes_spaced {p : Punct} {cs : List Char} {ks : List TokenKind} (h : Lexes cs ks) :
    Lexes (' ' :: (p.spelling ++ ' ' :: cs)) (.punct p :: ks) := by
  refine .space (h.space.token (scansAs_punct ?_))
  rintro c hc
  cases hc
  cases p <;> rfl

theorem lexesOnto_ident {name : String} (h : IsName name) :
    LexesOnto name.toList [.ident name] := fun _ _ hb hr => hr.token (scansAs_ident h hb.endsWord)

theorem isName_sizeof : IsName "sizeof" :=
  ⟨'s', ['i', 'z', 'e', 'o', 'f'], rfl, rfl, List.all_eq_true.mp rfl⟩

namespace LexesOnto

variable {cs cs' : List Char} {ks ks' : List TokenKind}

theorem wrapped (h : LexesOnto cs ks) (wrap : Bool) :
    LexesOnto (wrapped wrap cs) (wrappedKinds wrap ks) := by
  intro rest krest hb hr
  cases wrap
  · exact h rest krest hb hr
  · simpa [Expr.wrapped, wrappedKinds] using
      lexes_lParen (h _ _ boundary_rParen (lexes_rParen hr))

/-- A name before parentheses. -/
theorem call {name : String} (hn : IsName name) (h : LexesOnto cs ks) :
    LexesOnto (name.toList ++ '(' :: (cs ++ [')']))
      (.ident name :: .punct .lParen :: (ks ++ [.punct .rParen])) := by
  intro rest krest hb hr
  have hi := lexes_lParen (h _ _ boundary_rParen (lexes_rParen hr))
  simpa using lexesOnto_ident hn _ _ boundary_lParen hi

theorem sizeof (h : LexesOnto cs ks) : LexesOnto (sizeofChars cs) (sizeofKinds ks) :=
  call isName_sizeof h

theorem comma (h : LexesOnto cs ks) (h' : LexesOnto cs' ks') :
    LexesOnto (cs ++ ',' :: ' ' :: cs') (ks ++ .punct .comma :: ks') := by
  intro rest krest hb hr
  have hc := (h' rest krest hb hr).space.token (w := [','])
    (scansAs_punct (p := .comma) fun _ _ => rfl)
  simpa using h _ _ boundary_comma hc

theorem unary (op : UnaryOp) (hs : Starts cs) (h : LexesOnto cs ks) :
    LexesOnto (op.spelling.toList ++ cs) (.punct op.punct :: ks) := by
  intro rest krest hb hr
  rw [List.append_assoc, ← op.spelling_punct]
  refine (h _ _ hb hr).token (scansAs_punct ?_)
  obtain ⟨c, t, rfl, hne⟩ := hs
  rintro d ⟨⟩
  cases op <;> first | rfl | simpa [UnaryOp.punct, Punct.joins] using hne

theorem cast {name : String} (hn : IsName name) (h : LexesOnto cs ks) :
    LexesOnto ('(' :: (name.toList ++ ')' :: cs))
      (.punct .lParen :: .ident name :: .punct .rParen :: ks) := by
  intro rest krest hb hr
  have hi := lexesOnto_ident hn _ _ boundary_rParen (lexes_rParen (h _ _ hb hr))
  simpa using lexes_lParen hi

/-- A token with blanks around it between two texts. -/
theorem spaced (p : Punct) (h : LexesOnto cs ks) (h' : LexesOnto cs' ks') :
    LexesOnto (cs ++ ' ' :: (p.spelling ++ ' ' :: cs')) (ks ++ .punct p :: ks') := by
  intro rest krest hb hr
  simpa using h _ _ boundary_space (lexes_spaced (p := p) (h' _ _ hb hr))

end LexesOnto

theorem isName_spelling {ty : Ty} (h : ∀ name, ty ≠ .named name) : IsName ty.spelling := by
  cases ty <;> first | exact absurd rfl (h _) | exact ⟨_, _, rfl, rfl, List.all_eq_true.mp rfl⟩

theorem isName_sizeofSpelling {ty : Ty} (h : ∀ name, ty ≠ .named name) :
    IsName ty.sizeofSpelling := by
  unfold Ty.sizeofSpelling
  split
  · exact isName_spelling nofun
  · exact isName_spelling h

theorem isName_spelling_ofName {name : String} (h : IsName name) :
    IsName (Ty.ofName name).spelling := by
  rw [Ty.ofName]
  cases hn : Ty.ofName? name with
  | none => exact h
  | some ty =>
    refine isName_spelling ?_
    rintro n rfl
    cases Ty.isBase_of_ofName? hn

theorem lexesOnto_argsChars : ∀ {args : List Expr},
    (∀ a ∈ args, LexesOnto a.chars a.kinds) → LexesOnto (argsChars args) (argsKinds args)
  | [], _ => by
    rw [argsChars, argsKinds]
    exact fun _ _ _ hr => hr
  | [e], h => by
    rw [argsChars, argsKinds]
    exact h e (by simp)
  | e :: e' :: es, h => by
    have hs := lexesOnto_argsChars fun a ha => h a (List.mem_cons_of_mem _ ha)
    simpa [argsChars, argsKinds] using (h e (by simp)).comma hs

theorem lexesOnto_chars {e : Expr} (h : Readable e) : LexesOnto e.chars e.kinds := by
  induction h with
  | @node e h hc ih =>
    cases e with
    | literal l =>
      rw [chars, kinds]
      exact fun _ _ hb hr => hr.token (scansAs_literal h hb)
    | ident name =>
      rw [chars, kinds]
      exact lexesOnto_ident h.1
    | call callee args =>
      have has : LexesOnto (argsChars args) (argsKinds args) := lexesOnto_argsChars ih
      simpa [chars, kinds] using has.call h.1
    | unary op operand =>
      rw [chars, kinds]
      exact .unary op ((starts_chars (hc operand (by simp [children]))).wrapped _)
        ((ih operand (by simp [children])).wrapped _)
    | cast target operand =>
      simpa [chars, kinds] using
        LexesOnto.cast (isName_spelling_ofName h.1) ((ih operand (by simp [children])).wrapped _)
    | sizeofType ty =>
      rw [chars, kinds]
      refine LexesOnto.sizeof (lexesOnto_ident (isName_spelling ?_))
      rintro n rfl
      cases h
    | sizeofTag tag =>
      rw [chars, kinds]
      exact LexesOnto.sizeof (lexesOnto_ident h)
    | sizeofExpr operand =>
      rw [chars, kinds]
      refine LexesOnto.sizeof ?_
      cases operand with
      | literal l =>
        have hl : l.WellSpelled := (hc (.literal l) (by simp [children])).here
        exact lexesOnto_ident (isName_sizeofSpelling hl.ty_ne_named)
      | _ => exact ih _ (by simp [children])
    | binary op left right =>
      have hs := ((ih left (by simp [children])).wrapped (left.precedence < op.precedence)).spaced
        op.punct ((ih right (by simp [children])).wrapped (right.precedence ≤ op.precedence))
      rw [op.spelling_punct] at hs
      simpa [chars, kinds] using hs
    | ternary cond thenExpr elseExpr =>
      have hs := ((ih cond (by simp [children])).wrapped
        (cond.precedence ≤ ternaryPrecedence)).spaced .question
        ((ih thenExpr (by simp [children])).spaced .colon (ih elseExpr (by simp [children])))
      simpa [chars, kinds, Punct.spelling] using hs

/-- The text of a readable tree is tokenized to its tokens. -/
theorem tokenize_render {e : Expr} (h : Readable e) :
    ∃ tokens, tokenize e.render.toList = .ok tokens ∧ tokens.map Token.kind = e.kinds := by
  have hl := lexesOnto_chars h [] [] .nil .nil 0
  simpa [tokenize, render_eq_ofList_chars] using hl

end Expr

end Bindery
