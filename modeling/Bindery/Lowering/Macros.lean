import Bindery.Decl.Basic
import Bindery.Expr.Constant
import Bindery.Expr.Evaluation
import Bindery.Registry
import Bindery.Text.Continuation

/-!
# Macros

A macro is registered with what its body alone and the macros before it tell. When all macros of a
header are registered, each typed one is classified and written in host syntax.
-/

namespace Bindery

/-- The macro of a declaration, with the type that its body has among the macros of `env`. -/
def MacroDef.ofDecl (env : MacroEnv) (decl : MacroDecl) : MacroDef :=
  let text := String.ofList (Text.foldContinuations decl.text.toList)
  let expr := (Expr.parse text).toOption
  { label := { Label.ofName decl.name with doc := .ofSummary (decl.name ++ " = " ++ text) }
    text
    expr
    ty := expr.bind (·.type? env)
    constant := false
    hostText := none }

namespace Registry

/-- Registers the macro of a declaration. -/
def insertMacro (r : Registry) (decl : MacroDecl) : Registry :=
  ((r.mention decl.name).insert (.macroDef (.ofDecl r.macroEnv decl))).2

/-- Classifies the macro in a slot and writes it in host syntax, if it has a type and that has not
been done. -/
def classifyMacro (r : Registry) (id : DefId) : Registry :=
  match r.get? id with
  | some (.macroDef d) =>
    match d.ty, d.expr, d.hostText with
    | some _, some e, none =>
      r.modify id fun _ =>
        .macroDef { d with constant := e.isConstant r.macroEnv, hostText := some e.render }
    | _, _, _ => r
  | _ => r

/-- Registers the macros that have a body and that no filter leaves out, and classifies every macro
that is not classified yet. -/
def lowerMacros (r : Registry) (skips : MacroDecl → Bool) (decls : List MacroDecl) : Registry :=
  let kept := decls.filter fun decl => !(Text.trim decl.text.toList).isEmpty && !skips decl
  let r := kept.foldl insertMacro r
  r.ids.foldl classifyMacro r

end Registry

end Bindery
