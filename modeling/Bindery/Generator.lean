import Bindery.Diagnostic
import Bindery.Emit
import Bindery.Image.Exports
import Bindery.Lowerer
import Bindery.Pass.Rename
import Bindery.Pass.Visit

/-!
# Generator runs

A generator collects exports and headers, and then finishes: the visitor pass and the naming pass
run over everything that was lowered, and the bindings are ready for emitters.
-/

namespace Bindery

/-- Why a generator run fails. -/
inductive GenerateError where
  | lower (e : LowerError)
  | image (e : ImageError)
  | declaration (e : DeclarationError)
deriving DecidableEq, Repr

def GenerateError.message : GenerateError → String
  | lower e => e.message
  | image e => e.message
  | declaration e => e.message

/-- A generator whose policies share a state `σ`. -/
structure Generator (σ : Type) where
  lowerer : Lowerer
  visitor : VisitPolicy σ
  renamer : RenamePolicy σ

namespace Generator

variable {σ : Type}

/-- A step of a generator: an answer or an error, and the generator it leaves. -/
abbrev Step (σ : Type) := EStateM GenerateError (Generator σ)

/-- Notes the exports of a library. The first library that a name is added with has it. -/
def addExports (names : List String) (library : String) (libraryIsConst : Bool) : Step σ PUnit :=
  modify fun g => { g with lowerer := g.lowerer.addExports names library libraryIsConst }

/-- Notes the exports of the image in a file. The answer is how many names the image exports. -/
def addImageExports (files : Image.FileStore) (path library : String) : Step σ Nat :=
  match Image.exportsOfFile files path with
  | .error e => throw (.image e)
  | .ok names => do
    addExports names library true
    return names.length

/-- Removes a definition and refuses its name from now on. -/
def suppress (name : String) : Step σ PUnit :=
  modify fun g => { g with lowerer := g.lowerer.suppress name }

/-- Lowers headers in order. -/
def process (headers : List Header) : Step σ PUnit := fun g =>
  match g.lowerer.process headers with
  | .ok _ lowerer => .ok ⟨⟩ { g with lowerer }
  | .error e lowerer => .error (.lower e) { g with lowerer }

/-- Lowers the headers that a source gives for some files. -/
def parse (source : DeclarationSource) (files : List String) : Step σ PUnit :=
  match source files with
  | .error e => throw (.declaration e)
  | .ok headers => process headers

/-- Runs the visitor pass and the naming pass. -/
def finalize (g : Generator σ) (own : σ) : Bindings × σ :=
  let (r, own) := g.lowerer.registry.visitAll g.visitor own
  let (r, own) := r.renameAll g.renamer own
  (⟨r, g.lowerer.unresolved⟩, own)

def describe (g : Generator σ) : String :=
  "Generator \x7b lowerer: " ++ g.lowerer.describe ++ ", .. \x7d"

end Generator

end Bindery
