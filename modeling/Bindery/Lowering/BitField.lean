import Bindery.Lowering.Basic
import Bindery.Text.Blank

/-!
# Bit-fields

Consecutive bit-fields share one member, which is as wide as they need together and carries the
names and widths of all of them.
-/

namespace Bindery

/-- Consecutive bit-fields that wait for the member they share. -/
structure BitFieldRun where
  /-- Name and width of each bit-field. -/
  names : List String
  /-- The summaries of those that have one. -/
  docs : List String
  bits : Nat
deriving DecidableEq, Repr

namespace BitFieldRun

def empty : BitFieldRun := ⟨[], [], 0⟩

/-- The summary of a bit-field, trimmed, unless nothing is left of it. -/
def summaryOf? (doc : Doc) : Option String :=
  (doc.summary.map fun s => String.ofList (Text.trim s.toList)).filter (· != "")

/-- The run with one more bit-field. One of width zero holds nothing and leaves the run as it is. -/
def push (run : BitFieldRun) (name : String) (width : Nat) (doc : Doc) : BitFieldRun :=
  if width = 0 then run
  else
    ⟨run.names ++ [name ++ toString width], run.docs ++ (summaryOf? doc).toList,
      run.bits + width⟩

/-- The name of the shared member. -/
def name (run : BitFieldRun) : String := "_".intercalate run.names

/-- The documentation of the shared member. -/
def doc (run : BitFieldRun) : Doc :=
  if run.docs.isEmpty then .none else .ofSummary (" ".intercalate run.docs)

/-- The member that the run of bit-fields in `record` shares; none when they hold no bits. -/
def flush (run : BitFieldRun) (record : String) : LowerM (List Field) :=
  if run.bits = 0 then return []
  else match Primitive.unsignedOfBits? run.bits with
    | none => throw (.bitFieldOverflow record run.name run.bits)
    | some storage => do
      let ty ← LowerM.primitive storage
      return [{ Field.ofType run.name ty with doc := run.doc }]

end BitFieldRun

end Bindery
