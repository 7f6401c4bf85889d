import Bindery.Decl.Basic
import Bindery.Decl.Filter
import Bindery.Definition
import Bindery.Diagnostic
import Bindery.Emit
import Bindery.ExportMap
import Bindery.Expr.Basic
import Bindery.Expr.Constant
import Bindery.Expr.Cursor
import Bindery.Expr.Env
import Bindery.Expr.Error
import Bindery.Expr.Evaluation
import Bindery.Expr.Lexer
import Bindery.Expr.Literal
import Bindery.Expr.Parser
import Bindery.Expr.Printer
import Bindery.Expr.Token
import Bindery.Expr.Ty
import Bindery.Expr.Typing
import Bindery.Generator
import Bindery.Identifier.Camel
import Bindery.Identifier.Spans
import Bindery.Identifier.Words
import Bindery.Image.Bytes
import Bindery.Image.Cursor
import Bindery.Image.Exports
import Bindery.Interner
import Bindery.Lowerer
import Bindery.Lowering.Basic
import Bindery.Lowering.BitField
import Bindery.Lowering.Macros
import Bindery.Lowering.Override
import Bindery.Lowering.Resolve
import Bindery.NameTable
import Bindery.Pass.Rename
import Bindery.Pass.Visit
import Bindery.Policy.Renamer
import Bindery.Policy.Visitor
import Bindery.Primitive
import Bindery.Registry
import Bindery.Text.Blank
import Bindery.Text.CaseTable
import Bindery.Text.Casing
import Bindery.Text.Continuation
import Bindery.Text.Printable
import Bindery.Text.Quoted
import Bindery.Text.Search
import Bindery.Text.Slice
import Bindery.Text.Utf8
import Bindery.TypeRef
import Bindery.Proofs.Expr.Grammar
import Bindery.Proofs.Expr.Reader
import Bindery.Proofs.Expr.Soundness
import Bindery.Proofs.Expr.Completeness
import Bindery.Proofs.Expr.Acceptance
import Bindery.Proofs.Expr.Spelling
import Bindery.Proofs.Expr.Rescan
import Bindery.Proofs.Expr.Readable
import Bindery.Proofs.Expr.HostText
import Bindery.Proofs.Expr.HostForm
import Bindery.Proofs.Expr.Stability
import Bindery.Proofs.Expr.Nesting
import Bindery.Proofs.Expr.Parentheses
import Bindery.Proofs.Pass.Display
import Bindery.Proofs.Registry.Slots
import Bindery.Proofs.Pass.Naming
import Bindery.Proofs.Registry.Consistent
import Bindery.Proofs.Registry.History
import Bindery.Proofs.Lowering.ArrayName
import Bindery.Proofs.Lowering.WellTyped
import Bindery.Proofs.Lowering.Advance
import Bindery.Proofs.Lowering.Reached
import Bindery.Proofs.Lowering.FixedArrays
import Bindery.Proofs.Lowering.Reading
import Bindery.Proofs.Lowering.Again
import Bindery.Proofs.Text.Utf8
import Bindery.Proofs.Image.RandomAccess
import Bindery.Proofs.Image.Listing
import Bindery.Proofs.Lowering.Sighting
import Bindery.Proofs.Lowering.Accounts
import Bindery.Proofs.Lowering.Logging
import Bindery.Proofs.Lowering.Filling
import Bindery.Proofs.Lowering.MacroSightings
import Bindery.Proofs.Lowering.Runs
import Bindery.Proofs.Lowering.Completion
import Bindery.Proofs.Lowering.ExportedFunctions
import Bindery.Proofs.Lowering.NestedNames
import Bindery.Proofs.Expr.Constancy
import Bindery.Proofs.Registry.InPlace
import Bindery.Proofs.Lowering.Classification
import Bindery.Proofs.Lowering.Sparing
import Bindery.Proofs.Lowering.FaithfulMacros
import Bindery.Proofs.Lowering.ExportGate
import Bindery.Proofs.Pass.Locality
import Bindery.Proofs.Pass.Chaining
import Bindery.Proofs.Image.Extension
import Bindery.Proofs.Expr.Classifier
import Bindery.Proofs.Lowering.Delegates
import Bindery.Proofs.Lowering.Halting
import Bindery.Proofs.Lowering.Rules
import Bindery.Proofs.Lowering.Blindness
import Bindery.Proofs.Lowering.Packing
import Bindery.Proofs.Lowering.Processing
import Bindery.Proofs.Pass.Repetition
import Bindery.Proofs.Lowering.Transparency
import Bindery.Proofs.Text.Slice
import Bindery.Proofs.Expr.Cursor
import Bindery.Proofs.Expr.CursorTokens
import Bindery.Proofs.Expr.Offsets
import Bindery.Proofs.Expr.Integers
import Bindery.Proofs.Expr.TokenEnds
import Bindery.Proofs.Expr.Spacing
import Bindery.Proofs.Text.Continuation
import Bindery.Proofs.Expr.Folding
import Bindery.Proofs.Identifier.Words
import Bindery.Proofs.Identifier.EnumItems
import Bindery.Proofs.Identifier.Clashes
import Bindery.Proofs.Lowering.EnumValues
import Bindery.Proofs.Registry.Interner
import Bindery.Proofs.Text.Folded
