import HygienicMacros.Catalogue
import HygienicMacros.Demonstration
import HygienicMacros.Error
import HygienicMacros.Evaluator
import HygienicMacros.Expander.Check
import HygienicMacros.Expander.Context
import HygienicMacros.Expander.Entry
import HygienicMacros.Expander.Run
import HygienicMacros.Expander.Session
import HygienicMacros.Expander.State
import HygienicMacros.Expander.Stepper
import HygienicMacros.Macro.Action
import HygienicMacros.Macro.Listing
import HygienicMacros.Macro.Pattern
import HygienicMacros.Macro.Registry
import HygienicMacros.Macro.Shelf
import HygienicMacros.Main
import HygienicMacros.ModuleName
import HygienicMacros.Number.Binary64
import HygienicMacros.Number.Decimal
import HygienicMacros.Palette
import HygienicMacros.Proofs.Computation
import HygienicMacros.Proofs.Marks
import HygienicMacros.Render.Inline
import HygienicMacros.Render.Outline
import HygienicMacros.Render.Span
import HygienicMacros.Render.Text
import HygienicMacros.Scope.Flatten
import HygienicMacros.Scope.Resolve
import HygienicMacros.Script.Basic
import HygienicMacros.Script.Evaluate
import HygienicMacros.Template.Quote
import HygienicMacros.Template.Substitute
import HygienicMacros.Text.Case
import HygienicMacros.Text.Digit
import HygienicMacros.Text.Lines
import HygienicMacros.Text.Printable
import HygienicMacros.Text.Quoted
import HygienicMacros.Tree.Basic
import HygienicMacros.Tree.Construct
import HygienicMacros.Tree.Notes
import HygienicMacros.Tree.Views
import HygienicMacros.Value.Change
import HygienicMacros.Value.Equality
import HygienicMacros.Value.Inspect
import HygienicMacros.Value.Sum
import HygienicMacros.Value.Tour
import HygienicMacros.Value.Walk
import HygienicMacros.Proofs.Derivation
import HygienicMacros.Proofs.Adequacy
import HygienicMacros.Proofs.NormalForm
import HygienicMacros.Proofs.Completeness
import HygienicMacros.Proofs.Retagging
import HygienicMacros.Proofs.Layers
import HygienicMacros.Proofs.Freshness
import HygienicMacros.Proofs.Stepping
import HygienicMacros.Proofs.Meaning
import HygienicMacros.Proofs.Positions
import HygienicMacros.Proofs.CallSites
import HygienicMacros.Proofs.Evaluation
import HygienicMacros.Proofs.ControlFlow
import HygienicMacros.Proofs.Flattening
import HygienicMacros.Proofs.FlatEvaluation
import HygienicMacros.Proofs.ErrorKinds
import HygienicMacros.Proofs.Restoration
import HygienicMacros.Proofs.Reports
import HygienicMacros.Proofs.Termination
import HygienicMacros.Proofs.Coupling
import HygienicMacros.Proofs.Monotonicity
import HygienicMacros.Proofs.Obliviousness
import HygienicMacros.Proofs.Identity
import HygienicMacros.Proofs.Nesting
import HygienicMacros.Proofs.Closing
import HygienicMacros.Proofs.DepthGuard
import HygienicMacros.Proofs.OneLayer
import HygienicMacros.Proofs.Filling
import HygienicMacros.Proofs.Mappings
import HygienicMacros.Proofs.Quoting
import HygienicMacros.Proofs.Resolution
import HygienicMacros.Proofs.Lookup
import HygienicMacros.Proofs.Congruence
import HygienicMacros.Proofs.TagAllocation
import HygienicMacros.Proofs.NameSearch
import HygienicMacros.Proofs.ControlCharacters
import HygienicMacros.Proofs.Drawing
import HygienicMacros.Proofs.Coloring
import HygienicMacros.Proofs.SourceLines
