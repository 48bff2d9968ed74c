import LambdaStepper.Draft.Print
import LambdaStepper.Draft.Reduction
import LambdaStepper.Identity.Reduction
import LambdaStepper.Main
import LambdaStepper.Proofs.Identity.NormalOrder
import LambdaStepper.Proofs.Reduction.CaptureAvoidance
import LambdaStepper.Proofs.Reduction.Normalization
import LambdaStepper.Proofs.Syntax.RoundTrip
import LambdaStepper.Reduction.Beta
import LambdaStepper.Syntax.Grammar
import LambdaStepper.Proofs.Term.CanonicalText
import LambdaStepper.Proofs.Syntax.Greedy
import LambdaStepper.Proofs.Decimal.Rounding
import LambdaStepper.Proofs.Layout.Outline
import LambdaStepper.Proofs.Layout.Faithful
import LambdaStepper.Proofs.Layout.Untangled
import LambdaStepper.Proofs.Layout.Points
import LambdaStepper.Proofs.Reduction.NameGrowth
import LambdaStepper.Proofs.Reduction.NumeralTags
import LambdaStepper.Proofs.Syntax.NumeralText
import LambdaStepper.Proofs.Registry.Expanded
import LambdaStepper.Proofs.Syntax.Provenance
import LambdaStepper.Proofs.Syntax.ShownTerms
import LambdaStepper.Proofs.Identity.NumeralTags
import LambdaStepper.Proofs.Registry.Lasting
import LambdaStepper.Proofs.Layout.Boxes
import LambdaStepper.Proofs.Reduction.Arithmetic
import LambdaStepper.Proofs.Registry.Composition
import LambdaStepper.Proofs.Registry.Acyclic
import LambdaStepper.Proofs.Session.Stepping
import LambdaStepper.Proofs.Identity.Uniqueness
import LambdaStepper.Proofs.Prettify.Meaning
import LambdaStepper.Proofs.Reduction.Exponentiation
import LambdaStepper.Proofs.Layout.Extents
import LambdaStepper.Proofs.Layout.Drawability
import LambdaStepper.Proofs.Identity.NameTags
import LambdaStepper.Proofs.Identity.Highlights
import LambdaStepper.Proofs.Shell.Answers
import LambdaStepper.Proofs.Shell.Clean
import LambdaStepper.Proofs.Shell.Statements
import LambdaStepper.Proofs.Layout.Mirrored
import LambdaStepper.Proofs.Prettify.Invariance
import LambdaStepper.Proofs.Session.Ledger
import LambdaStepper.Proofs.Registry.Numerals
import LambdaStepper.Proofs.Session.Grouping
import LambdaStepper.Proofs.Report.Culprits
import LambdaStepper.Identity.Layout
import LambdaStepper.Proofs.Identity.Layout
import LambdaStepper.Proofs.Reduction.FreshNames
import LambdaStepper.Proofs.Reduction.Renaming
import LambdaStepper.Proofs.Layout.LitTree
import LambdaStepper.Proofs.Layout.RedexHighlights
