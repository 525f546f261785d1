import ImplicitCurves.Coalescer
import ImplicitCurves.Decimal.Scientific
import ImplicitCurves.Main
import ImplicitCurves.Parser.Nesting
import ImplicitCurves.Proofs.Program.Execution
import ImplicitCurves.Proofs.Program.Meaning
import ImplicitCurves.Proofs.Program.Isolation
import ImplicitCurves.Proofs.Program.Halting
import ImplicitCurves.Proofs.Program.Assembly
import ImplicitCurves.Proofs.Program.Simulation
import ImplicitCurves.Proofs.Program.CallGraph
import ImplicitCurves.Proofs.Program.Correctness
import ImplicitCurves.Proofs.Tree.Interpretation
import ImplicitCurves.Proofs.Tree.Linking
import ImplicitCurves.Proofs.Tree.Inlining
import ImplicitCurves.Proofs.Tree.Agreement
import ImplicitCurves.Proofs.Notation.Lexing
import ImplicitCurves.Proofs.Notation.Kinds
import ImplicitCurves.Proofs.Notation.Writing
import ImplicitCurves.Proofs.Notation.Grammar
import ImplicitCurves.Proofs.Notation.Groups
import ImplicitCurves.Proofs.Notation.Complete
import ImplicitCurves.Proofs.Notation.Longest
import ImplicitCurves.Proofs.Notation.Endings
import ImplicitCurves.Proofs.Notation.Reading
import ImplicitCurves.Proofs.Notation.RoundTrip
import ImplicitCurves.Proofs.Notation.Unambiguous
import ImplicitCurves.Proofs.Notation.Brackets
import ImplicitCurves.Proofs.Notation.Inline
import ImplicitCurves.Proofs.Notation.Produced
import ImplicitCurves.Proofs.Notation.Parens
import ImplicitCurves.Proofs.Notation.Tidy
import ImplicitCurves.Proofs.Notation.Greedy
import ImplicitCurves.Proofs.Notation.Negation
import ImplicitCurves.Proofs.Tree.Recursion
import ImplicitCurves.Proofs.Tree.Detection
import ImplicitCurves.Proofs.Session.Failures
import ImplicitCurves.Proofs.Session.Acyclic
import ImplicitCurves.Proofs.Scalar.Binary64
import ImplicitCurves.Proofs.Program.SignedZero
import ImplicitCurves.Proofs.Program.CompiledCode
import ImplicitCurves.Proofs.Program.WellFormed
import ImplicitCurves.Proofs.Program.LinkedCalls
import ImplicitCurves.Proofs.Tree.OnePass
import ImplicitCurves.Proofs.Program.CompiledPrograms
import ImplicitCurves.Proofs.Notation.Sides
import ImplicitCurves.Proofs.Scalar.Unsigned
import ImplicitCurves.Proofs.Notation.Rereading
import ImplicitCurves.Proofs.Notation.Stability
import ImplicitCurves.Proofs.Notation.Units
import ImplicitCurves.Proofs.Notation.Chains
import ImplicitCurves.Proofs.Notation.Acceptance
import ImplicitCurves.Proofs.Notation.Calls
import ImplicitCurves.Proofs.Notation.WrittenChains
import ImplicitCurves.Proofs.Roots.OnGrid
import ImplicitCurves.Proofs.Scalar.Rounding
import ImplicitCurves.Proofs.Scalar.Values
import ImplicitCurves.Proofs.Roots.Ends
import ImplicitCurves.Proofs.Notation.Neighbours
import ImplicitCurves.Proofs.Notation.Placement
import ImplicitCurves.Proofs.Tree.FittingCalls
import ImplicitCurves.Proofs.Tree.Dependence
import ImplicitCurves.Proofs.Program.Symbols
import ImplicitCurves.Proofs.Coalescing
import ImplicitCurves.Proofs.Sampling.Records
import ImplicitCurves.Proofs.Scalar.ExactOperations
import ImplicitCurves.Proofs.Sampling.Coverage
import ImplicitCurves.Proofs.Notation.Lexemes
import ImplicitCurves.Proofs.Notation.TokenSpans
import ImplicitCurves.Proofs.Roots.Bisection
import ImplicitCurves.Proofs.Notation.Composition
import ImplicitCurves.Proofs.Notation.Cuts
import ImplicitCurves.Proofs.Notation.ClosingParens
import ImplicitCurves.Proofs.Notation.Products
import ImplicitCurves.Proofs.Sampling.Decoding
import ImplicitCurves.Proofs.Tree.Assignment
import ImplicitCurves.Proofs.Tree.FaithfulLinks
import ImplicitCurves.Proofs.Notation.Explanations
import ImplicitCurves.Proofs.Curve.Variables
import ImplicitCurves.Proofs.Curve.Functions
import ImplicitCurves.Proofs.Failing
import ImplicitCurves.Proofs.Tree.LinkFailures
import ImplicitCurves.Proofs.Session.ErrorPlaces
import ImplicitCurves.Proofs.Notation.Recleaning
import ImplicitCurves.Proofs.Scalar.Quotients
import ImplicitCurves.Proofs.Roots.InRange
import ImplicitCurves.Proofs.Tree.Globals
import ImplicitCurves.Proofs.Curve.Explicit
import ImplicitCurves.Proofs.Notation.Slices
import ImplicitCurves.Proofs.Notation.IndexedReading
import ImplicitCurves.Proofs.Notation.Pairing
import ImplicitCurves.Proofs.Session.Independence
import ImplicitCurves.Proofs.Program.Reuse
