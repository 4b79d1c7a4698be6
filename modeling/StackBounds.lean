import StackBounds.Address
import StackBounds.Config
import StackBounds.Event
import StackBounds.Fault
import StackBounds.Fresh
import StackBounds.Json.Token
import StackBounds.Json.Value
import StackBounds.Lifetime
import StackBounds.Local
import StackBounds.Local.Report
import StackBounds.Program.Builder
import StackBounds.Program.Flow
import StackBounds.Program.Function
import StackBounds.Program.Guid
import StackBounds.Program.Instruction
import StackBounds.Program.Linkage
import StackBounds.Program.Listing
import StackBounds.Program.Module
import StackBounds.Program.Type
import StackBounds.Program.Value
import StackBounds.Range.Basic
import StackBounds.Range.Join
import StackBounds.Range.Resize
import StackBounds.Range.Sum
import StackBounds.Resolution
import StackBounds.Solver.Potential
import StackBounds.Solver.Run
import StackBounds.Solver.Visit
import StackBounds.Summary.Collect
import StackBounds.Summary.Index
import StackBounds.Summary.Propagate
import StackBounds.Summary.Record
import StackBounds.Table
import StackBounds.Target
import StackBounds.Usage
import StackBounds.Verdict
import StackBounds.Proofs.Range.Words
import StackBounds.Proofs.Range.Sets
import StackBounds.Proofs.Range.Shape
import StackBounds.Proofs.Range.Builders
import StackBounds.Proofs.Range.Inclusion
import StackBounds.Proofs.Range.Sizes
import StackBounds.Proofs.Range.Candidates
import StackBounds.Proofs.Range.Union
import StackBounds.Proofs.Range.Cover
import StackBounds.Proofs.Range.Hull
import StackBounds.Proofs.Range.Sums
import StackBounds.Proofs.Range.SignedSums
import StackBounds.Proofs.Solver.Growth
import StackBounds.Proofs.Solver.Steps
import StackBounds.Proofs.Solver.FixedPoint
import StackBounds.Proofs.Solver.Least
import StackBounds.Proofs.Solver.Bound
import StackBounds.Proofs.Computations
import StackBounds.Proofs.Summary.Binding
import StackBounds.Proofs.Summary.Translation
import StackBounds.Proofs.Summary.Chains
import StackBounds.Proofs.Range.Resizing
import StackBounds.Proofs.Semantics
import StackBounds.Proofs.Addresses
import StackBounds.Proofs.Local.Accesses
import StackBounds.Proofs.Local.Uses
import StackBounds.Proofs.Local.Functions
import StackBounds.Proofs.Resolving
import StackBounds.Proofs.Analysis
import StackBounds.Proofs.Safety
import StackBounds.Proofs.Control
import StackBounds.Proofs.Markers
import StackBounds.Proofs.Liveness
import StackBounds.Proofs.Aliases
import StackBounds.Proofs.Summary.Collecting
import StackBounds.Proofs.Summary.Linking
import StackBounds.Proofs.Agreement
import StackBounds.Proofs.Summary.Rounds
import StackBounds.Proofs.Endings
import StackBounds.Proofs.Forwarding
import StackBounds.Proofs.Straightness
import StackBounds.Proofs.Evaluation
import StackBounds.Proofs.Offsets
import StackBounds.Proofs.Local.Totality
import StackBounds.Proofs.Local.Lengths
import StackBounds.Proofs.Callees
import StackBounds.Proofs.Solver.Widths
import StackBounds.Proofs.Summary.Programs
import StackBounds.Proofs.Summary.Following
import StackBounds.Proofs.Summary.Symbols
import StackBounds.Proofs.Coherence
import StackBounds.Proofs.Local.Walks
import StackBounds.Proofs.Solver.Unforced
import StackBounds.Proofs.Summary.Owners
import StackBounds.Proofs.Summary.Renaming
import StackBounds.Proofs.Summary.Orders
import StackBounds.Proofs.PostOrder
import StackBounds.Proofs.ResolvedCalls
import StackBounds.Proofs.TypeSizes
import StackBounds.Proofs.Range.Points
import StackBounds.Proofs.Range.Conversions
import StackBounds.Proofs.ConstantAccesses
import StackBounds.Proofs.Json.Tokens
import StackBounds.Proofs.Json.Values
import StackBounds.Proofs.Summary.Records
import StackBounds.Proofs.AliasWalks
import StackBounds.Proofs.MarkerChains
import StackBounds.Proofs.CycleGuards
