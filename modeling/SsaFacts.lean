import SsaFacts.Fingerprint
import SsaFacts.Overrides
import SsaFacts.Program.Listing
import SsaFacts.Main
import SsaFacts.Proofs.Translation
import SsaFacts.Proofs.Returns
import SsaFacts.Proofs.Folding
import SsaFacts.Proofs.NormalForms
import SsaFacts.Proofs.Forest
import SsaFacts.Proofs.Stated
import SsaFacts.Proofs.Captures
import SsaFacts.Proofs.Reduction
import SsaFacts.Proofs.Levels
import SsaFacts.Proofs.Conversation
import SsaFacts.Proofs.Answers
import SsaFacts.Proofs.Holding
import SsaFacts.Proofs.Coherence
import SsaFacts.Proofs.Constants
import SsaFacts.Proofs.Discovery
import SsaFacts.Proofs.SideConditions
import SsaFacts.Proofs.Overflow
import SsaFacts.Proofs.Consistency
import SsaFacts.Proofs.Declarations
import SsaFacts.Proofs.Partition
import SsaFacts.Proofs.Restoration
import SsaFacts.Proofs.Postorder
import SsaFacts.Proofs.Dominance
import SsaFacts.Proofs.ImmediateDominators
import SsaFacts.Proofs.Paths
import SsaFacts.Proofs.NaturalLoops
import SsaFacts.Proofs.Nesting
import SsaFacts.Proofs.Building
import SsaFacts.Proofs.Loops
import SsaFacts.Proofs.Surveys
import SsaFacts.Proofs.Linking
import SsaFacts.Proofs.LoopNesting
import SsaFacts.Proofs.ExecutionCounts
import SsaFacts.Proofs.Activations
import SsaFacts.Proofs.BranchFacts
import SsaFacts.Proofs.Operations
import SsaFacts.Proofs.ArgumentBinding
import SsaFacts.Proofs.EdgeExclusions
import SsaFacts.Proofs.LastAccesses
import SsaFacts.Proofs.SsaForm
import SsaFacts.Proofs.Runs
import SsaFacts.Proofs.CountingLoops
import SsaFacts.Proofs.TripCounts
import SsaFacts.Proofs.LoopBodies
import SsaFacts.Proofs.Iterations
import SsaFacts.Proofs.EarlierIterations
import SsaFacts.Proofs.RecurrentBounds
import SsaFacts.Proofs.OnceFunctions
import SsaFacts.Proofs.Remarks
import SsaFacts.Proofs.Substitution
import SsaFacts.Proofs.Verdicts
import SsaFacts.Proofs.Complements
import SsaFacts.Proofs.Disabled
import SsaFacts.Proofs.Renaming
import SsaFacts.Proofs.Realization
import SsaFacts.Proofs.Entailment
import SsaFacts.Proofs.Symmetry
import SsaFacts.Proofs.Typing
import SsaFacts.Proofs.Widths
import SsaFacts.Proofs.LoopWidths
import SsaFacts.Proofs.CallerChains
import SsaFacts.Proofs.Diagnosis
import SsaFacts.Proofs.Leases
import SsaFacts.Proofs.Provenance
import SsaFacts.Proofs.AddressFacts
import SsaFacts.Proofs.OperationFacts
import SsaFacts.Proofs.LiteralArithmetic
import SsaFacts.Proofs.BackEdges
import SsaFacts.Proofs.WriteSummaries
import SsaFacts.Proofs.ModelReads
import SsaFacts.Proofs.PartialModels
import SsaFacts.Proofs.Searches
import SsaFacts.Proofs.Numerals
import SsaFacts.Proofs.Wording
