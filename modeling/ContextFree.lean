import ContextFree.Grammar.Builder
import ContextFree.Grammar.Reader
import ContextFree.Language
import ContextFree.Parser
import ContextFree.Proofs.Chart.Fill
import ContextFree.Proofs.Chart.Recognition
import ContextFree.Proofs.Grammar.Form
import ContextFree.Proofs.Normal.Binarize
import ContextFree.Proofs.Normal.Normalized
import ContextFree.Proofs.Normal.NullingFree
import ContextFree.Proofs.Normal.UnitFree
import ContextFree.Proofs.Normal.Useful
import ContextFree.Proofs.Parser
import ContextFree.Proofs.Provenance.Group
import ContextFree.Proofs.Chart.Outcome
import ContextFree.Proofs.Chart.Justification
import ContextFree.Proofs.Chart.Canonical
import ContextFree.Proofs.Provenance.Acceptance
import ContextFree.Proofs.Provenance.Policy
import ContextFree.Proofs.Normal.Failure
import ContextFree.Proofs.Normal.Fixpoint
import ContextFree.Proofs.Chart.ShortCircuit
import ContextFree.Proofs.Grammar.Reload
import ContextFree.Proofs.Grammar.Alphabet
import ContextFree.Proofs.Operation
import ContextFree.Proofs.Normal.Variants
import ContextFree.Proofs.Normal.NullingRecord
import ContextFree.Proofs.Normal.UnitReach
import ContextFree.Proofs.Normal.Idempotence
import ContextFree.Proofs.Normal.Occurrence
import ContextFree.Proofs.Normal.UnitRecord
import ContextFree.Proofs.Normal.SplitRecord
import ContextFree.Proofs.Derivation.Growth
import ContextFree.Proofs.Provenance.Conservation
import ContextFree.Proofs.Grammar.Nullability
import ContextFree.Proofs.Chart.Rejection
import ContextFree.Proofs.Grammar.LeastClosure
import ContextFree.Proofs.Grammar.Pivots
import ContextFree.Proofs.Normal.WitnessMap
import ContextFree.Proofs.Normal.FreshName
import ContextFree.Proofs.Normal.Counter
