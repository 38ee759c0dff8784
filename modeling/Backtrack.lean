import Backtrack.Blueprint.Family
import Backtrack.Context.Bench
import Backtrack.Context.Script
import Backtrack.Layout.Shape
import Backtrack.Proofs.Alternation
import Backtrack.Proofs.Backtracking
import Backtrack.Proofs.Binding
import Backtrack.Proofs.Commitment
import Backtrack.Proofs.Continuations
import Backtrack.Proofs.CursorHistories
import Backtrack.Proofs.DefinitionOrder
import Backtrack.Proofs.Escalation
import Backtrack.Proofs.Escape
import Backtrack.Proofs.Factoring
import Backtrack.Proofs.FailureModes
import Backtrack.Proofs.Indirection
import Backtrack.Proofs.Inspection
import Backtrack.Proofs.Leaves
import Backtrack.Proofs.Lifetimes
import Backtrack.Proofs.MaximalRuns
import Backtrack.Proofs.Peg
import Backtrack.Proofs.Repetition
import Backtrack.Proofs.Restoring
import Backtrack.Proofs.Rewinds
import Backtrack.Proofs.Sequencing
import Backtrack.Proofs.SoftFailure
import Backtrack.Rule.History
import Backtrack.Vocabulary.Continuation
import Backtrack.Vocabulary.Transformer
