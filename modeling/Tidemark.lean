import Tidemark.Checkpoint.Coordinator
import Tidemark.Operator.Feeding
import Tidemark.Operator.Firing
import Tidemark.Window.PolicyEncoding
import Tidemark.Proofs.Operator.Reached
import Tidemark.Proofs.Operator.Replay
import Tidemark.Proofs.Operator.Arrivals
import Tidemark.Proofs.Operator.FixedWindows
import Tidemark.Proofs.Operator.SessionWindows
import Tidemark.Proofs.Table.Capacity
import Tidemark.Proofs.Operator.Buffering
import Tidemark.Proofs.Operator.FailedRestore
import Tidemark.Proofs.Operator.FailedFiring
import Tidemark.Proofs.Operator.Refusals
import Tidemark.Proofs.Checkpoint.Recovery
import Tidemark.Proofs.Operator.EmissionOrder
import Tidemark.Proofs.Operator.Punctuality
import Tidemark.Proofs.Operator.ArrivalOrder
import Tidemark.Proofs.Operator.KeyIsolation
import Tidemark.Proofs.Operator.TimeDomains
import Tidemark.Proofs.Checkpoint.Interruption
import Tidemark.Proofs.Checkpoint.Fleet
import Tidemark.Proofs.Checkpoint.Interchange
import Tidemark.Proofs.Operator.Assignment
import Tidemark.Proofs.Table.Handover
import Tidemark.Proofs.Operator.Watermarks
import Tidemark.Proofs.Window.Connection
import Tidemark.Proofs.Operator.Batching
import Tidemark.Proofs.DropMeter
import Tidemark.Proofs.Checkpoint.PersistedForms
import Tidemark.Proofs.Operator.Lifecycle
import Tidemark.Proofs.Checkpoint.Lifecycle
import Tidemark.Proofs.Operator.Outset
import Tidemark.Proofs.Window.Drafts
import Tidemark.Proofs.Assembly
