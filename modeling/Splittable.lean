import Splittable.Numeric.Bits
import Splittable.Json.Codec
import Splittable.Striding
import Splittable.Check
import Splittable.Session
import Splittable.Coordination.Script
import Splittable.Coordination.Rehearsal
import Splittable.Proofs.Tracker.Lineage
import Splittable.Proofs.Session.Counting
import Splittable.Proofs.Coordination.Coherence
import Splittable.Proofs.Coordination.Levels
import Splittable.Proofs.Coordination.Stages
import Splittable.Proofs.Coordination.Processing
import Splittable.Proofs.Coordination.Splitting
import Splittable.Proofs.Coordination.Verdict
import Splittable.Proofs.Coordination.Direction
import Splittable.Proofs.Coordination.Cues
import Splittable.Proofs.Coordination.Waiting
import Splittable.Proofs.Coordination.Interleavings
import Splittable.Proofs.Coordination.Outcome
import Splittable.Proofs.Tracker.Histories
import Splittable.Proofs.Session.Sharing
import Splittable.Proofs.Session.Verdict
import Splittable.Proofs.Work.Alone
import Splittable.Proofs.Batch.Orders
import Splittable.Proofs.Session.Alone
import Splittable.Proofs.Batch.Pool
import Splittable.Proofs.Batch.Items
import Splittable.Proofs.Batch.Outcome
import Splittable.Proofs.Span.Pieces
import Splittable.Proofs.Batch.Counting
import Splittable.Proofs.Span.Even
import Splittable.Proofs.Numeric.Fractions
import Splittable.Proofs.Tracker.Cutting
import Splittable.Proofs.Tracker.Claims
import Splittable.Proofs.Coordination.Scene
import Splittable.Proofs.Coordination.Balance
import Splittable.Proofs.Coordination.Serial
import Splittable.Proofs.Numeric.Exactness
import Splittable.Proofs.Numeric.Values
import Splittable.Proofs.Tracker.Reports
import Splittable.Proofs.Tracker.Completion
import Splittable.Proofs.Tracker.Sweeping
import Splittable.Proofs.Tracker.Keeping
import Splittable.Proofs.Work.Judged
import Splittable.Proofs.Coordination.Verification
import Splittable.Proofs.Coordination.Draining
import Splittable.Proofs.Coordination.Blocking
import Splittable.Proofs.Numeric.Shares
import Splittable.Proofs.Tracker.Points
import Splittable.Proofs.Crew.Counts
import Splittable.Proofs.Check.Verdicts
import Splittable.Proofs.Json.Digits
import Splittable.Proofs.Json.Reading
import Splittable.Proofs.Json.Records
import Splittable.Proofs.Json.Codec
