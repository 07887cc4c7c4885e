import Tandem.Documents
import Tandem.Ledger
import Tandem.Registry.Roster
import Tandem.Rule.Tower
import Tandem.Simulation.Audit
import Tandem.Simulation.Report
import Tandem.Proofs.Plan.Groups
import Tandem.Proofs.Plan.Order
import Tandem.Proofs.Plan.Schedule
import Tandem.Proofs.Workers.Basic
import Tandem.Proofs.Workers.Commute
import Tandem.Proofs.Partition
import Tandem.Proofs.Workers.Turn
import Tandem.Proofs.Compute
import Tandem.Proofs.Workers.Tasks
import Tandem.Proofs.Workers.Follow
import Tandem.Proofs.Workers.Interleavings
import Tandem.Proofs.Step
import Tandem.Proofs.Abandon
import Tandem.Proofs.Commit
import Tandem.Proofs.Reachable
import Tandem.Proofs.Equations
import Tandem.Proofs.Success
import Tandem.Proofs.Session
import Tandem.Proofs.Crash
import Tandem.Proofs.Plan.Runnable
import Tandem.Proofs.Grouping
import Tandem.Proofs.Rules
import Tandem.Proofs.Nested.Replaying
import Tandem.Proofs.Nested.Memory
import Tandem.Proofs.Nested.InnerRun
import Tandem.Proofs.Phase
import Tandem.Proofs.Bounds
import Tandem.Proofs.Blame
import Tandem.Proofs.Workers.Handoff
import Tandem.Proofs.Causes
import Tandem.Proofs.Retry
import Tandem.Proofs.Registry.Requests
import Tandem.Proofs.Registry.Order
import Tandem.Proofs.Registry.Names
import Tandem.Proofs.Registry.Resolution
import Tandem.Proofs.Stock
import Tandem.Proofs.Start
import Tandem.Proofs.Counterparts
import Tandem.Proofs.Noninterference
import Tandem.Proofs.Registry.Reorder
import Tandem.Proofs.Deliveries.Calls
import Tandem.Proofs.Nested.Loss
import Tandem.Proofs.Nested.Declared
import Tandem.Proofs.Steady
import Tandem.Proofs.Nested.Forward
import Tandem.Proofs.Recast
import Tandem.Proofs.Audit.Check
import Tandem.Proofs.Audit.Phase
import Tandem.Proofs.Audit.Transparent
import Tandem.Proofs.Archive
import Tandem.Proofs.Interchange
import Tandem.Proofs.Audit.Record
import Tandem.Proofs.Audit.Residue
import Tandem.Proofs.Plan.Cycle
import Tandem.Proofs.Registry.Consistent
import Tandem.Proofs.Audit.Alarm
import Tandem.Proofs.Plan.Document
import Tandem.Proofs.Sliding
import Tandem.Proofs.Shape
import Tandem.Proofs.Ledger
import Tandem.Proofs.Registry.Roster
import Tandem.Proofs.Random.Mixing
import Tandem.Proofs.Random.Period
import Tandem.Proofs.Random.Stuck
import Tandem.Proofs.Nested.Overrides
import Tandem.Proofs.Resume
