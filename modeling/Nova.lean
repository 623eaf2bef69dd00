import Nova.ForStd.Calendar
import Nova.ForStd.Decimal
import Nova.ForStd.Machine
import Nova.ForStd.Protocol
import Nova.ForStd.Rationing
import Nova.ForStd.Solo
import Nova.ForStd.Table
import Nova.ForStd.Text
import Nova.App.Domain
import Nova.App.Schemas
import Nova.App.Database
import Nova.App.Session
import Nova.App.Services
import Nova.App.Api
import Nova.App.Reports
import Nova.App.Auth
import Nova.Spec.Effect
import Nova.Spec.Log
import Nova.Spec.Ledger
import Nova.Spec.Audit
import Nova.Spec.LifeCycle
import Nova.Spec.Locking
import Nova.Spec.Contract
import Nova.Spec.Statements
import Nova.Spec.ServiceCorrect
import Nova.Spec.RouteCorrect
import Nova.Spec.Runs
import Nova.Spec.Phases
import Nova.Spec.LockOrder
import Nova.Spec.Deadlock
import Nova.Spec.Columns
import Nova.Spec.Overflow
import Nova.Spec.Conservation
import Nova.Spec.Atomicity
import Nova.Spec.History
import Nova.Spec.ReadEffect
import Nova.Spec.Competition
import Nova.Spec.Coherence
import Nova.Spec.Publication
import Nova.Spec.Serial
import Nova.Spec.Degradation
import Nova.Spec.Duplicates
import Nova.Spec.Acknowledgement
import Nova.Spec.Listing
import Nova.Spec.Figures
import Nova.Spec.Tally
import Nova.Spec.Refunds
import Nova.Spec.Trail
import Nova.Spec.Detail
import Nova.Spec.Cancellation
import Nova.Spec.Guard
import Nova.ForStd.Trace
import Nova.Spec.Progress
import Nova.Spec.Interruption
import Nova.Spec.Responses
import Nova.ForStd.Replay
import Nova.Spec.Inventory
import Nova.Spec.Linearization
import Nova.Spec.Findings
import Nova.Spec.Answers
import Nova.Spec.Linearizability
import Nova.Spec.Lifetimes
import Nova.Spec.Growth
import Nova.ForStd.Expiry
import Nova.ForStd.Numerals
import Nova.ForStd.Simulation
import Nova.App.Redis
import Nova.Spec.Expiration
import Nova.Spec.Partition
import Nova.Spec.Completeness
import Nova.ForStd.Steps
import Nova.Spec.Alerts
import Nova.Spec.Retries
import Nova.Spec.Versions
import Nova.Spec.Polling
