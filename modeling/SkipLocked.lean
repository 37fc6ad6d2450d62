import SkipLocked.Attempts
import SkipLocked.LockFields
import SkipLocked.Reaper
import SkipLocked.Heartbeats
import SkipLocked.Outcomes
import SkipLocked.Interleavings
import SkipLocked.Shutdown
import SkipLocked.Conservation
import SkipLocked.RowLocks
import SkipLocked.Batches
import SkipLocked.Ownership
import SkipLocked.FairShare
import SkipLocked.EventKeys
import SkipLocked.WorkerLoop
import SkipLocked.Returns
import SkipLocked.Wakeups
import SkipLocked.Draining
import SkipLocked.CarrierCap
import SkipLocked.LeaseSeconds
import SkipLocked.RetryLimits
import SkipLocked.FailureProtocol
import SkipLocked.OutcomeOrder
import SkipLocked.IdenticalWork
import SkipLocked.Starvation
import SkipLocked.Schedules
import SkipLocked.Serial
import SkipLocked.RowWaits
import SkipLocked.Waiting
import SkipLocked.Transactions
import SkipLocked.Deliveries
import SkipLocked.Fleet
import SkipLocked.Backstop
import SkipLocked.DueTimes
import SkipLocked.HandlerProgress
import SkipLocked.Effects
import SkipLocked.RetryTimes
import SkipLocked.Payloads
import SkipLocked.Pacing
import SkipLocked.QueueProgress
import SkipLocked.Programs
