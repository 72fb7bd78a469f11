import QueueFlow.Lib.Run
import QueueFlow.Lib.Bag
import QueueFlow.Lib.KeyedList
import QueueFlow.Lib.Keyspace
import QueueFlow.Lib.Glob
import QueueFlow.Shared.Keys
import QueueFlow.Shared.Uuid
import QueueFlow.Shared.Types
import QueueFlow.Shared.Retry
import QueueFlow.Db
import QueueFlow.Redis
import QueueFlow.State
import QueueFlow.Worker.ProcessOne
import QueueFlow.Worker.Main
import QueueFlow.Scheduler.Main
import QueueFlow.Api.Jobs
import QueueFlow.System
import QueueFlow.Keys.Served
import QueueFlow.Script
import QueueFlow.Worker.Moves
import QueueFlow.Scheduler.Moves
import QueueFlow.Api.Moves
import QueueFlow.Fencing.Lease
import QueueFlow.Fencing.Stale
import QueueFlow.Fencing.Effects
import QueueFlow.Frame
import QueueFlow.Recovery.Verdict
import QueueFlow.Recovery.Agreement
import QueueFlow.Recovery.World
import QueueFlow.Recovery.Custody
import QueueFlow.Recovery.Fresh
import QueueFlow.Recovery.Retry
import QueueFlow.Recovery.Lost
import QueueFlow.Lib.Marking
import QueueFlow.Ledger.Rules
import QueueFlow.Ledger.Tokens
import QueueFlow.Api.Idempotency
import QueueFlow.Ids.Canonical
import QueueFlow.Ledger.Books
import QueueFlow.Ledger.Live
import QueueFlow.Ledger.Owner
import QueueFlow.Promotion.Backoff
import QueueFlow.Promotion.Scheduled
import QueueFlow.Rows.Columns
import QueueFlow.Rows.Replayed
import QueueFlow.Rows.Settled
import QueueFlow.Api.Auth
import QueueFlow.Api.Forgery
import QueueFlow.Api.Paging
import QueueFlow.Api.Walk
import QueueFlow.Sweep.Reach
import QueueFlow.Payload.Targets
import QueueFlow.Worker.Handlers
import QueueFlow.Worker.Failure
import QueueFlow.Worker.Settle
import QueueFlow.Api.Repeats
import QueueFlow.Shared.Semaphore
import QueueFlow.Worker.Drain
import QueueFlow.Worker.Entry
import QueueFlow.Ledger.Pipeline
import QueueFlow.Sweep.Orphans
import QueueFlow.Start
import QueueFlow.Api.Login
import QueueFlow.Api.Write
import QueueFlow.Api.Errors
import QueueFlow.Api.Late
import QueueFlow.Recovery.Chaos
import QueueFlow.Recovery.Rollback
import QueueFlow.Recovery.Reap
import QueueFlow.Recovery.Order
import QueueFlow.Recovery.Stop
import QueueFlow.Recovery.Restart
import QueueFlow.Recovery.Revive
import QueueFlow.Recovery.Forgotten
import QueueFlow.Recovery.Heartbeat
import QueueFlow.Scheduler.Loop
import QueueFlow.Api.Workers
import QueueFlow.Lib.Tally
import QueueFlow.Receiver.Hooks
import QueueFlow.Receiver.Delivery
import QueueFlow.Lib.Ddl
import QueueFlow.Migration.Schema
import QueueFlow.Migration.Tables
import QueueFlow.Queue.Order
import QueueFlow.Api.Health
import QueueFlow.Api.Admission
