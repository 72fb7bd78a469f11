-- SUMMARY: Job lifecycle states and job rows, and the SET clauses of the statements that write them.
import QueueFlow.Shared.Uuid

/-!
# Job rows

The columns of `jobs` that a modelled statement reads or writes. The columns
`type` and `payload` are left out: they only decide what the handler does, and a
handler may do anything here. Times are microseconds, the resolution of
`TIMESTAMPTZ`; a lease is the ordinal of the `gen_random_uuid()` that produced it.
-/

namespace QueueFlow

inductive JobStatus where
  | queued
  | running
  | retrying
  | succeeded
  | failed
  | dead
  deriving DecidableEq, Repr

/-- The text of the column. -/
def JobStatus.text : JobStatus → Text
  | .queued => "queued".toList
  | .running => "running".toList
  | .retrying => "retrying".toList
  | .succeeded => "succeeded".toList
  | .failed => "failed".toList
  | .dead => "dead".toList

/-- Nothing will happen to the job any more unless it is replayed. -/
def JobStatus.terminal : JobStatus → Bool
  | .succeeded | .failed | .dead => true
  | _ => false

/-- `status IN ('queued', 'retrying')`. -/
def JobStatus.claimable : JobStatus → Bool
  | .queued | .retrying => true
  | _ => false

structure JobRow where
  id : Uuid
  status : JobStatus
  attempts : Nat
  maxAttempts : Nat
  lastError : Option Text
  idempotencyKey : Option Text
  createdAt : Nat
  startedAt : Option Nat
  completedAt : Option Nat
  nextRunAt : Option Nat
  leaseId : Option Nat
  deriving DecidableEq, Repr

/-- `max_attempts INT NOT NULL DEFAULT 5`. -/
def defaultMaxAttempts : Nat := 5

namespace JobRow

/-- `INSERT INTO jobs (id, type, payload, status, idempotency_key) VALUES (…, 'queued', …)`. -/
def inserted (id : Uuid) (key : Option Text) (now : Nat) : JobRow where
  id := id
  status := .queued
  attempts := 0
  maxAttempts := defaultMaxAttempts
  lastError := none
  idempotencyKey := key
  createdAt := now
  startedAt := none
  completedAt := none
  nextRunAt := none
  leaseId := none

/-- The claim of `processOne`. -/
def claimed (lease now : Nat) (r : JobRow) : JobRow :=
  { r with status := .running, startedAt := some now, attempts := r.attempts + 1,
           leaseId := some lease }

/-- The UPDATE of the success transaction. -/
def succeeded (now : Nat) (r : JobRow) : JobRow :=
  { r with status := .succeeded, completedAt := some now }

/-- The `'dead'` write, the same for `processOne` and `reapWorker`. -/
def buried (message : Text) (now : Nat) (r : JobRow) : JobRow :=
  { r with status := .dead, lastError := some message, completedAt := some now, nextRunAt := none }

/-- The `'retrying'` write of `processOne`; `runAt` is a `Date`, in milliseconds. -/
def parked (message : Text) (runAt : Nat) (r : JobRow) : JobRow :=
  { r with status := .retrying, lastError := some message, nextRunAt := some (runAt * 1000) }

/-- The `'queued'` write of `promoteDue`. -/
def promoted (r : JobRow) : JobRow :=
  { r with status := .queued, nextRunAt := none }

/-- The `'queued'` write of `reapWorker` and of `recoverOwnProcessing`. -/
def requeued (r : JobRow) : JobRow :=
  { r with status := .queued, startedAt := none }

/-- The UPDATE of `POST /jobs/:id/replay`. -/
def replayed (r : JobRow) : JobRow :=
  { r with status := .queued, attempts := 0, lastError := none, nextRunAt := none,
           startedAt := none, completedAt := none }

end JobRow

/-- A row of `job_effects`. -/
structure Effect where
  jobId : Uuid
  workerId : Text
  ranAt : Nat
  deriving DecidableEq, Repr

end QueueFlow
