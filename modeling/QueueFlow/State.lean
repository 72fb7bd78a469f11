-- SUMMARY: The state of the whole system: both stores, the clock, and the position of every process in its program.
import QueueFlow.Db
import QueueFlow.Redis
import QueueFlow.Shared.Retry

/-!
# The system state

Every process is at a point of its program that is named after the command it
issues next. The points carry the local variables that the rest of the program
reads. Executions of `processOne`, scheduler processes and API requests are kept
as bags: a thread of control is its local state, and equal ones are
interchangeable.
-/

namespace QueueFlow

/-! ## Executions -/

/-- What an execution of `processOne` keeps from its claim: the job, the lease it
proves its ownership with, and the attempt it is. -/
structure Holding where
  job : Uuid
  lease : Nat
  attempts : Nat
  maxAttempts : Nat
  deriving DecidableEq, Repr

/-- The points of `processOne` and of the code around it in `main`. -/
inductive ExecPc where
  /-- `LREM` of an entry that is not a uuid. -/
  | discard
  /-- `SELECT … FROM jobs WHERE id = $1`. -/
  | select
  /-- `UPDATE … SET status = 'running'`. -/
  | claim (job : Uuid) (maxAttempts : Nat)
  /-- `await handlers[job.type](job, log)`. -/
  | handler (h : Holding)
  /-- `connect` and `BEGIN`. -/
  | txBegin (h : Holding)
  /-- `UPDATE … SET status = 'succeeded'`, inside the transaction begun at `began`. -/
  | txUpdate (h : Holding) (began : Nat)
  /-- `INSERT INTO job_effects`. -/
  | txInsert (h : Holding) (began : Nat)
  /-- `COMMIT`. -/
  | txCommit (h : Holding) (began : Nat)
  /-- `ROLLBACK` after the UPDATE matched no row. -/
  | txRollback (h : Holding)
  /-- `UPDATE … SET status = 'dead'`. -/
  | bury (h : Holding) (message : Text)
  /-- `UPDATE … SET status = 'retrying'`. -/
  | park (h : Holding) (message : Text) (runAt : Nat)
  /-- `ZADD delayed`. -/
  | zadd (h : Holding) (runAt : Nat)
  /-- `LREM processing:<w> 1 id`, once `processOne` has returned. -/
  | release
  deriving DecidableEq, Repr

/-- An entry that a worker has taken from `pending` and not yet let go of. -/
structure Exec where
  worker : WorkerId
  id : Text
  pc : ExecPc
  deriving DecidableEq, Repr

/-- How far an execution has come in the life of its job. -/
inductive Phase where
  /-- It has not tried to claim the job. -/
  | taken
  /-- It has claimed the job and not yet written an outcome. -/
  | owning (h : Holding)
  /-- It has parked the job and not yet added it to the delayed set. -/
  | parked (h : Holding)
  /-- It will write nothing more about the job. -/
  | finished
  deriving DecidableEq, Repr

def ExecPc.phase : ExecPc → Phase
  | .discard => .finished
  | .select => .taken
  | .claim _ _ => .taken
  | .handler h => .owning h
  | .txBegin h => .owning h
  | .txUpdate h _ => .owning h
  | .txInsert h _ => .owning h
  | .txCommit h _ => .owning h
  | .txRollback h => .owning h
  | .bury h _ => .owning h
  | .park h _ _ => .owning h
  | .zadd h _ => .parked h
  | .release => .finished

/-- The row that the open transaction of an execution has updated, hence locked. -/
def ExecPc.locks : ExecPc → Option Uuid
  | .txInsert h _ => some h.job
  | .txCommit h _ => some h.job
  | _ => none

/-! ## Worker processes -/

/-- The points of `recoverOwnProcessing` and of the first heartbeat. -/
inductive StartPc where
  /-- The last `EXISTS alive` before the decision. -/
  | checkAlive
  /-- `LRANGE processing:<w> 0 -1`. -/
  | readList
  /-- `UPDATE … WHERE id = ANY($1::uuid[]) AND status = 'running'`. -/
  | reset (stranded : List Text)
  /-- `LMOVE processing:<w> pending RIGHT RIGHT`, until it answers null. -/
  | moveAll
  /-- The first `SET alive` of `startHeartbeat`. -/
  | firstBeat
  deriving DecidableEq, Repr

inductive Proc where
  /-- The worker id has never been used. -/
  | fresh
  | starting (pc : StartPc) (concurrency : Nat)
  | running (concurrency : Nat)
  /-- The last process with this id is gone. -/
  | gone
  deriving DecidableEq, Repr

def Proc.isRunning : Proc → Bool
  | .running _ => true
  | _ => false

def Proc.isStarting : Proc → Bool
  | .starting _ _ => true
  | _ => false

/-! ## Schedulers -/

/-- The points of the scheduler's loop: `promoteDue`, then `reapDead` with the
inner loop of `reapWorker`, then `sweepOrphans`. -/
inductive Sched where
  | idle
  /-- `ZREM delayed` of the first id. -/
  | promoting (due : List Text)
  /-- `UPDATE … SET status = 'queued', next_run_at = NULL`. -/
  | promoteUpdate (id : Text) (due : List Text)
  /-- `LPUSH pending`. -/
  | promotePush (id : Text) (due : List Text)
  /-- The `SCAN` of `reapDead`. -/
  | reapScan (todo found : List WorkerId)
  /-- `EXISTS alive` of the first key's worker. -/
  | reapCheck (keys : List WorkerId)
  /-- `LINDEX processing:<key> -1`. -/
  | reapPeek (key : WorkerId) (keys : List WorkerId)
  /-- `SELECT attempts, max_attempts, status`. -/
  | reapSelect (key : WorkerId) (id : Text) (keys : List WorkerId)
  /-- `LREM processing:<key> -1 id`. -/
  | reapDrop (key : WorkerId) (id : Text) (keys : List WorkerId)
  /-- `UPDATE … SET status = 'dead'`. -/
  | reapBury (key : WorkerId) (id : Text) (keys : List WorkerId)
  /-- `UPDATE … SET status = 'queued', started_at = NULL`. -/
  | reapRequeue (key : WorkerId) (id : Text) (keys : List WorkerId)
  /-- `LMOVE processing:<key> pending RIGHT RIGHT`. -/
  | reapMove (key : WorkerId) (id : Text) (keys : List WorkerId)
  /-- The candidate query of `sweepOrphans`. -/
  | sweepSelect
  /-- `LRANGE pending 0 -1`. -/
  | sweepPending (candidates : List Uuid)
  /-- The `SCAN` of `idsHeldByRedis`. -/
  | sweepScan (candidates : List Uuid) (held : List Text) (todo found : List WorkerId)
  /-- `LRANGE` of the first key. -/
  | sweepRead (candidates : List Uuid) (held : List Text) (keys : List WorkerId)
  /-- `RPUSH pending` of the first candidate that is not held. -/
  | sweepPush (candidates : List Uuid) (held : List Text)
  deriving DecidableEq, Repr

/-- The list that `reapWorker` is working on, once its worker was found dead. -/
def Sched.reaping : Sched → Option WorkerId
  | .reapPeek key _ => some key
  | .reapSelect key _ _ => some key
  | .reapDrop key _ _ => some key
  | .reapBury key _ _ => some key
  | .reapRequeue key _ _ => some key
  | .reapMove key _ _ => some key
  | _ => none

/-- The entry that the current iteration of `reapWorker` read with `LINDEX`. -/
def Sched.judging : Sched → Option (WorkerId × Text)
  | .reapSelect key id _ => some (key, id)
  | .reapDrop key id _ => some (key, id)
  | .reapBury key id _ => some (key, id)
  | .reapRequeue key id _ => some (key, id)
  | .reapMove key id _ => some (key, id)
  | _ => none

/-- The scheduler is inside `recoverLostWork`. -/
def Sched.recovering : Sched → Bool
  | .idle | .promoting _ | .promoteUpdate _ _ | .promotePush _ _ => false
  | _ => true

/-! ## API requests -/

inductive Request where
  /-- `POST /jobs`, with its Idempotency-Key. -/
  | submit (key : Option Text)
  /-- `POST /jobs/:id/replay`. -/
  | replay (id : Text)
  deriving DecidableEq, Repr

/-- The points of the two handlers. -/
inductive Api where
  /-- `INSERT INTO jobs … ON CONFLICT (idempotency_key) DO NOTHING`. -/
  | insert (key : Option Text)
  /-- `SELECT … WHERE idempotency_key = $1`. -/
  | lookup (key : Option Text)
  /-- `UPDATE … WHERE id = $1 AND status = 'dead'`. -/
  | replay (id : Text)
  /-- `SELECT status FROM jobs WHERE id = $1`. -/
  | refuse (id : Text)
  /-- `LPUSH pending id`. -/
  | push (req : Request) (id : Text)
  deriving DecidableEq, Repr

/-- The JSON of a response. -/
inductive Body where
  /-- `{ jobId, status: "queued" }`. -/
  | queued (jobId : Text)
  /-- `{ jobId, status, deduplicated: true }`. -/
  | deduplicated (jobId : Text) (status : JobStatus)
  /-- `{ error }`. -/
  | error (message : Text)
  deriving DecidableEq, Repr

structure Response where
  request : Request
  code : Nat
  body : Body
  deriving DecidableEq, Repr

/-! ## The state -/

/-- A successful claim, as the history of the run records it. -/
structure Claim where
  job : Uuid
  lease : Nat
  worker : WorkerId
  id : Text
  deriving DecidableEq, Repr

structure State where
  db : Db
  redis : Redis
  /-- Microseconds; `Date.now()` is this clock in milliseconds. -/
  now : Nat
  procs : WorkerId → Proc
  execs : List Exec
  scheds : List Sched
  apis : List Api
  /-- History: the successful claims, newest first. No program reads it. -/
  claims : List Claim
  /-- History: the responses sent, newest first. No program reads it. -/
  responses : List Response

namespace State

/-- Empty stores and no process. -/
def init : State where
  db := .empty
  redis := .empty
  now := 0
  procs := fun _ => .fresh
  execs := []
  scheds := []
  apis := []
  claims := []
  responses := []

/-- Some open transaction has updated the row, so that another UPDATE of it waits. -/
def locked (s : State) (job : Uuid) : Bool := s.execs.any fun e => e.pc.locks = some job

/-- `Date.now()`. -/
def dateNow (s : State) : Nat := s.now / 1000

/-- A statement that sets one row takes effect. -/
@[simps db redis procs execs scheds apis claims]
def write (s : State) (job : Uuid) (set : JobRow → JobRow) : State :=
  { s with db := s.db.updateRow job set }

@[simps db redis procs execs scheds apis claims]
def withDb (s : State) (db : Db) : State := { s with db := db }

@[simps db redis procs execs scheds apis claims]
def withRedis (s : State) (r : Redis) : State := { s with redis := r }

@[simps db redis procs execs scheds apis claims]
def addExec (s : State) (e : Exec) : State := { s with execs := e :: s.execs }

@[simps db redis procs execs scheds apis claims]
def setExec (s : State) (e : Exec) (pc : ExecPc) : State :=
  { s with execs := Bag.swap s.execs e { e with pc } }

@[simps db redis procs execs scheds apis claims]
def endExec (s : State) (e : Exec) : State := { s with execs := s.execs.erase e }

/-- The executions of a worker process end with it. -/
@[simps db redis procs execs scheds apis claims]
def dropExecs (s : State) (w : WorkerId) : State :=
  { s with execs := s.execs.filter fun e => e.worker ≠ w }

@[simps db redis procs execs scheds apis claims]
def setProc (s : State) (w : WorkerId) (p : Proc) : State :=
  { s with procs := Function.update s.procs w p }

@[simps db redis procs execs scheds apis claims]
def addSched (s : State) (σ : Sched) : State := { s with scheds := σ :: s.scheds }

@[simps db redis procs execs scheds apis claims]
def setSched (s : State) (σ σ' : Sched) : State := { s with scheds := Bag.swap s.scheds σ σ' }

@[simps db redis procs execs scheds apis claims]
def endSched (s : State) (σ : Sched) : State := { s with scheds := s.scheds.erase σ }

@[simps db redis procs execs scheds apis claims]
def addApi (s : State) (a : Api) : State := { s with apis := a :: s.apis }

@[simps db redis procs execs scheds apis claims]
def endApi (s : State) (a : Api) : State := { s with apis := s.apis.erase a }

@[simps db redis procs execs scheds apis claims]
def setApi (s : State) (a a' : Api) : State := { s with apis := Bag.swap s.apis a a' }

/-- The request is answered. -/
@[simps db redis procs execs scheds apis claims]
def respond (s : State) (a : Api) (request : Request) (code : Nat) (body : Body) : State :=
  { s with apis := s.apis.erase a, responses := ⟨request, code, body⟩ :: s.responses }

end State

end QueueFlow
