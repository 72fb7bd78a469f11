-- SUMMARY: The worker process of worker/index.ts: start, recoverOwnProcessing, heartbeat, taking jobs, and being killed.
import QueueFlow.Worker.ProcessOne

/-!
# The worker process

A worker starts, recovers its own processing list, sends its first heartbeat and
then takes jobs. At most one process runs under a WORKER_ID at a time. A drain
adds nothing to these steps: a worker that takes no more jobs, and then deletes
its heartbeat and exits, is one that stops choosing `take`, whose key expires and
which is killed.
-/

namespace QueueFlow

/-- A process starts under the id `w`, which is never empty: it falls back to the
host's name. -/
def spawn (s : State) (w : WorkerId) (concurrency : Nat) : Option State :=
  if w ≠ [] ∧ 1 ≤ concurrency then
    match s.procs w with
    | .fresh => some (s.setProc w (.starting .checkAlive concurrency))
    | .gone => some (s.setProc w (.starting .checkAlive concurrency))
    | _ => none
  else none

/-- `UPDATE jobs SET status = 'queued', started_at = NULL
    WHERE id = ANY($1::uuid[]) AND status = 'running'`. -/
def strandedRow (stranded : List Text) (r : JobRow) : Bool :=
  stranded.any (fun id => uuidIn id = some r.id) && r.status = .running

/-- The next command of `recoverOwnProcessing`, then the first heartbeat.
`deadline` says that the wait for the old heartbeat is over. -/
def recoverOwnProcessing (s : State) (w : WorkerId) (deadline : Bool) : Option State :=
  match s.procs w with
  | .starting .checkAlive c =>
      if w ∈ s.redis.alive then
        -- Another process is alive under this id: its list is left alone.
        if deadline then some (s.setProc w (.starting .firstBeat c)) else some s
      else some (s.setProc w (.starting .readList c))
  | .starting .readList c =>
      match (s.redis.lrange w).filter isUuid with
      | [] => some (s.setProc w (.starting .firstBeat c))
      | stranded => some (s.setProc w (.starting (.reset stranded) c))
  | .starting (.reset stranded) c =>
      if s.db.jobs.any (fun r => strandedRow stranded r && s.locked r.id) then none
      else some ((s.withDb (s.db.update (strandedRow stranded) .requeued)).setProc w
        (.starting .moveAll c))
  | .starting .moveAll c =>
      match s.redis.lmove w with
      | none => some (s.setProc w (.starting .firstBeat c))
      | some (_, redis) => some (s.withRedis redis)
  | .starting .firstBeat c => some ((s.withRedis (s.redis.beat w)).setProc w (.running c))
  | _ => none

/-- The timer of `startHeartbeat` fires. -/
def beat (s : State) (w : WorkerId) : Option State :=
  if (s.procs w).isRunning then some (s.withRedis (s.redis.beat w)) else none

/-- The heartbeat key reaches the end of its TTL, or a drain deletes it. -/
def expire (s : State) (w : WorkerId) : Option State :=
  if w ∈ s.redis.alive then some (s.withRedis (s.redis.expire w)) else none

/-- How many slots of the semaphore are in use. -/
def State.inFlight (s : State) (w : WorkerId) : Nat := s.execs.countP fun e => e.worker = w

/-- One turn of the main loop: a slot, then `BLMOVE`, then `processOne` on the id
or, for an entry that is not a uuid, its `LREM`. -/
def take (s : State) (w : WorkerId) : Option State :=
  match s.procs w with
  | .running concurrency =>
      if s.inFlight w < concurrency then
        (s.redis.blmove w).map fun (id, redis) =>
          (s.withRedis redis).addExec ⟨w, id, if isUuid id then .select else .discard⟩
      else none
  | _ => none

/-- The process is gone, at whatever point it was. Its open transactions roll back. -/
def kill (s : State) (w : WorkerId) : Option State :=
  if (s.procs w).isRunning || (s.procs w).isStarting then
    some ((s.setProc w .gone).dropExecs w)
  else none

end QueueFlow
