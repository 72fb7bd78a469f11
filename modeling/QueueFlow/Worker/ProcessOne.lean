-- SUMMARY: processOne of worker/index.ts, one command at a time, with the clean-up of main and the paths of a failing command.
import QueueFlow.State

/-!
# `processOne`

`processOne` issues the command that the execution is about to issue and moves it
to its next point; `none` means that the command waits for a row lock. `fails`
is the same for a command whose promise is rejected, with or without having
taken effect on the server.
-/

namespace QueueFlow

/-- What the handler did: it returned, or it threw an error with this message,
in which case the backoff takes the next random number. -/
inductive Outcome where
  | returned
  | threw (message : Text) (random : Random)
  deriving DecidableEq

/-- The start of the outer catch block: give up, or compute when to retry. -/
def caught (cfg : Config) (s : State) (h : Holding) (message : Text) (random : Random) : ExecPc :=
  if h.attempts ≥ h.maxAttempts then .bury h message
  else .park h message (s.dateNow + nextDelayMs cfg h.attempts random)

/-- `$n::boolean IS FALSE OR lease_id = $m`. -/
def ownsRow (cfg : Config) (h : Holding) (r : JobRow) : Bool :=
  !cfg.fencing || r.leaseId = some h.lease

/-- The row that a write-back guarded by the lease finds. -/
def State.ownRow (cfg : Config) (s : State) (h : Holding) : Option JobRow :=
  (s.db.row h.job).filter (ownsRow cfg h)

/-- The row that the claim finds. -/
def State.claimableRow (s : State) (job : Uuid) : Option JobRow :=
  (s.db.row job).filter fun r => r.status.claimable

/-- What the claim leaves the execution with. -/
def State.claimOf (s : State) (job : Uuid) (r : JobRow) (maxAttempts : Nat) : Holding where
  job := job
  lease := s.db.nextLease
  attempts := r.attempts + 1
  maxAttempts := maxAttempts

/-- The claim takes effect: the row gets a lease that no row ever had. -/
@[simps db redis procs execs scheds apis claims]
def State.claim (s : State) (e : Exec) (job : Uuid) : State :=
  { s with
    db := s.db.claim job s.now
    claims := ⟨job, s.db.nextLease, e.worker, e.id⟩ :: s.claims }

/-- `COMMIT` takes effect: the row and the effect appear together. -/
@[simps db redis procs execs scheds apis claims]
def State.settle (s : State) (e : Exec) (h : Holding) (began : Nat) : State :=
  { s with db := (s.db.updateRow h.job (.succeeded began)).insertEffect ⟨h.job, e.worker, began⟩ }

def processOne (cfg : Config) (s : State) (e : Exec) (o : Outcome) : Option State :=
  match e.pc with
  | .discard => some ((s.withRedis (s.redis.lrem e.worker e.id)).endExec e)
  | .select =>
      match uuidIn e.id with
      -- Postgres rejects the parameter: processOne throws and the entry stays.
      | none => some (s.endExec e)
      | some job =>
          match s.db.row job with
          | none => some (s.setExec e .release)
          | some r => some (s.setExec e (.claim job r.maxAttempts))
  | .claim job maxAttempts =>
      if s.locked job then none else
      match s.claimableRow job with
      | none => some (s.setExec e .release)
      | some r => some ((s.claim e job).setExec e (.handler (s.claimOf job r maxAttempts)))
  | .handler h =>
      match o with
      | .returned => some (s.setExec e (.txBegin h))
      | .threw message random => some (s.setExec e (caught cfg s h message random))
  | .txBegin h => some (s.setExec e (.txUpdate h s.now))
  | .txUpdate h began =>
      if s.locked h.job then none else
      match s.ownRow cfg h with
      | none => some (s.setExec e (.txRollback h))
      | some _ => some (s.setExec e (.txInsert h began))
  | .txInsert h began => some (s.setExec e (.txCommit h began))
  | .txCommit h began => some ((s.settle e h began).setExec e .release)
  | .txRollback _ => some (s.setExec e .release)
  | .bury h message =>
      if s.locked h.job then none else
      match s.ownRow cfg h with
      | none => some (s.setExec e .release)
      | some _ => some ((s.write h.job (.buried message s.now)).setExec e .release)
  | .park h message runAt =>
      if s.locked h.job then none else
      match s.ownRow cfg h with
      | none => some (s.setExec e .release)
      | some _ => some ((s.write h.job (.parked message runAt)).setExec e (.zadd h runAt))
  | .zadd h runAt =>
      some ((s.withRedis (s.redis.zadd runAt (uuidOut h.job))).setExec e .release)
  | .release => some ((s.withRedis (s.redis.lrem e.worker e.id)).endExec e)

/-! ## Failing commands -/

/-- The command of an execution fails with an error. `took` says whether it took
effect before its reply was lost; `message` and `random` are what the outer
catch block sees and draws when the error passes through it. -/
def fails (cfg : Config) (s : State) (e : Exec) (took : Bool) (message : Text) (random : Random) :
    Option State :=
  match e.pc with
  -- main awaits this LREM without a catch: the process exits, see `kill`.
  | .discard => none
  | .select => some (s.endExec e)
  | .claim job _ =>
      if took then
        if s.locked job then none else
        match s.claimableRow job with
        | none => some (s.endExec e)
        | some _ => some ((s.claim e job).endExec e)
      else some (s.endExec e)
  -- The handler's own errors are its outcome.
  | .handler _ => none
  | .txBegin h => some (s.setExec e (caught cfg s h message random))
  | .txUpdate h _ => some (s.setExec e (caught cfg s h message random))
  | .txInsert h _ => some (s.setExec e (caught cfg s h message random))
  | .txCommit h began =>
      if took then some ((s.settle e h began).setExec e (caught cfg s h message random))
      else some (s.setExec e (caught cfg s h message random))
  | .txRollback h => some (s.setExec e (caught cfg s h message random))
  | .bury h buriedMessage =>
      if took then
        if s.locked h.job then none else
        match s.ownRow cfg h with
        | none => some (s.endExec e)
        | some _ => some ((s.write h.job (.buried buriedMessage s.now)).endExec e)
      else some (s.endExec e)
  | .park h parkedMessage runAt =>
      if took then
        if s.locked h.job then none else
        match s.ownRow cfg h with
        | none => some (s.endExec e)
        | some _ => some ((s.write h.job (.parked parkedMessage runAt)).endExec e)
      else some (s.endExec e)
  | .zadd h runAt =>
      if took then some ((s.withRedis (s.redis.zadd runAt (uuidOut h.job))).endExec e)
      else some (s.endExec e)
  | .release =>
      if took then some ((s.withRedis (s.redis.lrem e.worker e.id)).endExec e)
      else some (s.endExec e)

end QueueFlow
