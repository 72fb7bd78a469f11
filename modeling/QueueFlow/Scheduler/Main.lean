-- SUMMARY: The scheduler process of scheduler/index.ts and reaper.ts: promoteDue, reapDead with reapWorker, sweepOrphans.
import QueueFlow.State

/-!
# The scheduler process

A scheduler alternates between `promoteDue` and recovery passes, one command at a
time. A `SCAN` visits every key that exists when it starts, at a moment of its
own for each, and may also report keys that came to exist meanwhile: whatever key
is present throughout the scan is found, any other may or may not be.
-/

namespace QueueFlow

/-- What a scheduler does where its program leaves a choice. -/
inductive Pick where
  /-- Issue the next command; when idle, start `promoteDue`. -/
  | next
  /-- When idle: start `recoverLostWork`. -/
  | recover
  /-- During a `SCAN`: look at this worker's key. -/
  | visit (w : WorkerId)
  deriving DecidableEq, Repr

/-- `BATCH`, in both files. -/
def BATCH : Nat := 100

/-! ## `promoteDue` -/

def promoteDue (s : State) (σ : Sched) : Option State :=
  match σ with
  | .promoting [] => some (s.setSched σ .idle)
  | .promoting (id :: due) =>
      if s.redis.isDelayed id then
        some ((s.withRedis (s.redis.zrem id)).setSched σ (.promoteUpdate id due))
      else some (s.setSched σ (.promoting due))
  | .promoteUpdate id due =>
      match uuidIn id with
      -- The query rejects, main rejects and the process exits.
      | none => some (s.endSched σ)
      | some job =>
          if s.locked job then none
          else some ((s.write job .promoted).setSched σ (.promotePush id due))
  | .promotePush id due => some ((s.withRedis (s.redis.lpush id)).setSched σ (.promoting due))
  | _ => none

/-! ## `reapDead` and `reapWorker` -/

/-- The keys that match `queueflow:processing:*`. -/
def State.processingKeys (s : State) : List WorkerId := KeyedList.keys s.redis.processing

/-- A `SCAN` looks at one key: the keys still to visit and those found. -/
def scanStep (s : State) (w : WorkerId) (todo found : List WorkerId) :
    Option (List WorkerId × List WorkerId) :=
  if w ∈ todo then
    some (todo.erase w, if s.redis.lrange w = [] then found else found ++ [w])
  else if s.redis.lrange w = [] then none
  else some (todo, found ++ [w])

/-- The `last_error` that `reapWorker` writes. -/
def stoppedResponding (key : WorkerId) : Text :=
  "worker ".toList ++ key ++ " stopped responding while holding this job".toList

/-- What `reapWorker` does about the entry it read, given the row it selected. -/
def judge (key : WorkerId) (id : Text) (keys : List WorkerId) : Option JobRow → Sched
  | none => .reapDrop key id keys
  | some row =>
      if row.status.terminal || row.status = .retrying then .reapDrop key id keys
      else if row.attempts ≥ row.maxAttempts then .reapBury key id keys
      else .reapRequeue key id keys

def reapDead (s : State) (σ : Sched) (pick : Pick) : Option State :=
  match σ with
  | .reapScan todo found =>
      match pick with
      | .visit w => (scanStep s w todo found).map fun (t, f) => s.setSched σ (.reapScan t f)
      | _ => if todo = [] then some (s.setSched σ (.reapCheck found)) else none
  | .reapCheck [] => some (s.setSched σ .sweepSelect)
  | .reapCheck (key :: keys) =>
      if key = [] ∨ key ∈ s.redis.alive then some (s.setSched σ (.reapCheck keys))
      else some (s.setSched σ (.reapPeek key keys))
  | .reapPeek key keys =>
      match KeyedList.last? s.redis.processing key with
      | none => some (s.setSched σ (.reapCheck keys))
      | some id =>
          if isUuid id then some (s.setSched σ (.reapSelect key id keys))
          else some (s.setSched σ (.reapDrop key id keys))
  | .reapSelect key id keys =>
      match uuidIn id with
      | none => some (s.setSched σ .idle)
      | some job => some (s.setSched σ (judge key id keys (s.db.row job)))
  | .reapDrop key id keys =>
      some ((s.withRedis (s.redis.lremTail key id)).setSched σ (.reapPeek key keys))
  | .reapBury key id keys =>
      match uuidIn id with
      | none => some (s.setSched σ .idle)
      | some job =>
          if s.locked job then none
          else some ((s.write job (.buried (stoppedResponding key) s.now)).setSched σ
            (.reapDrop key id keys))
  | .reapRequeue key id keys =>
      match uuidIn id with
      | none => some (s.setSched σ .idle)
      | some job =>
          if s.locked job then none
          else some ((s.write job .requeued).setSched σ (.reapMove key id keys))
  | .reapMove key _ keys =>
      match s.redis.lmove key with
      | none => some (s.setSched σ (.reapPeek key keys))
      | some (_, redis) => some ((s.withRedis redis).setSched σ (.reapPeek key keys))
  | _ => none

/-! ## `sweepOrphans` -/

/-- `status = 'queued' AND created_at < now() - make_interval(secs => ORPHAN_AGE_S)`. -/
def isOrphanCandidate (cfg : Config) (now : Nat) (r : JobRow) : Bool :=
  r.status = .queued && r.createdAt + cfg.orphanAgeS * 1000000 < now

/-- `ORDER BY created_at`. -/
def olderFirst (r r' : JobRow) : Prop := r.createdAt ≤ r'.createdAt

instance : DecidableRel olderFirst := fun _ _ => inferInstanceAs (Decidable (_ ≤ _))

def orphanCandidates (cfg : Config) (s : State) : List Uuid :=
  (((s.db.jobs.filter (isOrphanCandidate cfg s.now)).insertionSort olderFirst).take BATCH).map (·.id)

def sweepOrphans (cfg : Config) (s : State) (σ : Sched) (pick : Pick) : Option State :=
  match σ with
  | .sweepSelect =>
      match orphanCandidates cfg s with
      | [] => some (s.setSched σ .idle)
      | candidates => some (s.setSched σ (.sweepPending candidates))
  | .sweepPending candidates =>
      some (s.setSched σ (.sweepScan candidates s.redis.pending s.processingKeys []))
  | .sweepScan candidates held todo found =>
      match pick with
      | .visit w =>
          (scanStep s w todo found).map fun (t, f) => s.setSched σ (.sweepScan candidates held t f)
      | _ => if todo = [] then some (s.setSched σ (.sweepRead candidates held found)) else none
  | .sweepRead candidates held [] => some (s.setSched σ (.sweepPush candidates held))
  | .sweepRead candidates held (key :: keys) =>
      some (s.setSched σ (.sweepRead candidates (held ++ s.redis.lrange key) keys))
  | .sweepPush [] _ => some (s.setSched σ .idle)
  | .sweepPush (job :: candidates) held =>
      if uuidOut job ∈ held then some (s.setSched σ (.sweepPush candidates held))
      else some ((s.withRedis (s.redis.rpush (uuidOut job))).setSched σ (.sweepPush candidates held))
  | _ => none

/-! ## The loop -/

/-- The next command of a scheduler. -/
def schedule (cfg : Config) (s : State) (σ : Sched) (pick : Pick) : Option State :=
  match σ with
  | .idle =>
      match pick with
      | .next => some (s.setSched σ (.promoting (s.redis.zrangebyscore s.dateNow BATCH)))
      | .recover => some (s.setSched σ (.reapScan s.processingKeys []))
      | .visit _ => none
  | .promoting _ | .promoteUpdate _ _ | .promotePush _ _ => promoteDue s σ
  | .reapScan _ _ | .reapCheck _ | .reapPeek _ _ | .reapSelect _ _ _ | .reapDrop _ _ _
  | .reapBury _ _ _ | .reapRequeue _ _ _ | .reapMove _ _ _ => reapDead s σ pick
  | .sweepSelect | .sweepPending _ | .sweepScan _ _ _ _ | .sweepRead _ _ _ | .sweepPush _ _ =>
      sweepOrphans cfg s σ pick

/-- A command of `recoverLostWork` fails: the pass ends and the loop goes on. -/
def abandonPass (s : State) (σ : Sched) : Option State :=
  if σ.recovering then some (s.setSched σ .idle) else none

end QueueFlow
