-- SUMMARY: POST /jobs and POST /jobs/:id/replay of api/index.ts, one command at a time.
import QueueFlow.State

/-!
# The API

Both handlers write the row first and push the id afterwards. A submission pushes
the id it generated; a replay pushes the path parameter as it was spelled in the
request, while Postgres compared it as a value.
-/

namespace QueueFlow

/-- The point at which a request starts. -/
def Request.start : Request → Api
  | .submit key => .insert key
  | .replay id => .replay id

/-- The row that already uses an Idempotency-Key; a NULL key is used by none. -/
def State.keyRow (s : State) (key : Option Text) : Option JobRow :=
  s.db.jobs.find? fun r => key.isSome && r.idempotencyKey = key

/-- The row that `WHERE id = $1 AND status = 'dead'` finds. -/
def State.deadRow (s : State) (job : Uuid) : Option JobRow :=
  (s.db.row job).filter fun r => r.status = .dead

/-- The message of a replay that is refused. -/
def notDead (status : JobStatus) : Text :=
  "only dead jobs can be replayed; this one is '".toList ++ status.text ++ "'".toList

/-- The next command of a request. `generated` is what `randomUUID()` returned,
which no earlier call did. -/
def handle (s : State) (a : Api) (generated : Uuid) : Option State :=
  match a with
  | .insert key =>
      if generated.isRandom ∧ s.db.row generated = none then
        match s.keyRow key with
        | some _ => some (s.setApi a (.lookup key))
        | none =>
            some ((s.withDb (s.db.insertJob (.inserted generated key s.now))).setApi a
              (.push (.submit key) (uuidOut generated)))
      else none
  | .lookup key =>
      match s.keyRow key with
      | none => some (s.respond a (.submit key) 409 (.error "idempotency key is in use".toList))
      | some r =>
          some (s.respond a (.submit key) 200 (.deduplicated (uuidOut r.id) r.status))
  | .replay id =>
      match uuidIn id with
      | none => some (s.respond a (.replay id) 500 (.error "internal error".toList))
      | some job =>
          if s.locked job then none else
          match s.deadRow job with
          | none => some (s.setApi a (.refuse id))
          | some _ => some ((s.write job .replayed).setApi a (.push (.replay id) id))
  | .refuse id =>
      match (uuidIn id).bind s.db.row with
      | none => some (s.respond a (.replay id) 404 (.error "no such job".toList))
      | some r => some (s.respond a (.replay id) 409 (.error (notDead r.status)))
  | .push req id => some ((s.withRedis (s.redis.lpush id)).respond a req 202 (.queued id))

end QueueFlow
