-- SUMMARY: The whole system as one step function over actions of every process and of the environment.
import QueueFlow.Lib.Run
import QueueFlow.Worker.Main
import QueueFlow.Scheduler.Main
import QueueFlow.Api.Jobs

/-!
# The system

One action is one Redis command or one Postgres statement of one process, or one
event of the environment: time passing, a client request, a heartbeat ending, a
process being started or killed, a command failing.
-/

namespace QueueFlow

open Transition

inductive Act where
  /-- Time passes. -/
  | tick (d : Nat)
  /-- A client request arrives. -/
  | request (req : Request)
  | api (a : Api) (generated : Uuid)
  /-- The API process of a request crashes, or a command of the request fails. -/
  | apiCrash (a : Api)
  | spawn (w : WorkerId) (concurrency : Nat)
  | recoverOwn (w : WorkerId) (deadline : Bool)
  | beat (w : WorkerId)
  | expire (w : WorkerId)
  | take (w : WorkerId)
  | exec (e : Exec) (o : Outcome)
  | execFail (e : Exec) (took : Bool) (message : Text) (random : Random)
  | kill (w : WorkerId)
  | startSched
  | sched (σ : Sched) (pick : Pick)
  | schedFail (σ : Sched)
  | schedKill (σ : Sched)
  deriving DecidableEq

def step (cfg : Config) (s : State) : Act → Option State
  | .tick d => some { s with now := s.now + d }
  | .request req => some (s.addApi req.start)
  | .api a generated => if a ∈ s.apis then handle s a generated else none
  | .apiCrash a => if a ∈ s.apis then some (s.endApi a) else none
  | .spawn w concurrency => spawn s w concurrency
  | .recoverOwn w deadline => recoverOwnProcessing s w deadline
  | .beat w => beat s w
  | .expire w => expire s w
  | .take w => take s w
  | .exec e o => if e ∈ s.execs then processOne cfg s e o else none
  | .execFail e took message random =>
      if e ∈ s.execs then fails cfg s e took message random else none
  | .kill w => kill s w
  | .startSched => some (s.addSched .idle)
  | .sched σ pick => if σ ∈ s.scheds then schedule cfg s σ pick else none
  | .schedFail σ => if σ ∈ s.scheds then abandonPass s σ else none
  | .schedKill σ => if σ ∈ s.scheds then some (s.endSched σ) else none

/-- A process is killed, or a command fails. -/
def Act.isFault : Act → Bool
  | .apiCrash _ | .execFail _ _ _ _ | .kill _ | .schedFail _ | .schedKill _ => true
  | _ => false

/-- A worker process is killed. -/
def Act.isKill : Act → Bool
  | .kill _ => true
  | _ => false

/-- A scheduler process is killed. -/
def Act.isSchedKill : Act → Bool
  | .schedKill _ => true
  | _ => false

/-- A command of an execution fails. -/
def Act.isFailure : Act → Bool
  | .execFail _ _ _ _ => true
  | _ => false

/-- The execution whose command an action is. -/
def Act.exec? : Act → Option Exec
  | .exec e _ => some e
  | .execFail e _ _ _ => some e
  | _ => none

/-- The runs from empty stores whose steps all meet `ok`. -/
abbrev Reaches (cfg : Config) (ok : State → Act → Prop) (s : State) : Prop :=
  Run (step cfg) ok .init s

end QueueFlow
