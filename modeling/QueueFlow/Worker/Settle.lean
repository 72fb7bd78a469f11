-- SUMMARY: What processOne does after its handler returned, for every way in which its commands can go, and when the outcome is all or nothing.
import QueueFlow.Worker.Failure
import QueueFlow.Fencing.Lease

/-!
# Settling under uncertain commands

The transaction runs on a client that is checked out of the pool. An error answer ends the transaction
on the server, an error that only the client sees leaves it as it is, and a lost connection takes it
along, and the process with it: nobody listens for the 'error' of a client that is checked out.
`client.release()` puts the client back with whatever it has open, and the `UPDATE` of the outer catch
block runs on the client that the pool then gives out.
-/

namespace QueueFlow

open Transition

/-! ## Commands -/

/-- How a command goes. The client sees an error unless it is `ok`. -/
inductive Fate where
  | ok
  /-- The server answers with an error. -/
  | refused
  /-- The server never sees it. -/
  | unsent
  /-- It takes effect. -/
  | unanswered
  /-- The connection is lost before or after it takes effect. -/
  | cut (took : Bool)
  deriving DecidableEq, Repr

def Fate.took : Fate → Bool
  | .ok | .unanswered => true
  | .refused | .unsent => false
  | .cut took => took

/-- How the commands of one execution go. Those that are not issued do not matter. -/
structure Fates where
  connect : Fate
  begin : Fate
  update : Fate
  insert : Fate
  commit : Fate
  rollback : Fate
  /-- The `UPDATE` of the outer catch block. -/
  record : Fate
  zadd : Fate
  /-- The pool gives that `UPDATE` the client that the transaction had. -/
  reuse : Bool

/-- The clock, in microseconds, at the points where the program or a statement reads it. -/
structure Moments where
  began : Nat
  caught : Nat
  buried : Nat

/-- The server's side of the client that the transaction has. -/
inductive Tx where
  | idle
  /-- A transaction is open: what it would commit, and whether it has locked the row. -/
  | active (db : Db) (locks : Bool)
  /-- An error has ended it; all that the server takes is its `ROLLBACK`. -/
  | aborted

def Tx.isAborted : Tx → Bool
  | .aborted => true
  | _ => false

def Tx.locks : Tx → Bool
  | .active _ locks => locks
  | _ => false

structure Session where
  state : State
  tx : Tx

/-- Why a part of `processOne` does not come to its end. -/
inductive Stop where
  | error
  /-- The process is gone. -/
  | exit
  /-- It waits for the lock of a transaction that nobody ends. -/
  | blocked
  deriving DecidableEq

/-- A part of `processOne`: what it does with the stores, and how it stops. -/
abbrev Program := ExceptT Stop (StateM Session)

/-- `try … catch` -/
def Program.catching {α : Type} (p c : Program α) : Program α :=
  tryCatch p fun stop => if stop = .error then c else throw stop

/-- A command whose failure is an error, whatever becomes of its connection. -/
def call (fate : Fate) (close command : Session → Session) : Program Unit :=
  if fate = .ok then modify command
  else do
    modify fun x => close (if fate.took then command x else x)
    throw .error

def Session.discard (x : Session) : Session := { x with tx := .idle }

/-- An error answer ends the transaction. -/
def Session.abort (x : Session) : Session :=
  match x.tx with
  | .active _ _ => { x with tx := .aborted }
  | _ => x

/-- A command on the client that is checked out, and what an error answer to it does. -/
def issue (fate : Fate) (refuse command : Session → Session) : Program Unit :=
  match fate with
  | .refused => do modify refuse; throw .error
  | .cut took => do modify fun x => (if took then command x else x).discard; throw .exit
  | fate => call fate id command

/-! ## The statements -/

variable (cfg : Config) (e : Exec) (h : Holding) (m : Moments) (f : Fates) (message : Text)
  (random : Random)

def Session.begin (x : Session) : Session := { x with tx := .active x.state.db false }

/-- `UPDATE … SET status = 'succeeded'`, for a row that it finds. -/
def Session.update (x : Session) : Session :=
  match x.tx with
  | .active db _ => { x with tx := .active (db.updateRow h.job (.succeeded m.began)) true }
  | _ => x

/-- `INSERT INTO job_effects`. -/
def Session.insert (x : Session) : Session :=
  match x.tx with
  | .active db locks => { x with tx := .active (db.insertEffect ⟨h.job, e.worker, m.began⟩) locks }
  | _ => x

def Session.commit (x : Session) : Session :=
  match x.tx with
  | .active db _ => { state := x.state.withDb db, tx := .idle }
  | _ => x.discard

/-- What a statement of the pool sees; it is inside of a transaction that is left open on its client. -/
def Session.seen (reuse : Bool) (x : Session) : State :=
  match reuse, x.tx with
  | true, .active db _ => x.state.withDb db
  | _, _ => x.state

/-- An `UPDATE` of the row by a statement of the pool. -/
def Session.write (reuse : Bool) (set : JobRow → JobRow) (x : Session) : Session :=
  match reuse, x.tx with
  | true, .active db _ => { x with tx := .active (db.updateRow h.job set) true }
  | _, _ => { x with state := x.state.write h.job set }

/-- After an error the pool closes the client of its statement. -/
def Session.close (reuse : Bool) (x : Session) : Session := if reuse then x.discard else x

def Session.zadd (runAt : Nat) (x : Session) : Session :=
  { x with state := x.state.withRedis (x.state.redis.zadd runAt (uuidOut h.job)) }

/-! ## The program -/

/-- The commands of the transaction; the result says whether the execution was fenced out. -/
def attempt : Program Bool := do
  issue f.begin Session.abort Session.begin
  let x ← get
  if (x.state.ownRow cfg h).isSome then
    issue f.update Session.abort (Session.update h m)
    issue f.insert Session.abort (Session.insert e h m)
    -- the transaction is over when `COMMIT` is answered with an error
    issue f.commit Session.discard Session.commit
    pure false
  else
    issue f.update Session.abort id
    issue f.rollback Session.abort Session.discard
    pure true

/-- The inner catch block. -/
def rollBack : Program Bool := do
  issue f.rollback Session.abort Session.discard
  throw .error

-- `finally` puts the client back as it is
def transaction : Program Bool := Program.catching (attempt cfg e h m f) (rollBack f)

/-- A statement of the pool: refused in a transaction that has ended with an error, and kept waiting by
one that nobody ends and that has locked the row. -/
def query (command : Session → Session) : Program Unit := do
  let x ← get
  if f.reuse && x.tx.isAborted then
    modify Session.discard
    throw .error
  else if !f.reuse && x.tx.locks then throw .blocked
  else call f.record (Session.close f.reuse) command

/-- The outer catch block. -/
def recordFailure : Program Unit := do
  let x ← get
  let found := ((x.seen f.reuse).ownRow cfg h).isSome
  if h.attempts ≥ h.maxAttempts then
    query f (if found then Session.write h f.reuse (.buried message m.buried) else id)
  else
    let runAt := m.caught / 1000 + nextDelayMs cfg h.attempts random
    query f (if found then Session.write h f.reuse (.parked message runAt) else id)
    if found then call f.zadd id (Session.zadd h runAt)

/-- `processOne` from where its handler has returned. -/
def settle : Program Unit :=
  Program.catching
    (do
      call f.connect id id
      let _fenced ← transaction cfg e h m f)
    (recordFailure cfg h m f message random)

/-! ## Executing a program -/

namespace Program

variable {α β : Type} {x : Session} {p : Program α} {k : α → Program β} {c : Program α}

/-- What the program returns, unless it stops, and what it leaves behind. -/
def exec (p : Program α) (x : Session) : Except Stop α × Session := (ExceptT.run p).run x

theorem exec_get : (get : Program Session).exec x = (.ok x, x) := rfl

theorem exec_bind : (p >>= k).exec x =
    match p.exec x with
    | (.ok a, y) => (k a).exec y
    | (.error stop, y) => (.error stop, y) := by
  simp only [exec, ExceptT.run_bind, StateT.run_bind]
  generalize StateT.run (ExceptT.run p) x = q
  rcases q with ⟨_ | a, y⟩ <;> rfl

theorem exec_catching : (catching p c).exec x =
    match p.exec x with
    | (.ok a, y) => (.ok a, y)
    | (.error stop, y) => if stop = .error then c.exec y else (.error stop, y) := by
  simp only [catching, exec, tryCatch, tryCatchThe, MonadExceptOf.tryCatch, ExceptT.tryCatch, ExceptT.run_mk,
    StateT.run_bind]
  rw [show StateT.run p x = StateT.run (ExceptT.run p) x from rfl]
  generalize StateT.run (ExceptT.run p) x = q
  rcases q with ⟨stop | a, y⟩
  · cases stop <;> rfl
  · rfl

theorem exec_call (fate : Fate) (close command : Session → Session) : (call fate close command).exec x =
    if fate = .ok then (.ok (), command x)
    else (.error .error, close (if fate.took then command x else x)) := by
  rw [call]
  split <;> rfl

theorem exec_issue (fate : Fate) (refuse command : Session → Session) :
    (issue fate refuse command).exec x =
      match fate with
      | .ok => (.ok (), command x)
      | .refused => (.error .error, refuse x)
      | .unsent => (.error .error, x)
      | .unanswered => (.error .error, command x)
      | .cut took => (.error .exit, (if took then command x else x).discard) := by
  cases fate <;> rfl

end Program

/-! ## The transaction -/

variable {cfg e h m f message random} {s : State}

/-- The commands before `COMMIT` succeed. -/
def Fates.ReachCommit (f : Fates) : Prop := f.begin = .ok ∧ f.update = .ok ∧ f.insert = .ok

instance (f : Fates) : Decidable f.ReachCommit := inferInstanceAs (Decidable (_ ∧ _ ∧ _))

/-- Only the client sees the error. -/
def Fate.hidden (fate : Fate) : Prop := fate = .unsent ∨ fate = .unanswered

instance (fate : Fate) : Decidable fate.hidden := inferInstanceAs (Decidable (_ ∨ _))

/-- The server does not learn of an error in the transaction, nor of the `ROLLBACK` that follows it. -/
def Fates.Opens (f : Fates) : Prop :=
  f.rollback = .unsent ∧ (f.begin = .unanswered ∨ f.begin = .ok ∧ (f.update.hidden ∨
    f.update = .ok ∧ (f.insert.hidden ∨ f.insert = .ok ∧ f.commit = .unsent)))

instance (f : Fates) : Decidable f.Opens := inferInstanceAs (Decidable (_ ∧ _))

def Fate.isCut : Fate → Bool
  | .cut _ => true
  | _ => false

/-- A connection is lost under the transaction. -/
def Fates.Cut (f : Fates) : Prop := f.begin.isCut = true ∨ f.update.isCut = true ∨ f.insert.isCut = true ∨
  f.commit.isCut = true ∨ f.rollback.isCut = true

instance (f : Fates) : Decidable f.Cut := inferInstanceAs (Decidable (_ ∨ _))

theorem Fates.Opens.commit {f : Fates} (h : f.Opens) (hreach : f.ReachCommit) : f.commit = .unsent := by
  obtain ⟨hbegin, hupdate, hinsert⟩ := hreach
  simpa [Fates.Opens, Fate.hidden, hbegin, hupdate, hinsert] using h.2

/-- The transaction is committed, or it is over when its client goes back, or it is left open. -/
inductive Leaves (e : Exec) (h : Holding) (m : Moments) (f : Fates) (s : State) :
    Except Stop Bool × Session → Prop where
  | committed (hreach : f.ReachCommit) (hcommit : f.commit = .ok) :
      Leaves e h m f s (.ok false, ⟨s.settle e h m.began, .idle⟩)
  | unanswered (hreach : f.ReachCommit) (hcommit : f.commit = .unanswered) :
      Leaves e h m f s (.error .error, ⟨s.settle e h m.began, .idle⟩)
  | opened {db : Db} {locks : Bool} (hopens : f.Opens) (hnot : ¬ (f.ReachCommit ∧ f.commit.took = true)) :
      Leaves e h m f s (.error .error, ⟨s, .active db locks⟩)
  | undone {tx : Tx} (hopens : ¬ f.Opens) (hnot : ¬ (f.ReachCommit ∧ f.commit.took = true))
      (htx : tx = .idle ∨ tx = .aborted ∧ f.rollback.took = false) :
      Leaves e h m f s (.error .error, ⟨s, tx⟩)
  | gone (hcut : f.Cut) (y : Session) : Leaves e h m f s (.error .exit, y)

variable {tx : Tx} {db : Db} {locks : Bool}

namespace Leaves

theorem of_closed (hopens : ¬ f.Opens) (hnot : ¬ (f.ReachCommit ∧ f.commit.took = true))
    (htx : tx = .idle ∨ tx = .aborted) : Leaves e h m f s ((rollBack f).exec ⟨s, tx⟩) := by
  rw [rollBack, Program.exec_bind, Program.exec_issue]
  cases hrollback : f.rollback with
  | ok | unanswered => exact .undone hopens hnot (.inl rfl)
  | refused | unsent =>
      rcases htx with rfl | rfl
      · exact .undone hopens hnot (.inl rfl)
      · exact .undone hopens hnot (.inr ⟨rfl, by rw [hrollback]; rfl⟩)
  | cut => exact .gone (by simp [Fates.Cut, Fate.isCut, *]) _

theorem of_active (hopens : f.rollback = .unsent ↔ f.Opens)
    (hnot : ¬ (f.ReachCommit ∧ f.commit.took = true)) :
    Leaves e h m f s ((rollBack f).exec ⟨s, .active db locks⟩) := by
  rw [rollBack, Program.exec_bind, Program.exec_issue]
  cases hrollback : f.rollback with
  | ok | unanswered => exact .undone (fun h => by cases hrollback.symm.trans h.1) hnot (.inl rfl)
  | refused =>
      exact .undone (fun h => by cases hrollback.symm.trans h.1) hnot (.inr ⟨rfl, by rw [hrollback]; rfl⟩)
  | unsent => exact .opened (hopens.mp hrollback) hnot
  | cut => exact .gone (by simp [Fates.Cut, Fate.isCut, *]) _

theorem of_unanswered (hreach : f.ReachCommit) (hcommit : f.commit = .unanswered) :
    Leaves e h m f s ((rollBack f).exec ⟨s.settle e h m.began, .idle⟩) := by
  rw [rollBack, Program.exec_bind, Program.exec_issue]
  cases hrollback : f.rollback with
  | cut => exact .gone (by simp [Fates.Cut, Fate.isCut, *]) _
  | _ => exact .unanswered hreach hcommit

end Leaves

theorem leaves_transaction (hlease : s.HoldsLease h) :
    Leaves e h m f s ((transaction cfg e h m f).exec ⟨s, .idle⟩) := by
  obtain ⟨r, -, hown⟩ := ownRow_of_holdsLease cfg hlease
  rw [transaction, Program.exec_catching, attempt, Program.exec_bind, Program.exec_issue]
  cases hbegin : f.begin with
  | refused | unsent =>
      refine .of_closed ?_ ?_ (.inl rfl) <;> simp [Fates.Opens, Fates.ReachCommit, hbegin]
  | unanswered =>
      refine .of_active ?_ ?_ <;> simp [Fates.Opens, Fates.ReachCommit, hbegin]
  | cut => exact .gone (by simp [Fates.Cut, Fate.isCut, *]) _
  | ok =>
  simp only [Program.exec_bind, Program.exec_get, Session.begin, hown, Option.isSome_some, if_true,
    Program.exec_issue]
  cases hupdate : f.update with
  | refused =>
      refine .of_closed ?_ ?_ (.inr rfl) <;>
        simp [Fates.Opens, Fates.ReachCommit, Fate.hidden, hbegin, hupdate]
  | unsent | unanswered =>
      refine .of_active ?_ ?_ <;>
        simp [Fates.Opens, Fates.ReachCommit, Fate.hidden, hbegin, hupdate]
  | cut => exact .gone (by simp [Fates.Cut, Fate.isCut, *]) _
  | ok =>
  cases hinsert : f.insert with
  | refused =>
      refine .of_closed ?_ ?_ (.inr rfl) <;>
        simp [Fates.Opens, Fates.ReachCommit, Fate.hidden, hbegin, hupdate, hinsert]
  | unsent | unanswered =>
      refine .of_active ?_ ?_ <;>
        simp [Fates.Opens, Fates.ReachCommit, Fate.hidden, hbegin, hupdate, hinsert]
  | cut => exact .gone (by simp [Fates.Cut, Fate.isCut, *]) _
  | ok =>
  have hreach : f.ReachCommit := ⟨hbegin, hupdate, hinsert⟩
  cases hcommit : f.commit with
  | ok => exact .committed hreach hcommit
  | refused =>
      refine .of_closed ?_ ?_ (.inl rfl) <;>
        simp [Fates.Opens, Fate.hidden, hbegin, hupdate, hinsert, hcommit, Fate.took]
  | unsent =>
      refine .of_active ?_ ?_ <;>
        simp [Fates.Opens, Fate.hidden, hbegin, hupdate, hinsert, hcommit, Fate.took]
  | unanswered => exact .of_unanswered hreach hcommit
  | cut => exact .gone (by simp [Fates.Cut, Fate.isCut, *]) _

/-! ## The outer catch block -/

variable {x : Session} {command : Session → Session}

theorem exec_query : (query f command).exec ⟨s, tx⟩ =
    if f.reuse && tx.isAborted then (.error .error, ⟨s, .idle⟩)
    else if !f.reuse && tx.locks then (.error .blocked, ⟨s, tx⟩)
    else (call f.record (Session.close f.reuse) command).exec ⟨s, tx⟩ := by
  simp only [query, Program.exec_bind, Program.exec_get]
  split
  · rfl
  · split <;> rfl

/-- A statement of the pool returns if it succeeds. -/
theorem exec_query_ok (hexec : (query f command).exec ⟨s, tx⟩ = (.ok (), x)) : x = command ⟨s, tx⟩ := by
  rw [exec_query] at hexec
  split at hexec
  · cases hexec
  split at hexec
  · cases hexec
  rw [Program.exec_call] at hexec
  split at hexec
  · cases hexec
    rfl
  · cases hexec

/-- A client with an open transaction is not the one that the `UPDATE` runs on. -/
def Apart (reuse : Bool) (tx : Tx) : Prop := reuse = false ∨ ∀ db locks, tx ≠ .active db locks

theorem Apart.of_closed {reuse : Bool} (htx : tx = .idle ∨ tx = .aborted) : Apart reuse tx := by
  rcases htx with rfl | rfl
  · exact .inr (by rintro _ _ ⟨⟩)
  · exact .inr (by rintro _ _ ⟨⟩)

theorem Apart.seen {reuse : Bool} (h : Apart reuse tx) : Session.seen reuse ⟨s, tx⟩ = s := by
  rcases h with rfl | h
  · rfl
  · cases tx with
    | active db locks => exact absurd rfl (h db locks)
    | _ => cases reuse <;> rfl

theorem Apart.write {reuse : Bool} (hapart : Apart reuse tx) {set : JobRow → JobRow} :
    Session.write h reuse set ⟨s, tx⟩ = ⟨s.write h.job set, tx⟩ := by
  rcases hapart with rfl | hapart
  · rfl
  · cases tx with
    | active db locks => exact absurd rfl (hapart db locks)
    | _ => cases reuse <;> rfl

/-- A failure that is recorded: the row has its status, and no effect is added. -/
theorem exec_recordFailure (hlease : s.HoldsLease h) (hapart : Apart f.reuse tx)
    (hexec : (recordFailure cfg h m f message random).exec ⟨s, tx⟩ = (.ok (), x)) :
    (x.state.HasStatus h.job .retrying ∨ x.state.HasStatus h.job .dead) ∧
      x.state.db.effectsFor h.job = s.db.effectsFor h.job := by
  obtain ⟨r, hrow, hown⟩ := ownRow_of_holdsLease cfg hlease
  simp only [recordFailure, Program.exec_bind, Program.exec_get, hapart.seen, hown, Option.isSome_some,
    if_true] at hexec
  split at hexec
  · rw [exec_query_ok hexec, hapart.write]
    exact ⟨.inr (hasStatus_write (Db.keepsId_buried _ _) rfl hrow), rfl⟩
  · rw [Program.exec_bind] at hexec
    split at hexec
    · rename_i y hquery
      rw [exec_query_ok hquery, hapart.write, Program.exec_call] at hexec
      split at hexec
      · cases hexec
        exact ⟨.inl (hasStatus_write (Db.keepsId_parked _ _) rfl hrow), rfl⟩
      · cases hexec
    · cases hexec

/-- Inside of a transaction that is left open nothing is written for others to see. -/
theorem exec_recordFailure_inside (hreuse : f.reuse = true)
    (hexec : (recordFailure cfg h m f message random).exec ⟨s, .active db locks⟩ = (.ok (), x)) :
    x.state.db = s.db := by
  have hsame {set : JobRow → JobRow} (found : Bool) :
      ((if found then Session.write h f.reuse set else id) ⟨s, .active db locks⟩).state = s := by
    rw [hreuse]
    cases found <;> rfl
  simp only [recordFailure, Program.exec_bind, Program.exec_get] at hexec
  split at hexec
  · rw [exec_query_ok hexec, hsame]
  · rw [Program.exec_bind] at hexec
    split at hexec
    · rename_i y hquery
      have hy : y.state.db = s.db := by rw [exec_query_ok hquery, hsame]
      split at hexec
      · rw [Program.exec_call] at hexec
        split at hexec
        · cases hexec
          exact hy
        · cases hexec
      · cases hexec
        exact hy
    · cases hexec

/-! ## All or nothing -/

/-- The job has succeeded with one new effect and was not delayed, or it has failed without one. -/
def AllOrNothing (h : Holding) (s t : State) : Prop :=
  (t.HasStatus h.job .succeeded ∧ t.db.effectsFor h.job = s.db.effectsFor h.job + 1 ∧
      t.redis.delayed = s.redis.delayed) ∨
    (t.HasStatus h.job .retrying ∨ t.HasStatus h.job .dead) ∧
      t.db.effectsFor h.job = s.db.effectsFor h.job

instance (h : Holding) (s t : State) : Decidable (AllOrNothing h s t) :=
  inferInstanceAs (Decidable (_ ∨ _))

/-- `COMMIT` takes effect, and the client sees an error on a connection that stays open. -/
def Fates.CommitUnanswered (f : Fates) : Prop :=
  f.connect = .ok ∧ f.ReachCommit ∧ f.commit = .unanswered

instance (f : Fates) : Decidable f.CommitUnanswered := inferInstanceAs (Decidable (_ ∧ _ ∧ _))

/-- The transaction is left open on the client that the outer `UPDATE` then runs on. -/
def Fates.LeftOpen (f : Fates) : Prop := f.connect = .ok ∧ f.Opens ∧ f.reuse = true

instance (f : Fates) : Decidable f.LeftOpen := inferInstanceAs (Decidable (_ ∧ _ ∧ _))

theorem holdsLease_settle (hlease : s.HoldsLease h) : (s.settle e h m.began).HoldsLease h := by
  obtain ⟨r, hrow, hlease⟩ := Option.bind_eq_some_iff.mp hlease
  exact Option.bind_eq_some_iff.mpr ⟨r.succeeded m.began,
    Db.row_updateRow_self (Db.keepsId_succeeded _) hrow, hlease⟩

theorem hasStatus_settle (hlease : s.HoldsLease h) :
    (s.settle e h m.began).HasStatus h.job .succeeded := by
  obtain ⟨r, hrow, -⟩ := Option.bind_eq_some_iff.mp hlease
  exact Option.map_eq_some_iff.mpr ⟨r.succeeded m.began,
    Db.row_updateRow_self (Db.keepsId_succeeded _) hrow, rfl⟩

theorem effectsFor_settle :
    (s.settle e h m.began).db.effectsFor h.job = s.db.effectsFor h.job + 1 := by
  rw [State.settle, Db.effectsFor_insertEffect, if_pos rfl]
  rfl

theorem State.HasStatus.eq {t : State} {job : Uuid} {status status' : JobStatus} (h : t.HasStatus job status)
    (h' : t.HasStatus job status') : status = status' :=
  Option.some.inj (h.symm.trans h')

/-- A recorded failure of a job whose transaction is committed is neither. -/
theorem not_allOrNothing_of_settled {t : State} (hfailed : t.HasStatus h.job .retrying ∨ t.HasStatus h.job .dead)
    (heffects : t.db.effectsFor h.job = (s.settle e h m.began).db.effectsFor h.job) :
    ¬ AllOrNothing h s t := by
  rw [effectsFor_settle] at heffects
  rintro (⟨hsucceeded, -⟩ | ⟨-, hsame⟩)
  · rcases hfailed with hfailed | hfailed <;> cases hsucceeded.eq hfailed
  · omega

/-- A job that is still running is neither. -/
theorem not_allOrNothing_of_running {t : State} (hrunning : t.HasStatus h.job .running) :
    ¬ AllOrNothing h s t := by
  rintro (⟨hstatus, -⟩ | ⟨hstatus | hstatus, -⟩) <;> cases hrunning.eq hstatus

/-- What the client goes back with decides where the outer `UPDATE` runs. -/
theorem exec_settle : (settle cfg e h m f message random).exec ⟨s, .idle⟩ =
    if f.connect = .ok then
      match (transaction cfg e h m f).exec ⟨s, .idle⟩ with
      | (.ok _, y) => (.ok (), y)
      | (.error stop, y) =>
          if stop = .error then (recordFailure cfg h m f message random).exec y else (.error stop, y)
    else (recordFailure cfg h m f message random).exec ⟨s, .idle⟩ := by
  simp only [settle, Program.exec_catching, Program.exec_bind, Program.exec_call]
  by_cases hconnect : f.connect = .ok
  · simp only [if_pos hconnect, id]
    generalize (transaction cfg e h m f).exec _ = q
    rcases q with ⟨_ | _, y⟩ <;> rfl
  · simp only [if_neg hconnect, id, ite_self, if_true]

/-- No connection is lost under the transaction, and its `ROLLBACK` takes effect. -/
structure Fates.Plain (f : Fates) : Prop where
  uncut : ¬ f.Cut
  ended : f.rollback.took = true

/-- Either the transaction is committed and answered, or the outer catch block is run, to which an
unanswered `COMMIT` has left a succeeded row. -/
theorem exec_settle_plain (hlease : s.HoldsLease h) (hplain : f.Plain) :
    (settle cfg e h m f message random).exec ⟨s, .idle⟩ =
      if f.connect = .ok ∧ f.ReachCommit ∧ f.commit = .ok then (.ok (), ⟨s.settle e h m.began, .idle⟩)
      else (recordFailure cfg h m f message random).exec
        ⟨if f.CommitUnanswered then s.settle e h m.began else s, .idle⟩ := by
  rw [exec_settle]
  by_cases hconnect : f.connect = .ok
  swap
  · rw [if_neg hconnect, if_neg fun h => hconnect h.1, if_neg fun h => hconnect h.1]
  rw [if_pos hconnect]
  have hleaves : Leaves e h m f s ((transaction cfg e h m f).exec ⟨s, .idle⟩) := leaves_transaction hlease
  generalize (transaction cfg e h m f).exec _ = q at hleaves
  cases hleaves with
  | committed hreach hcommit => rw [if_pos ⟨hconnect, hreach, hcommit⟩]
  | unanswered hreach hcommit =>
      have hun : f.CommitUnanswered := ⟨hconnect, hreach, hcommit⟩
      rw [if_neg fun h => Fate.noConfusion (hcommit.symm.trans h.2.2), if_pos hun]
      rfl
  | opened hopens => cases (congrArg Fate.took hopens.1).symm.trans hplain.ended
  | undone hopens hnot htx =>
      have hidle := htx.resolve_right fun h => by cases h.2.symm.trans hplain.ended
      have hun : ¬ f.CommitUnanswered := fun h => hnot ⟨h.2.1, by rw [h.2.2]; rfl⟩
      rw [if_neg fun h => hnot ⟨h.2.1, by rw [h.2.2]; rfl⟩, if_neg hun, hidle]
      rfl
  | gone hcut => exact absurd hcut hplain.uncut

/-- On a client without a transaction. -/
theorem exec_query_write {set : JobRow → JobRow} :
    (query f (Session.write h f.reuse set)).exec ⟨s, .idle⟩ =
      if f.record = .ok then (.ok (), ⟨s.write h.job set, .idle⟩)
      else (.error .error, ⟨if f.record.took then s.write h.job set else s, .idle⟩) := by
  have hwrite : Session.write h f.reuse set ⟨s, .idle⟩ = ⟨s.write h.job set, .idle⟩ :=
    Apart.write (.of_closed (.inl rfl))
  have hclose (t : State) : Session.close f.reuse ⟨t, .idle⟩ = ⟨t, .idle⟩ := by
    cases f.reuse <;> rfl
  rw [exec_query, if_neg (by simp [Tx.isAborted]), if_neg (by simp [Tx.locks]), Program.exec_call, hwrite]
  cases f.record.took <;> simp only [hclose, if_true, Bool.false_eq_true, if_false]

theorem exec_park (hlease : s.HoldsLease h) (hlast : h.attempts < h.maxAttempts) (hrecord : f.record = .ok)
    (hzadd : f.zadd = .ok) : ∃ x, (recordFailure cfg h m f message random).exec ⟨s, .idle⟩ = (.ok (), x) ∧
      x.state.HasStatus h.job .retrying := by
  obtain ⟨r, hrow, hown⟩ := ownRow_of_holdsLease cfg hlease
  have hseen : Session.seen f.reuse ⟨s, .idle⟩ = s := Apart.seen (.of_closed (.inl rfl))
  simp only [recordFailure, Program.exec_bind, Program.exec_get, hseen, hown, Option.isSome_some, if_true,
    if_neg (not_le.mpr hlast), exec_query_write, if_pos hrecord, Program.exec_call, if_pos hzadd]
  exact ⟨_, rfl, hasStatus_write (Db.keepsId_parked _ _) rfl hrow⟩

/-! ## Examples of both outcomes -/

/-- The first claim of the first job. -/
def Script.claimed : Holding := ⟨Script.job 1, 0, 1, 5⟩

/-- Its execution, when the handler has returned. -/
def Script.returned : Exec := ⟨['a'], uuidOut (Script.job 1), .txBegin Script.claimed⟩

open Script in
theorem exists_returned : ∃ s, Reaches defaults (fun _ a => a.isFault = false) s ∧
    returned ∈ s.execs ∧ s.HoldsLease claimed ∧ s.HasStatus (job 1) .running :=
  exists_run_of_play (start ['a'] ++ submit (job 1) ++ takes ['a'] 3) (by decide +kernel)

/-- Every command succeeds but `COMMIT`. -/
def Fates.failsCommit (commit : Fate) : Fates := ⟨.ok, .ok, .ok, .ok, commit, .ok, .ok, .ok, true⟩

theorem Fates.plain_failsCommit {commit : Fate} (h : commit.isCut = false) : (Fates.failsCommit commit).Plain where
  uncut := by
    rintro (hcut | hcut | hcut | hcut | hcut)
    · cases hcut
    · cases hcut
    · cases hcut
    · cases h.symm.trans hcut
    · cases hcut
  ended := rfl

/-- The action is a command of this execution. -/
def OwnCommand (e : Exec) (a : Act) : Prop := ∃ pc, a.exec? = some { e with pc }

/-- The stores are the same. -/
def SameStores (t : State) (x : Session) : Prop := t.db = x.state.db ∧ t.redis = x.state.redis

/-- The system gets from `s` to the outcome `y` by commands of this execution: it is about to release
its entry if `processOne` returns, and it is gone if an error left `processOne`. -/
def Ends (cfg : Config) (e : Exec) (s : State) (rest : List Exec) (y : Except Stop Unit × Session) : Prop :=
  ∃ t, Run (step cfg) (fun _ a => OwnCommand e a) s t ∧ SameStores t y.2 ∧
    t.execs = if y.1.isOk then { e with pc := .release } :: rest else rest

namespace Ends

variable {t u : State} {pc pc' : ExecPc} {rest : List Exec} {x : Session}
  {y : Except Stop Unit × Session}

theorem execs_setExec (hexecs : s.execs = { e with pc } :: rest) :
    (s.setExec { e with pc } pc').execs = { e with pc := pc' } :: rest := by
  rw [State.setExec_execs, hexecs, Bag.swap, List.erase_cons_head]

theorem exec (hexecs : s.execs = { e with pc } :: rest)
    (hstep : processOne cfg s { e with pc } .returned = some t) (h : Ends cfg e t rest y) :
    Ends cfg e s rest y := by
  obtain ⟨u, hrun, hu⟩ := h
  have hfirst : step cfg s (.exec { e with pc } .returned) = some t := by
    rw [step, if_pos (hexecs ▸ List.mem_cons_self), hstep]
  exact ⟨u, (Run.single ⟨pc, rfl⟩ hfirst).trans hrun, hu⟩

theorem fail (hexecs : s.execs = { e with pc } :: rest) (took : Bool)
    (hstep : fails cfg s { e with pc } took message random = some t) (h : Ends cfg e t rest y) :
    Ends cfg e s rest y := by
  obtain ⟨u, hrun, hu⟩ := h
  have hfirst : step cfg s (.execFail { e with pc } took message random) = some t := by
    rw [step, if_pos (hexecs ▸ List.mem_cons_self), hstep]
  exact ⟨u, (Run.single ⟨pc, rfl⟩ hfirst).trans hrun, hu⟩

/-- The last command succeeds. -/
theorem returned (hexecs : s.execs = { e with pc } :: rest)
    (hstep : processOne cfg s { e with pc } .returned = some (u.setExec { e with pc } .release))
    (hu : u.execs = s.execs) (hsame : SameStores u x) : Ends cfg e s rest (.ok (), x) :=
  exec hexecs hstep ⟨_, .refl, hsame, execs_setExec (hu.trans hexecs)⟩

/-- A command fails, and no block catches the error. -/
theorem threw (hexecs : s.execs = { e with pc } :: rest) (took : Bool)
    (hstep : fails cfg s { e with pc } took [] Script.noJitter = some (u.endExec { e with pc }))
    (hu : u.execs = s.execs) (hsame : SameStores u x) : Ends cfg e s rest (.error .error, x) := by
  refine fail hexecs took hstep ⟨_, .refl, hsame, ?_⟩
  rw [State.endExec_execs, hu, hexecs, List.erase_cons_head]
  rfl

end Ends

section

variable {t : State} {rest : List Exec} {runAt : Nat}

theorem SameStores.write (hsame : SameStores t ⟨s, .idle⟩) {set : JobRow → JobRow} :
    SameStores (t.write h.job set) ⟨s.write h.job set, .idle⟩ :=
  ⟨by rw [State.write_db, hsame.1]; rfl, hsame.2⟩

theorem SameStores.zadd (hsame : SameStores t ⟨s, .idle⟩) :
    SameStores (t.withRedis (t.redis.zadd runAt (uuidOut h.job))) (Session.zadd h runAt ⟨s, .idle⟩) :=
  ⟨hsame.1, by rw [State.withRedis_redis, hsame.2]; rfl⟩

theorem bury_ends (hexecs : t.execs = { e with pc := .bury h message } :: rest)
    (hsame : SameStores t ⟨s, .idle⟩) (hlease : t.HoldsLease h) (hfree : t.locked h.job = false) :
    Ends cfg e t rest ((query f (Session.write h f.reuse (.buried message t.now))).exec ⟨s, .idle⟩) := by
  obtain ⟨r, -, hown⟩ := ownRow_of_holdsLease cfg hlease
  rw [exec_query_write]
  split
  · exact .returned hexecs (u := t.write h.job _) (by simp [processOne, hfree, hown]) rfl hsame.write
  · by_cases htook : f.record.took = true
    · rw [if_pos htook]
      exact .threw hexecs true (u := t.write h.job _) (by simp [fails, hfree, hown]) rfl hsame.write
    · rw [if_neg htook]
      exact .threw hexecs false (u := t) (by simp [fails]) rfl hsame

theorem zadd_ends (hexecs : t.execs = { e with pc := .zadd h runAt } :: rest)
    (hsame : SameStores t ⟨s, .idle⟩) (fate : Fate) :
    Ends cfg e t rest ((call fate id (Session.zadd h runAt)).exec ⟨s, .idle⟩) := by
  rw [Program.exec_call]
  split
  · exact .returned hexecs rfl rfl hsame.zadd
  · by_cases htook : fate.took = true
    · rw [if_pos htook]
      exact .threw hexecs true rfl rfl hsame.zadd
    · rw [if_neg htook]
      exact .threw hexecs false rfl rfl hsame

theorem park_ends (hexecs : t.execs = { e with pc := .park h message runAt } :: rest)
    (hsame : SameStores t ⟨s, .idle⟩) (hlease : t.HoldsLease h) (hfree : t.locked h.job = false) :
    Ends cfg e t rest ((query f (Session.write h f.reuse (.parked message runAt)) >>= fun _ =>
      call f.zadd id (Session.zadd h runAt)).exec ⟨s, .idle⟩) := by
  obtain ⟨r, -, hown⟩ := ownRow_of_holdsLease cfg hlease
  rw [Program.exec_bind, exec_query_write]
  by_cases hrecord : f.record = .ok
  · rw [if_pos hrecord]
    let u := (t.write h.job (.parked message runAt)).setExec { e with pc := .park h message runAt }
      (.zadd h runAt)
    have hexecs' : u.execs = _ := Ends.execs_setExec hexecs
    refine .exec (t := u) hexecs (by simp [processOne, hfree, hown, u]) (zadd_ends hexecs' ?_ f.zadd)
    exact hsame.write
  rw [if_neg hrecord]
  by_cases htook : f.record.took = true
  · rw [if_pos htook]
    exact .threw hexecs true (u := t.write h.job _) (by simp [fails, hfree, hown]) rfl hsame.write
  · rw [if_neg htook]
    exact .threw hexecs false (u := t) (by simp [fails]) rfl hsame

/-- The outer catch block, entered at once. -/
theorem recordFailure_ends {u : State} (hexecs : t.execs = { e with pc := caught cfg u h message random } :: rest)
    (hsame : SameStores t ⟨s, .idle⟩) (hnow : u.now = t.now) (hlease : t.HoldsLease h)
    (hfree : t.locked h.job = false) :
    Ends cfg e t rest ((recordFailure cfg h ⟨t.now, t.now, t.now⟩ f message random).exec ⟨s, .idle⟩) := by
  have hseen : Session.seen f.reuse ⟨s, .idle⟩ = s := Apart.seen (.of_closed (.inl rfl))
  have hown : (s.ownRow cfg h).isSome = true := by
    obtain ⟨r, -, hown⟩ := ownRow_of_holdsLease cfg hlease
    rw [State.ownRow, ← hsame.1]
    exact Option.isSome_iff_exists.mpr ⟨r, hown⟩
  simp only [recordFailure, Program.exec_bind, Program.exec_get, hseen, hown, if_true]
  rw [caught, State.dateNow, hnow] at hexecs
  split
  · rename_i hlast
    rw [if_pos hlast] at hexecs
    exact bury_ends hexecs hsame hlease hfree
  · rename_i hlast
    rw [if_neg hlast] at hexecs
    exact park_ends hexecs hsame hlease hfree

end

/-- The state in which the execution stands at a point of its program. -/
def State.standing (s : State) (e : Exec) (rest : List Exec) (pc : ExecPc) : State :=
  { s with execs := { e with pc } :: rest }

section

variable {rest : List Exec} {pc pc' : ExecPc}

theorem standing_setExec :
    (s.standing e rest pc).setExec { e with pc } pc' = s.standing e rest pc' := by
  simp only [State.setExec, State.standing, Bag.swap, List.erase_cons_head]

theorem locked_of_execs {t : State} (hexecs : t.execs = { e with pc } :: rest)
    (hfree : ∀ e' ∈ rest, e'.pc.locks ≠ some h.job) (hpc : pc.locks ≠ some h.job) :
    t.locked h.job = false := by
  refine State.locked_eq_false.mpr fun e' he' => ?_
  rw [hexecs] at he'
  rcases List.mem_cons.mp he' with rfl | he'
  · exact hpc
  · exact hfree e' he'

/-- A command of the transaction fails without effect. -/
theorem failed_ends (hlease : s.HoldsLease h) (hfree : ∀ e' ∈ rest, e'.pc.locks ≠ some h.job)
    (hfails : fails cfg (s.standing e rest pc) { e with pc } false message random =
      some ((s.standing e rest pc).setExec { e with pc }
        (caught cfg (s.standing e rest pc) h message random))) :
    Ends cfg e (s.standing e rest pc) rest
      ((recordFailure cfg h ⟨s.now, s.now, s.now⟩ f message random).exec ⟨s, .idle⟩) := by
  rw [standing_setExec] at hfails
  refine .fail rfl false hfails ?_
  have hlocks := (caught_phase cfg (s.standing e rest pc) h message random).2.1
  exact recordFailure_ends (u := s.standing e rest pc)
    (t := s.standing e rest (caught cfg (s.standing e rest pc) h message random)) rfl ⟨rfl, rfl⟩ rfl
    hlease (locked_of_execs rfl hfree (by rw [hlocks]; rintro ⟨⟩))

/-- `processOne` from where its handler has returned, with no time passing, is a run of the system in
which only this execution moves. -/
theorem settle_ends (hlease : s.HoldsLease h) (hfree : ∀ e' ∈ rest, e'.pc.locks ≠ some h.job)
    (hplain : f.Plain) :
    Ends cfg e (s.standing e rest (.txBegin h)) rest
      ((settle cfg e h ⟨s.now, s.now, s.now⟩ f message random).exec ⟨s, .idle⟩) := by
  obtain ⟨r, -, hown⟩ := ownRow_of_holdsLease cfg hlease
  rw [exec_settle_plain hlease hplain]
  by_cases hbegin : f.connect = .ok ∧ f.begin = .ok
  swap
  · rw [if_neg fun h => hbegin ⟨h.1, h.2.1.1⟩, if_neg fun h => hbegin ⟨h.1, h.2.1.1⟩]
    exact failed_ends hlease hfree rfl
  refine .exec (t := s.standing e rest (.txUpdate h s.now)) rfl (congrArg some standing_setExec) ?_
  by_cases hupdate : f.update = .ok
  swap
  · rw [if_neg fun h => hupdate h.2.1.2.1, if_neg fun h => hupdate h.2.1.2.1]
    exact failed_ends hlease hfree rfl
  have hown' : (s.standing e rest (.txUpdate h s.now)).ownRow cfg h = some r := hown
  refine .exec (t := s.standing e rest (.txInsert h s.now)) rfl ?_ ?_
  · have hunlocked : (s.standing e rest (.txUpdate h s.now)).locked h.job = false :=
      locked_of_execs rfl hfree (by rintro ⟨⟩)
    simp only [processOne, hunlocked, hown', Bool.false_eq_true, if_false, standing_setExec]
  by_cases hinsert : f.insert = .ok
  swap
  · rw [if_neg fun h => hinsert h.2.1.2.2, if_neg fun h => hinsert h.2.1.2.2]
    exact failed_ends hlease hfree rfl
  refine .exec (t := s.standing e rest (.txCommit h s.now)) rfl (congrArg some standing_setExec) ?_
  have hreach : f.ReachCommit := ⟨hbegin.2, hupdate, hinsert⟩
  by_cases hcommit : f.commit = .ok
  · rw [if_pos ⟨hbegin.1, hreach, hcommit⟩]
    exact .returned (u := (s.standing e rest (.txCommit h s.now)).settle e h s.now) rfl rfl rfl ⟨rfl, rfl⟩
  rw [if_neg fun h => hcommit h.2.2]
  by_cases hun : f.CommitUnanswered
  · rw [if_pos hun]
    -- the row has succeeded when the outer catch block is entered
    let t := s.standing e rest (.txCommit h s.now)
    let u := (t.settle e h s.now).setExec { e with pc := .txCommit h s.now } (caught cfg t h message random)
    have hu : u.execs = { e with pc := caught cfg t h message random } :: rest :=
      Ends.execs_setExec (s := t.settle e h s.now) rfl
    have hlocks := (caught_phase cfg t h message random).2.1
    refine .fail (t := u) rfl true rfl ?_
    exact recordFailure_ends (u := t) hu ⟨rfl, rfl⟩ rfl
      (holdsLease_settle (m := ⟨s.now, s.now, s.now⟩) hlease)
      (locked_of_execs hu hfree (by rw [hlocks]; rintro ⟨⟩))
  · rw [if_neg hun]
    exact failed_ends hlease hfree rfl

end

end QueueFlow
