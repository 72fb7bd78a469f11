-- SUMMARY: What one command of a worker can do: inversion lemmas for processOne, failing commands, and the start of a process.
import QueueFlow.Worker.Main

/-!
# Moves of the worker

Each relation lists the ways in which one command changes the state, with the
guard under which it does so. Invariants are proved by cases on these relations,
so that only this file unfolds the worker's program.
-/

namespace QueueFlow

/-! ## The rows that guarded statements find -/

namespace State

variable {cfg : Config} {s : State} {h : Holding} {job : Uuid} {r : JobRow}

theorem ownRow_isSome : (s.ownRow cfg h).isSome = true ↔
    ∃ r, s.db.row h.job = some r ∧ (cfg.fencing = true → r.leaseId = some h.lease) := by
  cases hrow : s.db.row h.job with
  | none => simp [ownRow, hrow]
  | some r => by_cases hfence : cfg.fencing = true <;> simp [ownRow, hrow, ownsRow, hfence]

theorem ownRow_some (hrow : s.ownRow cfg h = some r) :
    s.db.row h.job = some r ∧ (cfg.fencing = true → r.leaseId = some h.lease) := by
  obtain ⟨hrow, hown⟩ := Option.filter_eq_some_iff.mp hrow
  refine ⟨hrow, fun hfence => ?_⟩
  simpa [ownsRow, hfence] using hown

theorem claimableRow_some (hrow : s.claimableRow job = some r) :
    s.db.row job = some r ∧ r.status.claimable = true :=
  Option.filter_eq_some_iff.mp hrow

end State

/-! ## Executions -/

/-- One command of an execution. -/
inductive ExecMove (cfg : Config) (s : State) (e : Exec) : State → Prop where
  | letGo (hpc : e.pc.phase = .finished) :
      ExecMove cfg s e ((s.withRedis (s.redis.lrem e.worker e.id)).endExec e)
  | rejected (hpc : e.pc = .select) (hid : uuidIn e.id = none) : ExecMove cfg s e (s.endExec e)
  | found (job : Uuid) (r : JobRow) (hpc : e.pc = .select) (hid : uuidIn e.id = some job)
      (hrow : s.db.row job = some r) :
      ExecMove cfg s e (s.setExec e (.claim job r.maxAttempts))
  | missing (job : Uuid) (hpc : e.pc = .select) (hid : uuidIn e.id = some job)
      (hrow : s.db.row job = none) : ExecMove cfg s e (s.setExec e .release)
  | notClaimable (job : Uuid) (m : Nat) (hpc : e.pc = .claim job m)
      (hrow : s.claimableRow job = none) : ExecMove cfg s e (s.setExec e .release)
  | claimed (job : Uuid) (m : Nat) (r : JobRow) (hpc : e.pc = .claim job m)
      (hfree : s.locked job = false) (hrow : s.claimableRow job = some r) :
      ExecMove cfg s e ((s.claim e job).setExec e (.handler (s.claimOf job r m)))
  /-- From the handler to the next write, through points that hold no lock. -/
  | work (h : Holding) (pc : ExecPc) (hpc : e.pc.phase = .owning h) (hlocks : e.pc.locks = none)
      (hpc' : pc.phase = .owning h) (hlocks' : pc.locks = none) (hroll : pc ≠ .txRollback h) :
      ExecMove cfg s e (s.setExec e pc)
  | lock (h : Holding) (began : Nat) (r : JobRow) (hpc : e.pc = .txUpdate h began)
      (hfree : s.locked h.job = false) (hrow : s.ownRow cfg h = some r) :
      ExecMove cfg s e (s.setExec e (.txInsert h began))
  | unowned (h : Holding) (began : Nat) (hpc : e.pc = .txUpdate h began)
      (hrow : s.ownRow cfg h = none) : ExecMove cfg s e (s.setExec e (.txRollback h))
  | insert (h : Holding) (began : Nat) (hpc : e.pc = .txInsert h began) :
      ExecMove cfg s e (s.setExec e (.txCommit h began))
  | settled (h : Holding) (began : Nat) (hpc : e.pc = .txCommit h began) :
      ExecMove cfg s e ((s.settle e h began).setExec e .release)
  | fenced (h : Holding) (hpc : e.pc.phase = .owning h)
      (hrow : s.ownRow cfg h = none ∨ e.pc = .txRollback h) :
      ExecMove cfg s e (s.setExec e .release)
  | buried (h : Holding) (message : Text) (r : JobRow) (hpc : e.pc = .bury h message)
      (hfree : s.locked h.job = false) (hrow : s.ownRow cfg h = some r) :
      ExecMove cfg s e ((s.write h.job (.buried message s.now)).setExec e .release)
  | parked (h : Holding) (message : Text) (runAt : Nat) (r : JobRow)
      (hpc : e.pc = .park h message runAt) (hfree : s.locked h.job = false)
      (hrow : s.ownRow cfg h = some r) :
      ExecMove cfg s e ((s.write h.job (.parked message runAt)).setExec e (.zadd h runAt))
  | zadded (h : Holding) (runAt : Nat) (hpc : e.pc = .zadd h runAt) :
      ExecMove cfg s e
        ((s.withRedis (s.redis.zadd runAt (uuidOut h.job))).setExec e .release)

theorem caught_phase (cfg : Config) (s : State) (h : Holding) (message : Text) (random : Random) :
    (caught cfg s h message random).phase = .owning h ∧
      (caught cfg s h message random).locks = none ∧
      caught cfg s h message random ≠ .txRollback h := by
  unfold caught
  split <;> simp [ExecPc.phase, ExecPc.locks]

variable {cfg : Config} {s s' : State} {e : Exec}

theorem processOne_cases {o : Outcome} (h : processOne cfg s e o = some s') :
    ExecMove cfg s e s' := by
  unfold processOne at h
  split at h
  case h_1 hpc => cases h; exact .letGo (by simp [hpc, ExecPc.phase])
  case h_2 hpc =>
    split at h
    case h_1 hid => cases h; exact .rejected hpc hid
    case h_2 job hid =>
      split at h
      case h_1 hrow => cases h; exact .missing job hpc hid hrow
      case h_2 r hrow => cases h; exact .found job r hpc hid hrow
  case h_3 job m hpc =>
    split at h
    · cases h
    · rename_i hfree
      split at h
      case h_1 hrow => cases h; exact .notClaimable job m hpc hrow
      case h_2 r hrow => cases h; exact .claimed job m r hpc (by simpa using hfree) hrow
  case h_4 hold hpc =>
    split at h
    case h_1 =>
      cases h
      exact .work hold _ (by simp [hpc, ExecPc.phase]) (by simp [hpc, ExecPc.locks]) rfl rfl (by rintro ⟨⟩)
    case h_2 message random =>
      cases h
      obtain ⟨h1, h2, h3⟩ := caught_phase cfg s hold message random
      exact .work hold _ (by simp [hpc, ExecPc.phase]) (by simp [hpc, ExecPc.locks]) h1 h2 h3
  case h_5 hold hpc =>
    cases h
    exact .work hold _ (by simp [hpc, ExecPc.phase]) (by simp [hpc, ExecPc.locks]) rfl rfl (by rintro ⟨⟩)
  case h_6 hold began hpc =>
    split at h
    · cases h
    · rename_i hfree
      split at h
      case h_1 hrow => cases h; exact .unowned hold began hpc hrow
      case h_2 r hrow => cases h; exact .lock hold began r hpc (by simpa using hfree) hrow
  case h_7 hold began hpc => cases h; exact .insert hold began hpc
  case h_8 hold began hpc => cases h; exact .settled hold began hpc
  case h_9 hold hpc => cases h; exact .fenced hold (by simp [hpc, ExecPc.phase]) (.inr hpc)
  case h_10 hold message hpc =>
    split at h
    · cases h
    · rename_i hfree
      split at h
      case h_1 hrow => cases h; exact .fenced hold (by simp [hpc, ExecPc.phase]) (.inl hrow)
      case h_2 r hrow => cases h; exact .buried hold message r hpc (by simpa using hfree) hrow
  case h_11 hold message runAt hpc =>
    split at h
    · cases h
    · rename_i hfree
      split at h
      case h_1 hrow => cases h; exact .fenced hold (by simp [hpc, ExecPc.phase]) (.inl hrow)
      case h_2 r hrow => cases h; exact .parked hold message runAt r hpc (by simpa using hfree) hrow
  case h_12 hold runAt hpc => cases h; exact .zadded hold runAt hpc
  case h_13 hpc => cases h; exact .letGo (by simp [hpc, ExecPc.phase])

/-- One failing command of an execution. -/
inductive FailMove (cfg : Config) (s : State) (e : Exec) (took : Bool) : State → Prop where
  /-- The error leaves `processOne` and no write took effect. -/
  | lost : FailMove cfg s e took (s.endExec e)
  | released (htook : took = true) (hpc : e.pc = .release) :
      FailMove cfg s e took ((s.withRedis (s.redis.lrem e.worker e.id)).endExec e)
  | claimed (job : Uuid) (m : Nat) (r : JobRow) (hpc : e.pc = .claim job m)
      (hfree : s.locked job = false) (hrow : s.claimableRow job = some r) :
      FailMove cfg s e took ((s.claim e job).endExec e)
  /-- The error reaches the outer catch block. -/
  | caught (h : Holding) (pc : ExecPc) (hpc : e.pc.phase = .owning h)
      (hpc' : pc.phase = .owning h) (hlocks' : pc.locks = none) (hroll : pc ≠ .txRollback h) :
      FailMove cfg s e took (s.setExec e pc)
  | settled (h : Holding) (began : Nat) (pc : ExecPc) (htook : took = true)
      (hpc : e.pc = .txCommit h began)
      (hpc' : pc.phase = .owning h) (hlocks' : pc.locks = none) (hroll : pc ≠ .txRollback h) :
      FailMove cfg s e took ((s.settle e h began).setExec e pc)
  | buried (h : Holding) (message : Text) (r : JobRow) (hpc : e.pc = .bury h message)
      (hfree : s.locked h.job = false) (hrow : s.ownRow cfg h = some r) :
      FailMove cfg s e took ((s.write h.job (.buried message s.now)).endExec e)
  | parked (h : Holding) (message : Text) (runAt : Nat) (r : JobRow)
      (hpc : e.pc = .park h message runAt) (hfree : s.locked h.job = false)
      (hrow : s.ownRow cfg h = some r) :
      FailMove cfg s e took ((s.write h.job (.parked message runAt)).endExec e)
  | zadded (h : Holding) (runAt : Nat) (hpc : e.pc = .zadd h runAt) :
      FailMove cfg s e took ((s.withRedis (s.redis.zadd runAt (uuidOut h.job))).endExec e)

theorem fails_cases {took : Bool} {message : Text} {random : Random}
    (h : fails cfg s e took message random = some s') : FailMove cfg s e took s' := by
  have hcaught (hold : Holding) := caught_phase cfg s hold message random
  unfold fails at h
  split at h
  case h_1 | h_4 => cases h
  case h_2 => cases h; exact .lost
  case h_3 job m hpc =>
    split at h
    · split at h
      · cases h
      · rename_i hfree
        split at h
        case h_1 => cases h; exact .lost
        case h_2 r hrow => cases h; exact .claimed job m r hpc (by simpa using hfree) hrow
    · cases h; exact .lost
  case h_5 hold hpc | h_6 hold _ hpc | h_7 hold _ hpc | h_9 hold hpc =>
    cases h
    exact .caught hold _ (by simp [hpc, ExecPc.phase]) (hcaught hold).1 (hcaught hold).2.1
      (hcaught hold).2.2
  case h_8 hold began hpc =>
    split at h
    · rename_i htook
      cases h
      exact .settled hold began _ htook hpc (hcaught hold).1 (hcaught hold).2.1 (hcaught hold).2.2
    · cases h
      exact .caught hold _ (by simp [hpc, ExecPc.phase]) (hcaught hold).1 (hcaught hold).2.1
        (hcaught hold).2.2
  case h_10 hold buriedMessage hpc =>
    split at h
    · split at h
      · cases h
      · rename_i hfree
        split at h
        case h_1 => cases h; exact .lost
        case h_2 r hrow => cases h; exact .buried hold _ r hpc (by simpa using hfree) hrow
    · cases h; exact .lost
  case h_11 hold parkedMessage runAt hpc =>
    split at h
    · split at h
      · cases h
      · rename_i hfree
        split at h
        case h_1 => cases h; exact .lost
        case h_2 r hrow => cases h; exact .parked hold _ runAt r hpc (by simpa using hfree) hrow
    · cases h; exact .lost
  case h_12 hold runAt hpc =>
    split at h
    · cases h; exact .zadded hold runAt hpc
    · cases h; exact .lost
  case h_13 hpc =>
    split at h
    · rename_i htook
      cases h; exact .released htook hpc
    · cases h; exact .lost

/-! ## Processes -/

/-- One command of `recoverOwnProcessing`, or the first heartbeat. -/
inductive StartMove (s : State) (w : WorkerId) (deadline : Bool) : State → Prop where
  /-- The old heartbeat is still there: wait for it. -/
  | wait : StartMove s w deadline s
  /-- The old heartbeat is still there at the deadline: leave the list alone. -/
  | refrain (c : Nat) (hp : s.procs w = .starting .checkAlive c) (halive : w ∈ s.redis.alive)
      (hdeadline : deadline = true) :
      StartMove s w deadline (s.setProc w (.starting .firstBeat c))
  | proceed (c : Nat) (hp : s.procs w = .starting .checkAlive c) (halive : w ∉ s.redis.alive) :
      StartMove s w deadline (s.setProc w (.starting .readList c))
  | nothing (c : Nat) (hp : s.procs w = .starting .readList c)
      (hlist : (s.redis.lrange w).filter isUuid = []) :
      StartMove s w deadline (s.setProc w (.starting .firstBeat c))
  | read (c : Nat) (hp : s.procs w = .starting .readList c)
      (hlist : (s.redis.lrange w).filter isUuid ≠ []) :
      StartMove s w deadline (s.setProc w (.starting (.reset ((s.redis.lrange w).filter isUuid)) c))
  | reset (c : Nat) (stranded : List Text) (hp : s.procs w = .starting (.reset stranded) c)
      (hfree : ∀ r ∈ s.db.jobs, strandedRow stranded r = true → s.locked r.id = false) :
      StartMove s w deadline ((s.withDb (s.db.update (strandedRow stranded) .requeued)).setProc w
        (.starting .moveAll c))
  | moved (c : Nat) (id : Text) (hp : s.procs w = .starting .moveAll c)
      (hlast : KeyedList.last? s.redis.processing w = some id) :
      StartMove s w deadline (s.withRedis
        { s.redis with pending := s.redis.pending ++ [id],
                       processing := KeyedList.removeRight s.redis.processing w id })
  | done (c : Nat) (hp : s.procs w = .starting .moveAll c)
      (hlast : KeyedList.last? s.redis.processing w = none) :
      StartMove s w deadline (s.setProc w (.starting .firstBeat c))
  | beat (c : Nat) (hp : s.procs w = .starting .firstBeat c) :
      StartMove s w deadline ((s.withRedis (s.redis.beat w)).setProc w (.running c))

theorem recoverOwnProcessing_cases {w : WorkerId} {deadline : Bool}
    (h : recoverOwnProcessing s w deadline = some s') : StartMove s w deadline s' := by
  unfold recoverOwnProcessing at h
  split at h
  case h_1 c hp =>
    split at h
    · rename_i halive
      split at h
      · rename_i hdeadline
        cases h; exact .refrain c hp halive hdeadline
      · cases h; exact .wait
    · rename_i halive
      cases h; exact .proceed c hp halive
  case h_2 c hp =>
    split at h
    case h_1 hlist => cases h; exact .nothing c hp hlist
    case h_2 hlist => cases h; exact .read c hp hlist
  case h_3 stranded c hp =>
    split at h
    · cases h
    · rename_i hfree
      cases h
      refine .reset c stranded hp fun r hr hrow => ?_
      by_contra hlocked
      exact hfree (List.any_eq_true.mpr ⟨r, hr, by simp [hrow, hlocked]⟩)
  case h_4 c hp =>
    cases hlast : KeyedList.last? s.redis.processing w with
    | none =>
        simp only [Redis.lmove, hlast, Option.map_none] at h
        cases h; exact .done c hp hlast
    | some id =>
        simp only [Redis.lmove, hlast, Option.map_some] at h
        cases h; exact .moved c id hp hlast
  case h_5 c hp => cases h; exact .beat c hp
  case h_6 => cases h

theorem spawn_cases {w : WorkerId} {c : Nat} (h : spawn s w c = some s') :
    (s.procs w = .fresh ∨ s.procs w = .gone) ∧ w ≠ [] ∧
      s' = s.setProc w (.starting .checkAlive c) := by
  unfold spawn at h
  split at h
  · rename_i hw
    split at h
    case h_1 hp => exact ⟨.inl hp, hw.1, by simpa using h.symm⟩
    case h_2 hp => exact ⟨.inr hp, hw.1, by simpa using h.symm⟩
    case h_3 => cases h
  · cases h

theorem beat_cases {w : WorkerId} (h : beat s w = some s') :
    (s.procs w).isRunning = true ∧ s' = s.withRedis (s.redis.beat w) := by
  unfold beat at h
  split at h
  · exact ⟨‹_›, by simpa using h.symm⟩
  · cases h

theorem expire_cases {w : WorkerId} (h : expire s w = some s') :
    s' = s.withRedis (s.redis.expire w) := by
  unfold expire at h
  split at h
  · simpa using h.symm
  · cases h

theorem take_cases {w : WorkerId} (h : take s w = some s') :
    ∃ c rest id, s.procs w = .running c ∧ s.redis.pending = rest ++ [id] ∧
      s' = (s.withRedis { s.redis with
        pending := rest,
        processing := KeyedList.pushLeft s.redis.processing w id }).addExec
          ⟨w, id, if isUuid id then .select else .discard⟩ := by
  unfold take at h
  split at h
  case h_1 c hp =>
    split at h
    · obtain ⟨⟨id, redis⟩, hmove, rfl⟩ := Option.map_eq_some_iff.mp h
      obtain ⟨last, hlast, heq⟩ := Option.map_eq_some_iff.mp hmove
      cases heq
      exact ⟨c, _, id, hp, (List.dropLast_append_getLast? id hlast).symm, rfl⟩
    · cases h
  case h_2 => cases h

theorem kill_cases {w : WorkerId} (h : kill s w = some s') :
    s' = (s.setProc w .gone).dropExecs w := by
  unfold kill at h
  split at h
  · simpa using h.symm
  · cases h

end QueueFlow
