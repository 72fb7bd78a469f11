-- SUMMARY: recoverOwnProcessing and reapWorker, each run alone on one list: what each leaves behind, and exactly when they agree.
import QueueFlow.Script
import QueueFlow.Worker.Moves
import QueueFlow.Scheduler.Moves

/-!
# The two recovery paths

Both programs are deterministic when nothing else runs, and both come to an end.
Their results are given in closed form: what becomes of a row (`JobRow.reaped`,
`JobRow.requeued`) and which ids reach `pending`. The comparison is then about
rows and ids only.
-/

namespace QueueFlow

open Transition

/-! ## Alone -/

/-- The process is inside `recoverOwnProcessing`. -/
def Proc.isRecovering : Proc → Bool
  | .starting .firstBeat _ => false
  | .starting _ _ => true
  | _ => false

/-- Only `recoverOwnProcessing` of `w` moves. -/
def SelfAlone (w : WorkerId) (s : State) (a : Act) : Prop :=
  (s.procs w).isRecovering = true ∧ a = .recoverOwn w false

/-- Only `reapWorker` on the list of `w` moves. -/
def ReaperAlone (w : WorkerId) (s : State) (a : Act) : Prop :=
  ∃ σ, s.scheds = [σ] ∧ σ.reaping = some w ∧ a = .sched σ .next

theorem selfAlone_deterministic (w : WorkerId) (s : State) (a b : Act) (ha : SelfAlone w s a)
    (hb : SelfAlone w s b) : a = b := ha.2.trans hb.2.symm

theorem reaperAlone_deterministic (w : WorkerId) (s : State) (a b : Act)
    (ha : ReaperAlone w s a) (hb : ReaperAlone w s b) : a = b := by
  obtain ⟨σ, hσ, -, rfl⟩ := ha
  obtain ⟨τ, hτ, -, rfl⟩ := hb
  rw [hσ] at hτ
  cases hτ
  rfl

/-! ## What is compared -/

/-- Some entry that passes the test of the queue names the job. -/
def mentions (ids : List Text) (job : Uuid) : Bool :=
  ids.any fun id => isUuid id && uuidIn id = some job

/-- The row can be claimed: 'queued' or 'retrying', with the id in `pending`. -/
def State.claimableNow (s : State) (job : Uuid) : Prop :=
  mentions s.redis.pending job = true ∧ ∃ r, s.db.row job = some r ∧ r.status.claimable = true

def State.isDead (s : State) (job : Uuid) : Prop :=
  ∃ r, s.db.row job = some r ∧ r.status = .dead

/-- The same dead jobs, the same delayed set and the same claimable jobs. -/
structure Agree (s t : State) : Prop where
  dead : ∀ job, s.isDead job ↔ t.isDead job
  delayed : s.redis.delayed = t.redis.delayed
  claimable : ∀ job, s.claimableNow job ↔ t.claimableNow job

/-! ## What becomes of a row -/

/-- `reapWorker` acts on the row. -/
def JobRow.active (r : JobRow) : Bool := !r.status.terminal && r.status ≠ .retrying

def JobRow.exhausted (r : JobRow) : Bool := r.maxAttempts ≤ r.attempts

/-- `reapWorker` puts the job back into `pending`. -/
def JobRow.rescuable (r : JobRow) : Bool := r.active && !r.exhausted

/-- What `reapWorker` makes of a row that an entry names. -/
def JobRow.reaped (w : WorkerId) (now : Nat) (r : JobRow) : JobRow :=
  if r.active then
    if r.exhausted then r.buried (stoppedResponding w) now else r.requeued
  else r

/-- What `recoverOwnProcessing` makes of a row that an entry names. -/
def JobRow.reset (r : JobRow) : JobRow := if r.status = .running then r.requeued else r

theorem JobRow.rescuable_reaped (w : WorkerId) (now : Nat) (r : JobRow) :
    (r.reaped w now).rescuable = r.rescuable := by
  unfold JobRow.reaped
  split
  · rename_i hactive
    split
    · rename_i hexhausted
      simp [JobRow.rescuable, JobRow.active, JobRow.buried, JobStatus.terminal, hexhausted]
    · rename_i hexhausted
      have hsame : r.requeued.exhausted = r.exhausted := rfl
      have hqueued : r.requeued.active = true := rfl
      simp [JobRow.rescuable, hactive, hsame, hqueued]
  · rfl

/-- A row that was judged is judged alike again, at whatever time. -/
theorem JobRow.reaped_reaped (w : WorkerId) (now now' : Nat) (r : JobRow) :
    (r.reaped w now).reaped w now' = r.reaped w now := by
  by_cases hactive : r.active = true
  · by_cases hexhausted : r.exhausted = true
    · have hr : r.reaped w now = r.buried (stoppedResponding w) now := by
        simp [JobRow.reaped, hactive, hexhausted]
      have hdead : (r.buried (stoppedResponding w) now).active = false := rfl
      rw [hr, JobRow.reaped, if_neg (by simp [hdead])]
    · have hr : r.reaped w now = r.requeued := by simp [JobRow.reaped, hactive, hexhausted]
      have hqueued : r.requeued.active = true := rfl
      have hsame : r.requeued.exhausted = r.exhausted := rfl
      rw [hr, JobRow.reaped, if_pos hqueued, hsame, if_neg hexhausted]
      rfl
  · have hr : ∀ now, r.reaped w now = r := fun now => by simp [JobRow.reaped, hactive]
    rw [hr, hr]

theorem mentions_append {ids ids' : List Text} {job : Uuid} :
    mentions (ids ++ ids') job = (mentions ids job || mentions ids' job) := List.any_append

theorem mentions_reverse {ids : List Text} {job : Uuid} :
    mentions ids.reverse job = mentions ids job := List.any_reverse

theorem mentions_singleton {id : Text} {job : Uuid} :
    mentions [id] job = (isUuid id && uuidIn id = some job) := by
  simp [mentions]

/-! ## `recoverOwnProcessing` -/

variable {cfg : Config} {w : WorkerId} {s : State} {c : Nat}

private theorem self_single {s' : State} (hp : (s.procs w).isRecovering = true)
    (h : recoverOwnProcessing s w false = some s') : Run (step cfg) (SelfAlone w) s s' :=
  .single ⟨hp, rfl⟩ h

/-- At the first heartbeat `recoverOwnProcessing` is over. -/
theorem self_ended (hp : s.procs w = .starting .firstBeat c) :
    Completes (step cfg) (SelfAlone w) s s where
  run := .refl
  ended a ha := by
    rw [SelfAlone, hp] at ha
    cases ha.1

/-- The `LMOVE` loop moves the whole list, tail first. -/
theorem self_moveAll (n : Nat) (hp : s.procs w = .starting .moveAll c)
    (hn : (s.redis.lrange w).length = n) :
    ∃ t, Completes (step cfg) (SelfAlone w) s t ∧ t.db = s.db ∧
      t.redis.delayed = s.redis.delayed ∧
      t.redis.pending = s.redis.pending ++ (s.redis.lrange w).reverse := by
  induction n generalizing s with
  | zero =>
      have hnil : s.redis.lrange w = [] := List.eq_nil_of_length_eq_zero hn
      have hlast : KeyedList.last? s.redis.processing w = none := KeyedList.last?_eq_none.mpr hnil
      refine ⟨s.setProc w (.starting .firstBeat c), ?_, rfl, rfl, by simp [hnil]⟩
      refine .of_run (self_single (by rw [hp]; rfl) ?_) (self_ended (c := c) (by simp))
      simp [recoverOwnProcessing, hp, Redis.lmove, hlast]
  | succ n ih =>
      obtain ⟨id, hlast⟩ : ∃ id, KeyedList.last? s.redis.processing w = some id := by
        cases hlast : KeyedList.last? s.redis.processing w with
        | some id => exact ⟨id, rfl⟩
        | none =>
            rw [show s.redis.lrange w = [] from KeyedList.last?_eq_none.mp hlast] at hn
            cases hn
      have hsplit := KeyedList.get_removeRight_last hlast
      let s₁ := s.withRedis
        { s.redis with pending := s.redis.pending ++ [id],
                       processing := KeyedList.removeRight s.redis.processing w id }
      have hlist : s.redis.lrange w = s₁.redis.lrange w ++ [id] := hsplit
      have hstep : Run (step cfg) (SelfAlone w) s s₁ :=
        self_single (by rw [hp]; rfl) (by simp [recoverOwnProcessing, hp, Redis.lmove, hlast, s₁])
      obtain ⟨t, hrun, hdb, hdelayed, hpending⟩ := ih (s := s₁) hp
        (by rw [hlist, List.length_append, List.length_singleton] at hn; omega)
      refine ⟨t, .of_run hstep hrun, hdb, hdelayed, ?_⟩
      rw [hpending, hlist, List.reverse_append, List.reverse_singleton]
      simp [s₁]

/-- The entries that `recoverOwnProcessing` puts back into `pending`, the oldest first. -/
def State.recovered (s : State) (w : WorkerId) : List Text :=
  if (s.redis.lrange w).filter isUuid = [] then [] else (s.redis.lrange w).reverse

theorem mentions_recovered {job : Uuid} :
    mentions (s.recovered w) job = mentions (s.redis.lrange w) job := by
  unfold State.recovered
  split
  · rename_i hnil
    have hnone : mentions (s.redis.lrange w) job = false := List.any_eq_false.mpr fun id hid => by
      simp [List.filter_eq_nil_iff.mp hnil id hid]
    exact hnone.symm
  · exact mentions_reverse

/-- What `recoverOwnProcessing` leaves behind when it runs alone. -/
theorem self_completes (hp : s.procs w = .starting .checkAlive c) (halive : w ∉ s.redis.alive)
    (hfree : ∀ job, s.locked job = false) :
    ∃ t, Completes (step cfg) (SelfAlone w) s t ∧ t.redis.delayed = s.redis.delayed ∧
      (∀ job, t.db.row job = (s.db.row job).map fun r =>
        if mentions (s.redis.lrange w) job then r.reset else r) ∧
      t.redis.pending = s.redis.pending ++ s.recovered w := by
  let s₁ := s.setProc w (.starting .readList c)
  have h₁ : Run (step cfg) (SelfAlone w) s s₁ :=
    self_single (by rw [hp]; rfl) (by simp [recoverOwnProcessing, hp, halive, s₁])
  have hp₁ : s₁.procs w = .starting .readList c := by simp [s₁]
  cases hstranded : (s.redis.lrange w).filter isUuid with
  | nil =>
      have hback : s.recovered w = [] := if_pos hstranded
      have hnone : ∀ job, mentions (s.redis.lrange w) job = false := fun job => by
        rw [← mentions_recovered, hback]
        rfl
      refine ⟨s₁.setProc w (.starting .firstBeat c), .of_run (h₁.trans (self_single ?_ ?_))
        (self_ended (c := c) (by simp)), rfl, ?_, ?_⟩
      · rw [hp₁]; rfl
      · have hfilter : (s₁.redis.lrange w).filter isUuid = [] := hstranded
        simp only [recoverOwnProcessing, hp₁, hfilter]
      · intro job
        simp [hnone, s₁]
      · simp [hback, s₁]
  | cons id ids =>
      let s₂ := s₁.setProc w (.starting (.reset (id :: ids)) c)
      have h₂ : Run (step cfg) (SelfAlone w) s₁ s₂ := by
        refine self_single (by rw [hp₁]; rfl) ?_
        have hfilter : (s₁.redis.lrange w).filter isUuid = id :: ids := hstranded
        simp only [recoverOwnProcessing, hp₁, hfilter, s₂]
      have hp₂ : s₂.procs w = .starting (.reset (id :: ids)) c := by simp [s₂]
      let s₃ := (s₂.withDb (s₂.db.update (strandedRow (id :: ids)) .requeued)).setProc w
        (.starting .moveAll c)
      have h₃ : Run (step cfg) (SelfAlone w) s₂ s₃ := by
        refine self_single (by rw [hp₂]; rfl) ?_
        have hfree₂ : ∀ job, s₂.locked job = false := hfree
        simp [recoverOwnProcessing, hp₂, hfree₂, s₃]
      obtain ⟨t, hrun, hdb, hdelayed, hpending⟩ :=
        @self_moveAll cfg w s₃ c _ (by simp [s₃]) rfl
      refine ⟨t, .of_run (h₁.trans (h₂.trans h₃)) hrun, hdelayed, ?_, ?_⟩
      · intro job
        rw [hdb]
        change (s.db.update (strandedRow (id :: ids)) .requeued).row job = _
        rw [Db.row_update Db.keepsId_requeued]
        cases hrow : s.db.row job with
        | none => rfl
        | some r =>
            have hid : r.id = job := Db.id_of_row hrow
            have hany : (id :: ids).any (fun t => uuidIn t = some r.id) =
                mentions (s.redis.lrange w) job := by
              rw [← hstranded, List.any_filter, hid]
              rfl
            simp only [Option.map_some, strandedRow, hany, JobRow.reset, Bool.and_eq_true,
              decide_eq_true_eq]
            cases mentions (s.redis.lrange w) job <;> simp
      · rw [hpending, State.recovered, hstranded, if_neg (List.cons_ne_nil _ _)]
        rfl

/-! ## `reapWorker` -/

variable {keys : List WorkerId}

/-- The scheduler is alone and is at `σ`. -/
def State.atPoint (s : State) (σ : Sched) : State := { s with scheds := [σ] }

theorem setSched_single {σ σ' : Sched} (hσ : s.scheds = [σ]) :
    s.setSched σ σ' = s.atPoint σ' := by
  simp [State.setSched, State.atPoint, hσ, Bag.swap]

/-- A command of the only scheduler, inside `reapWorker`. -/
private theorem reaper_single {σ : Sched} {s' : State} (hσ : s.scheds = [σ])
    (hreap : σ.reaping = some w) (h : schedule cfg s σ .next = some s') :
    Run (step cfg) (ReaperAlone w) s s' :=
  .single ⟨σ, hσ, hreap, rfl⟩ (by simp [step, hσ, h])

/-- `LREM` of the tail entry, then back to the peek. -/
private theorem reaper_drop {id : Text} (hσ : s.scheds = [.reapDrop w id keys]) :
    Run (step cfg) (ReaperAlone w) s
      ((s.withRedis (s.redis.lremTail w id)).atPoint (.reapPeek w keys)) := by
  refine reaper_single hσ rfl ?_
  simp only [schedule, reapDead]
  exact congrArg some (setSched_single hσ)

/-- What one iteration of `reapWorker` over the entry `id` makes of the state. -/
structure Iterated (w : WorkerId) (keys : List WorkerId) (id : Text) (s t : State) : Prop where
  scheds : t.scheds = [.reapPeek w keys]
  execs : t.execs = s.execs
  now : t.now = s.now
  list : s.redis.lrange w = t.redis.lrange w ++ [id]
  delayed : t.redis.delayed = s.redis.delayed
  row : ∀ job, t.db.row job = (s.db.row job).map fun r =>
    if mentions [id] job then r.reaped w s.now else r
  pending : ∀ job, mentions t.redis.pending job =
    (mentions s.redis.pending job || mentions [id] job && (s.db.row job).any (·.rescuable))

private theorem mentions_of_uuidIn {id : Text} {job job' : Uuid} (huuid : isUuid id = true)
    (hid : uuidIn id = some job) : mentions [id] job' = true ↔ job' = job := by
  rw [mentions_singleton, huuid, hid]
  simp [eq_comm]

/-- An entry that is dropped while the row it names, if any, is left as it is. -/
private theorem iterated_drop {id : Text} {s₀ : State} (hexecs : s₀.execs = s.execs)
    (hnow : s₀.now = s.now) (hredis : s₀.redis = s.redis)
    (hlast : KeyedList.last? s.redis.processing w = some id)
    (hrow : ∀ job, s₀.db.row job = (s.db.row job).map fun r =>
      if mentions [id] job then r.reaped w s.now else r)
    (hstale : ∀ job r, mentions [id] job = true → s.db.row job = some r → r.rescuable = false) :
    Iterated w keys id s ((s₀.withRedis (s₀.redis.lremTail w id)).atPoint (.reapPeek w keys)) where
  scheds := rfl
  execs := hexecs
  now := hnow
  list := by
    have := KeyedList.get_removeRight_last hlast
    simpa [State.atPoint, hredis, Redis.lrange, Redis.lremTail] using this
  delayed := by simp [State.atPoint, hredis, Redis.lremTail]
  row := hrow
  pending job := by
    have hno : (mentions [id] job && (s.db.row job).any (·.rescuable)) = false := by
      cases hm : mentions [id] job with
      | false => rfl
      | true =>
          cases hr : s.db.row job with
          | none => rfl
          | some r => simp [hstale job r hm hr]
    simp [State.atPoint, hredis, Redis.lremTail, hno]

/-- The row of the job that an entry names, after an UPDATE of that row. -/
private theorem row_written {id : Text} {job : Uuid} {r : JobRow} {set : JobRow → JobRow}
    (hset : Db.KeepsId set) (huuid : isUuid id = true) (hid : uuidIn id = some job)
    (hrow : s.db.row job = some r) (hr : r.reaped w s.now = set r) (job' : Uuid) :
    (s.db.updateRow job set).row job' = (s.db.row job').map fun r =>
      if mentions [id] job' then r.reaped w s.now else r := by
  rw [Db.row_updateRow hset]
  by_cases heq : job' = job
  · subst heq
    have hm : mentions [id] job' = true := (mentions_of_uuidIn huuid hid).mpr rfl
    simp [hrow, hm, hr]
  · have hm : mentions [id] job' = false := by
      rw [← Bool.not_eq_true, mentions_of_uuidIn huuid hid]
      exact heq
    simp [heq, hm]

/-- One iteration of `reapWorker`. -/
theorem reaper_iterates {id : Text} (hσ : s.scheds = [.reapPeek w keys]) (hexecs : s.execs = [])
    (hlast : KeyedList.last? s.redis.processing w = some id) :
    ∃ t, Run (step cfg) (ReaperAlone w) s t ∧ Iterated w keys id s t := by
  have hfree : ∀ job, s.locked job = false := fun job => by simp [State.locked, hexecs]
  have hunread : (∀ job r, mentions [id] job = true → s.db.row job = some r → r.active = false) →
      ∀ job, s.db.row job = (s.db.row job).map fun r =>
        if mentions [id] job then r.reaped w s.now else r := by
    intro hstale job
    cases hr : s.db.row job with
    | none => rfl
    | some r =>
        cases hm : mentions [id] job with
        | false => simp
        | true => simp [JobRow.reaped, hstale job r hm hr]
  cases huuid : isUuid id with
  | false =>
      -- A malformed entry is dropped.
      have hm : ∀ job, mentions [id] job = false := fun job => by
        rw [mentions_singleton, huuid, Bool.false_and]
      have hpeek : Run (step cfg) (ReaperAlone w) s (s.atPoint (.reapDrop w id keys)) := by
        refine reaper_single hσ rfl ?_
        simp [schedule, reapDead, hlast, huuid, setSched_single hσ]
      exact ⟨_, hpeek.trans (reaper_drop rfl), iterated_drop rfl rfl rfl hlast
        (hunread fun job r h => by rw [hm] at h; cases h) fun job r h => by rw [hm] at h; cases h⟩
  | true =>
      obtain ⟨job, hid⟩ := uuidIn_of_isUuid huuid
      have hpeek : Run (step cfg) (ReaperAlone w) s (s.atPoint (.reapSelect w id keys)) := by
        refine reaper_single hσ rfl ?_
        simp [schedule, reapDead, hlast, huuid, setSched_single hσ]
      have hselect : Run (step cfg) (ReaperAlone w) (s.atPoint (.reapSelect w id keys))
          (s.atPoint (judge w id keys (s.db.row job))) := by
        refine reaper_single rfl rfl ?_
        simp only [schedule, reapDead, hid]
        exact congrArg some (setSched_single rfl)
      have hrun := hpeek.trans hselect
      rcases judge_cases w id keys (s.db.row job) with
        ⟨hjudge, hstale⟩ | ⟨r, hrow, hterminal, hretrying, hverdict⟩
      · -- No row, or one whose outcome is recorded: the entry is dropped.
        have hinactive : ∀ job' r, mentions [id] job' = true → s.db.row job' = some r →
            r.active = false := by
          intro job' r hm hr
          obtain rfl := (mentions_of_uuidIn huuid hid).mp hm
          rcases hstale r hr with h | h <;> simp [JobRow.active, h]
        rw [hjudge] at hrun
        exact ⟨_, hrun.trans (reaper_drop rfl), iterated_drop rfl rfl rfl hlast (hunread hinactive)
          fun job' r hm hr => by simp [JobRow.rescuable, hinactive job' r hm hr]⟩
      · have hactive : r.active = true := by simp [JobRow.active, hterminal, hretrying]
        rcases hverdict with ⟨hjudge, hbudget⟩ | ⟨hjudge, hbudget⟩
        · -- The attempts are used up: the row is buried and the entry dropped.
          have hexhausted : r.exhausted = true := by simpa [JobRow.exhausted] using hbudget
          have hr : r.reaped w s.now = r.buried (stoppedResponding w) s.now := by
            simp [JobRow.reaped, hactive, hexhausted]
          have hbury : Run (step cfg) (ReaperAlone w) (s.atPoint (.reapBury w id keys))
              ((s.write job (.buried (stoppedResponding w) s.now)).atPoint
                (.reapDrop w id keys)) := by
            refine reaper_single rfl rfl ?_
            have hfree' : (s.atPoint (.reapBury w id keys)).locked job = false := hfree job
            simp only [schedule, reapDead, hid, hfree']
            exact congrArg some (setSched_single rfl)
          rw [hjudge] at hrun
          refine ⟨_, hrun.trans (hbury.trans (reaper_drop rfl)), iterated_drop rfl rfl rfl hlast
            (row_written (Db.keepsId_buried _ _) huuid hid hrow hr) fun job' r' hm hr' => ?_⟩
          obtain rfl := (mentions_of_uuidIn huuid hid).mp hm
          rw [hrow] at hr'
          cases hr'
          simp [JobRow.rescuable, hexhausted]
        · -- The row is set to 'queued' and the entry moved.
          have hexhausted : r.exhausted = false := by
            simpa [JobRow.exhausted] using hbudget
          have hr : r.reaped w s.now = r.requeued := by
            simp [JobRow.reaped, hactive, hexhausted]
          have hrequeue : Run (step cfg) (ReaperAlone w) (s.atPoint (.reapRequeue w id keys))
              ((s.write job .requeued).atPoint (.reapMove w id keys)) := by
            refine reaper_single rfl rfl ?_
            have hfree' : (s.atPoint (.reapRequeue w id keys)).locked job = false := hfree job
            simp only [schedule, reapDead, hid, hfree']
            exact congrArg some (setSched_single rfl)
          have hmove : Run (step cfg) (ReaperAlone w)
              ((s.write job .requeued).atPoint (.reapMove w id keys))
              (((s.write job .requeued).withRedis
                { s.redis with
                  pending := s.redis.pending ++ [id],
                  processing := KeyedList.removeRight s.redis.processing w id }).atPoint
                    (.reapPeek w keys)) := by
            refine reaper_single rfl rfl ?_
            have hlmove : ((s.write job .requeued).atPoint (.reapMove w id keys)).redis.lmove w =
                some (id, { s.redis with
                  pending := s.redis.pending ++ [id],
                  processing := KeyedList.removeRight s.redis.processing w id }) := by
              simp [State.atPoint, Redis.lmove, hlast]
            simp only [schedule, reapDead, hlmove]
            exact congrArg some (setSched_single rfl)
          rw [hjudge] at hrun
          refine ⟨_, hrun.trans (hrequeue.trans hmove), rfl, rfl, rfl,
            KeyedList.get_removeRight_last hlast, rfl,
            row_written Db.keepsId_requeued huuid hid hrow hr, fun job' => ?_⟩
          change mentions (s.redis.pending ++ [id]) job' = _
          rw [mentions_append]
          cases hm : mentions [id] job' with
          | false => simp
          | true =>
              obtain rfl := (mentions_of_uuidIn huuid hid).mp hm
              simp [hrow, JobRow.rescuable, hactive, hexhausted]

/-- What `reapWorker` leaves behind when it runs alone. -/
theorem reaper_completes (n : Nat) (hσ : s.scheds = [.reapPeek w keys]) (hexecs : s.execs = [])
    (hn : (s.redis.lrange w).length = n) :
    ∃ t, Completes (step cfg) (ReaperAlone w) s t ∧ t.redis.delayed = s.redis.delayed ∧
      (∀ job, t.db.row job = (s.db.row job).map fun r =>
        if mentions (s.redis.lrange w) job then r.reaped w s.now else r) ∧
      ∀ job, mentions t.redis.pending job = (mentions s.redis.pending job ||
        mentions (s.redis.lrange w) job && (s.db.row job).any (·.rescuable)) := by
  induction n generalizing s with
  | zero =>
      have hnil : s.redis.lrange w = [] := List.eq_nil_of_length_eq_zero hn
      have hlast : KeyedList.last? s.redis.processing w = none := KeyedList.last?_eq_none.mpr hnil
      have hpeek : Run (step cfg) (ReaperAlone w) s (s.atPoint (.reapCheck keys)) := by
        refine reaper_single hσ rfl ?_
        simp [schedule, reapDead, hlast, setSched_single hσ]
      refine ⟨_, ⟨hpeek, ?_⟩, rfl, fun job => ?_, fun job => ?_⟩
      · rintro a ⟨σ, hσ', hreap, -⟩
        cases hσ'
        cases hreap
      · simp [State.atPoint, hnil, mentions]
      · simp [State.atPoint, hnil, mentions]
  | succ n ih =>
      obtain ⟨id, hlast⟩ : ∃ id, KeyedList.last? s.redis.processing w = some id := by
        cases hlast : KeyedList.last? s.redis.processing w with
        | some id => exact ⟨id, rfl⟩
        | none =>
            rw [show s.redis.lrange w = [] from KeyedList.last?_eq_none.mp hlast] at hn
            cases hn
      obtain ⟨s₁, hrun, it⟩ := @reaper_iterates cfg w s keys id hσ hexecs hlast
      have hlen : (s₁.redis.lrange w).length = n := by
        rw [it.list, List.length_append, List.length_singleton] at hn
        omega
      obtain ⟨t, hdone, hdelayed, hrow, hpending⟩ := ih it.scheds (it.execs.trans hexecs) hlen
      refine ⟨t, .of_run hrun hdone, hdelayed.trans it.delayed, fun job => ?_, fun job => ?_⟩
      · -- Judging a row twice is judging it once.
        rw [hrow, it.row, it.list, it.now, mentions_append]
        cases s.db.row job with
        | none => rfl
        | some r =>
            cases mentions (s₁.redis.lrange w) job <;> cases mentions [id] job <;>
              simp [JobRow.reaped_reaped]
      · rw [hpending, it.pending, it.row, it.list, mentions_append]
        cases s.db.row job with
        | none => simp
        | some r =>
            cases mentions (s₁.redis.lrange w) job <;> cases mentions [id] job <;>
              simp [JobRow.rescuable_reaped]

/-! ## The comparison -/

/-- No job named in the list has used up its attempts while `reapWorker` would still
act on it, and every 'retrying' one is named in `pending` as well. -/
def RecoversAlike (s : State) (w : WorkerId) : Prop :=
  ∀ job r, mentions (s.redis.lrange w) job = true → s.db.row job = some r →
    (r.active = true → r.exhausted = false) ∧
      (r.status = .retrying → mentions s.redis.pending job = true)

/-- Entry by entry. -/
theorem recoversAlike_iff {s : State} {w : WorkerId} : RecoversAlike s w ↔
    ∀ id ∈ s.redis.lrange w, isUuid id = true → ∀ job ∈ uuidIn id, ∀ r ∈ s.db.row job,
      (r.active = true → r.exhausted = false) ∧ (r.status = .retrying → mentions s.redis.pending job = true) := by
  constructor
  · intro h id hid huuid job hjob r hrow
    exact h job r (List.any_eq_true.mpr ⟨id, hid, (Bool.and_eq_true _ _).mpr ⟨huuid, decide_eq_true hjob⟩⟩) hrow
  · intro h job r hmem hrow
    obtain ⟨id, hid, hnames⟩ := List.any_eq_true.mp hmem
    obtain ⟨huuid, hjob⟩ := (Bool.and_eq_true _ _).mp hnames
    exact h id hid huuid job (of_decide_eq_true hjob) r hrow

instance (s : State) (w : WorkerId) : Decidable (RecoversAlike s w) := decidable_of_iff _ recoversAlike_iff.symm

/-- What is compared, row by row: a job named in the list is recovered alike. -/
private theorem row_alike (w : WorkerId) (now : Nat) (inPending : Bool) (r : JobRow) :
    ((r.reset.status = .dead ↔ (r.reaped w now).status = .dead) ∧
      (r.reset.status.claimable = true ↔
        (inPending || r.rescuable) = true ∧ (r.reaped w now).status.claimable = true)) ↔
      (r.active = true → r.exhausted = false) ∧ (r.status = .retrying → inPending = true) := by
  cases hs : r.status <;> cases he : r.exhausted <;> cases inPending <;>
    simp [JobRow.reset, JobRow.reaped, JobRow.rescuable, JobRow.active, JobStatus.terminal,
      JobRow.requeued, JobRow.buried, JobStatus.claimable, hs, he]

private theorem agree_iff {s s₁ s₂ : State} {w : WorkerId} {now : Nat}
    (hdelayed : s₁.redis.delayed = s₂.redis.delayed)
    (hrow₁ : ∀ job, s₁.db.row job = (s.db.row job).map fun r =>
      if mentions (s.redis.lrange w) job then r.reset else r)
    (hpending₁ : ∀ job, mentions s₁.redis.pending job =
      (mentions s.redis.pending job || mentions (s.redis.lrange w) job))
    (hrow₂ : ∀ job, s₂.db.row job = (s.db.row job).map fun r =>
      if mentions (s.redis.lrange w) job then r.reaped w now else r)
    (hpending₂ : ∀ job, mentions s₂.redis.pending job = (mentions s.redis.pending job ||
      mentions (s.redis.lrange w) job && (s.db.row job).any (·.rescuable))) :
    Agree s₁ s₂ ↔ RecoversAlike s w := by
  -- A job that the list does not name, or that has no row, is left alone by both.
  have hjob : ∀ job, ((s₁.isDead job ↔ s₂.isDead job) ∧
      (s₁.claimableNow job ↔ s₂.claimableNow job)) ↔
        ∀ r, mentions (s.redis.lrange w) job = true → s.db.row job = some r →
          (r.active = true → r.exhausted = false) ∧
            (r.status = .retrying → mentions s.redis.pending job = true) := by
    intro job
    simp only [State.isDead, State.claimableNow, hrow₁, hpending₁, hrow₂, hpending₂]
    cases hr : s.db.row job with
    | none => simp
    | some r =>
        cases hm : mentions (s.redis.lrange w) job with
        | false => simp
        | true => simpa using row_alike w now (mentions s.redis.pending job) r
  constructor
  · intro hagree job r hm hr
    exact (hjob job).mp ⟨hagree.dead job, hagree.claimable job⟩ r hm hr
  · intro halike
    have hall := fun job => (hjob job).mpr (halike job)
    exact ⟨fun job => (hall job).1, hdelayed, fun job => (hall job).2⟩

/-- Both recovery paths, each run alone from one state, come to an end, and what they
leave agrees exactly when the entries of the list are recovered alike. -/
theorem recoveries_agree_iff {cfg : Config} {s : State} {w : WorkerId} {c : Nat}
    {keys : List WorkerId} (hp : s.procs w = .starting .checkAlive c)
    (halive : w ∉ s.redis.alive) (hexecs : s.execs = [])
    (hscheds : s.scheds = [.reapPeek w keys]) :
    (∃ s₁, Completes (step cfg) (SelfAlone w) s s₁) ∧
      (∃ s₂, Completes (step cfg) (ReaperAlone w) s s₂) ∧
      ∀ s₁ s₂, Completes (step cfg) (SelfAlone w) s s₁ →
        Completes (step cfg) (ReaperAlone w) s s₂ → (Agree s₁ s₂ ↔ RecoversAlike s w) := by
  obtain ⟨t₁, h₁, hdelayed₁, hrow₁, hpending₁⟩ := @self_completes cfg w s c hp halive
    fun job => by simp [State.locked, hexecs]
  obtain ⟨t₂, h₂, hdelayed₂, hrow₂, hpending₂⟩ :=
    @reaper_completes cfg w s keys _ hscheds hexecs rfl
  refine ⟨⟨t₁, h₁⟩, ⟨t₂, h₂⟩, fun s₁ s₂ h₁' h₂' => ?_⟩
  obtain rfl := h₁.unique (selfAlone_deterministic w) h₁'
  obtain rfl := h₂.unique (reaperAlone_deterministic w) h₂'
  have hmentions₁ : ∀ job, mentions t₁.redis.pending job =
      (mentions s.redis.pending job || mentions (s.redis.lrange w) job) := fun job => by
    rw [hpending₁, mentions_append, mentions_recovered]
  exact agree_iff (hdelayed₁.trans hdelayed₂.symm) hrow₁ hmentions₁ hrow₂ hpending₂

namespace Script

/-- Worker `a` is gone, with one entry in its list, while the row of that job has this
status and attempt count; one process is starting under its id, and one scheduler
has found it dead. -/
def leftBehind (status : JobStatus) (attempts : Nat) (delayed : List (Text × Nat)) : State where
  db := ⟨[{ JobRow.inserted (job 1) none 0 with status, attempts }], [], 1⟩
  redis := ⟨[], [(['a'], uuidOut (job 1))], delayed, []⟩
  now := 0
  procs := fun _ => .starting .checkAlive 5
  execs := []
  scheds := [.reapPeek ['a'] []]
  apis := []
  claims := []
  responses := []

/-- Here the list of worker `a` has four entries, the oldest last: a job that it was running, one that
has succeeded, a text that names none, and a 'retrying' job that waits in `pending` as well. -/
def leftMixed : State :=
  { leftBehind .running 1 [] with
    db := ⟨[{ JobRow.inserted (job 1) none 0 with status := .running, attempts := 1 },
      { JobRow.inserted (job 2) none 0 with status := .succeeded, attempts := 1 },
      { JobRow.inserted (job 3) none 0 with status := .retrying, attempts := 1 }], [], 1⟩
    redis := ⟨[uuidOut (job 3)], [(['a'], uuidOut (job 3)), (['a'], "junk".toList), (['a'], uuidOut (job 2)),
      (['a'], uuidOut (job 1))], [], []⟩ }

end Script

open Script in
/-- Both paths leave the same jobs of a list with entries of every kind. -/
theorem recoveries_agree_iff_running : ∃ s₁ s₂,
    Completes (step defaults) (SelfAlone ['a']) leftMixed s₁ ∧
      Completes (step defaults) (ReaperAlone ['a']) leftMixed s₂ ∧ Agree s₁ s₂ := by
  obtain ⟨⟨s₁, h₁⟩, ⟨s₂, h₂⟩, hiff⟩ :=
    @recoveries_agree_iff defaults leftMixed ['a'] 5 [] rfl (by decide) rfl rfl
  exact ⟨s₁, s₂, h₁, h₂, (hiff s₁ s₂ h₁ h₂).mpr (by decide +kernel)⟩

open Script in
/-- A worker died between its `ZADD` and its `LREM`. Its restarted process moves the
parked job to `pending`, ahead of its backoff; the reaper drops the entry. -/
theorem recoveries_disagree_on_parked :
    ∃ s₁ s₂, Completes (step defaults) (SelfAlone ['a'])
        (leftBehind .retrying 1 [(uuidOut (job 1), 2000)]) s₁ ∧
      Completes (step defaults) (ReaperAlone ['a'])
        (leftBehind .retrying 1 [(uuidOut (job 1), 2000)]) s₂ ∧
      ¬ Agree s₁ s₂ := by
  obtain ⟨t₁, h₁, -, hrow₁, hpending₁⟩ := @self_completes defaults ['a']
    (leftBehind .retrying 1 [(uuidOut (job 1), 2000)]) 5 rfl (by decide) fun _ => rfl
  obtain ⟨t₂, h₂, -, hrow₂, hpending₂⟩ := @reaper_completes defaults ['a']
    (leftBehind .retrying 1 [(uuidOut (job 1), 2000)]) [] _ rfl rfl rfl
  refine ⟨t₁, t₂, h₁, h₂, fun hagree => ?_⟩
  have hclaimable : t₁.claimableNow (job 1) := by
    refine ⟨by rw [hpending₁]; decide, _, by rw [hrow₁]; rfl, ?_⟩
    decide
  obtain ⟨hm, -⟩ := (hagree.claimable (job 1)).mp hclaimable
  rw [hpending₂] at hm
  exact absurd hm (by decide)

open Script in
/-- A worker died while it ran the last attempt. The reaper buries the job; the
restarted process gives it one attempt more. -/
theorem recoveries_disagree_on_exhausted :
    ∃ s₁ s₂, Completes (step defaults) (SelfAlone ['a']) (leftBehind .running 5 []) s₁ ∧
      Completes (step defaults) (ReaperAlone ['a']) (leftBehind .running 5 []) s₂ ∧
      ¬ Agree s₁ s₂ := by
  obtain ⟨t₁, h₁, -, hrow₁, -⟩ := @self_completes defaults ['a'] (leftBehind .running 5 []) 5 rfl
    (by decide) fun _ => rfl
  obtain ⟨t₂, h₂, -, hrow₂, -⟩ := @reaper_completes defaults ['a'] (leftBehind .running 5 []) [] _
    rfl rfl rfl
  refine ⟨t₁, t₂, h₁, h₂, fun hagree => ?_⟩
  have hdead : t₂.isDead (job 1) := ⟨_, by rw [hrow₂]; rfl, by decide⟩
  obtain ⟨r, hr, hstatus⟩ := (hagree.dead (job 1)).mpr hdead
  rw [hrow₁] at hr
  cases hr
  exact absurd hstatus (by decide)

end QueueFlow
