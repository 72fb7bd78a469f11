-- SUMMARY: No job is lost when workers die or when the scheduler dies, and the two windows in which one is.
import QueueFlow.Recovery.Custody
import QueueFlow.Recovery.Fresh
import QueueFlow.Recovery.Retry
import QueueFlow.Script

/-!
# Lost jobs

A job is recoverable while some part of the system will come across its id. Two
windows break this. A worker that dies between the park of a job and its `ZADD`
leaves a row that says 'retrying' and an entry in its list, which the reaper drops
because of what the row says. A scheduler that dies between `ZREM` and the UPDATE
leaves the id nowhere. Outside these windows no job is lost, whichever process dies
and whenever.
-/

namespace QueueFlow

open Transition

/-! ## Recoverable jobs -/

namespace State

/-- The id is in the pending list, in a processing list or in the delayed set. -/
def Held (s : State) (job : Uuid) : Prop :=
  (∃ id ∈ s.redis.pending, Names id job) ∨ (∃ k ∈ s.redis.processing, Names k.2 job) ∨
    s.redis.isDelayed (uuidOut job) = true

/-- Some part of the system will come across the id; the orphan sweep reads the rows. -/
def Recoverable (s : State) (job : Uuid) : Prop :=
  s.Held job ∨ ∃ r ∈ s.db.row job, r.status = .queued

/-- A scheduler is between its `ZREM` and its UPDATE of the row. -/
def Promoting (s : State) (job : Uuid) : Prop :=
  ∃ σ ∈ s.scheds, σ.promotes = some (uuidOut job)

instance (s : State) (job : Uuid) : Decidable (s.Held job) :=
  inferInstanceAs (Decidable (_ ∨ _ ∨ _))

instance (s : State) (job : Uuid) : Decidable (s.Recoverable job) :=
  inferInstanceAs (Decidable (_ ∨ _))

/-- Every job that still has work to do is recoverable. -/
def AllRecoverable (s : State) : Prop :=
  ∀ job r, s.db.row job = some r → r.status.terminal = false → s.Recoverable job

/-- Every job with a recorded retry is in the delayed set. -/
def RetriesDelayed (s : State) : Prop :=
  ∀ job r, s.db.row job = some r → r.status = .retrying → s.redis.isDelayed (uuidOut job) = true

end State

section

variable {cfg : Config} {s s' : State} {a : Act} {job : Uuid} {r : JobRow}

/-- A recorded retry that has not been forgotten is held, or being promoted. -/
theorem held_or_promoting (lease : LeaseWf cfg s) (world : WorldWf s)
    (h : s.Scheduled job ∨ s.Offered job ∨ ∃ k, Names k.2 job ∧ s.Spare k) :
    s.Held job ∨ s.Promoting job := by
  have hentry {k : WorkerId × Text} (hk : k ∈ s.redis.processing) (hnames : Names k.2 job) :
      s.Held job ∨ s.Promoting job := .inl (.inr (.inl ⟨k, hk, hnames⟩))
  rcases h with (hdelayed | hpromoting | ⟨e, he, hparks⟩) |
    (⟨id, hid, hnames⟩ | ⟨e, he, hphase, hjob⟩) | ⟨k, hnames, hspare⟩
  · exact .inl (.inr (.inr hdelayed))
  · exact .inr hpromoting
  · exact hentry (world.entry_mem he) (names_of_parks lease world he hparks)
  · exact .inl (.inl ⟨id, hid, hnames⟩)
  · exact hentry (world.entry_mem he) ⟨world.accepted e he (by rw [hphase]; nofun), hjob⟩
  · exact hentry hspare.mem hnames

/-- In a steady world a job is recoverable, or being promoted, as soon as its recorded
retry has not been forgotten. -/
theorem recoverable_or_promoting (lease : LeaseWf cfg s) (world : WorldWf s) (custody : CustodyWf s)
    (hrow : s.db.row job = some r) (hterm : r.status.terminal = false)
    (hretry : r.status = .retrying →
      s.Scheduled job ∨ s.Offered job ∨ ∃ k, Names k.2 job ∧ s.Spare k) :
    s.Recoverable job ∨ s.Promoting job := by
  cases hstatus : r.status with
  | queued => exact .inl (.inr ⟨r, hrow, hstatus⟩)
  | running =>
      obtain ⟨k, hk, hnames⟩ := custody.entry lease world hrow hstatus
      exact .inl (.inl (.inr (.inl ⟨k, hk, hnames⟩)))
  | retrying => exact (held_or_promoting lease world (hretry hstatus)).imp_left .inl
  | succeeded | failed | dead => rw [hstatus] at hterm; cases hterm

/-! ## When workers die -/

/-- A spare entry of the job is in a list, and the reaper is not about to release it. -/
def State.LeftBehind (s : State) (job : Uuid) : Prop :=
  ∃ k, Names k.2 job ∧ s.Spare k ∧ ∀ σ ∈ s.scheds, σ.releasing ≠ some k

/-- Recorded retries are not forgotten: what is neither scheduled nor offered has an
entry that a recovery will find. -/
def RetryWf (s : State) : Prop :=
  ∀ job r, s.db.row job = some r → r.status = .retrying →
    s.Scheduled job ∨ s.Offered job ∨ s.LeftBehind job

/-- When `reapWorker` reads that a job is 'retrying', its retry is scheduled. -/
def ReadsScheduled (s : State) : Act → Prop
  | .sched (.reapSelect _ id _) _ =>
      ∀ job ∈ uuidIn id, ∀ r ∈ s.db.row job, r.status = .retrying → s.Scheduled job
  | _ => True

instance (s : State) (a : Act) : Decidable (ReadsScheduled s a) := by
  induction a using Act.casesOn with
  | sched σ =>
      induction σ using Sched.casesOn with
      | reapSelect => exact inferInstanceAs (Decidable (∀ _ ∈ uuidIn _, _))
      | _ => exact .isTrue trivial
  | _ => exact .isTrue trivial

/-- A scheduler that is killed is not between its `ZREM` and its UPDATE. -/
def SparesPromotion : Act → Prop
  | .schedKill σ => σ.promotes = none
  | _ => True

instance (a : Act) : Decidable (SparesPromotion a) := by
  induction a using Act.casesOn with
  | schedKill => exact inferInstanceAs (Decidable (_ = _))
  | _ => exact .isTrue trivial

/-- When `reapWorker` reads that a job is 'retrying', its retry is scheduled or offered. -/
def ReadsTraced (s : State) : Act → Prop
  | .sched (.reapSelect _ id _) _ => ∀ job ∈ uuidIn id, ∀ r ∈ s.db.row job, r.status = .retrying →
      s.Scheduled job ∨ s.Offered job
  | _ => True

instance (s : State) (a : Act) : Decidable (ReadsTraced s a) := by
  induction a using Act.casesOn with
  | sched σ =>
      induction σ using Sched.casesOn with
      | reapSelect => exact inferInstanceAs (Decidable (∀ _ ∈ uuidIn _, _))
      | _ => exact .isTrue trivial
  | _ => exact .isTrue trivial

theorem ReadsScheduled.traced (h : ReadsScheduled s a) : ReadsTraced s a := by
  cases a with
  | sched σ =>
      cases σ with
      | reapSelect => exact fun job hjob r hrow hretry => .inl (h job hjob r hrow hretry)
      | _ => trivial
  | _ => trivial

namespace RetryWf

theorem init : RetryWf .init := by
  intro job r h
  simp [State.init, Db.empty, Db.row] at h

/-- The reaper does not visit the list of a running worker. -/
private theorem not_releasing_of_running (world : WorldWf s) {e : Exec} (he : e ∈ s.execs) :
    ∀ σ ∈ s.scheds, σ.releasing ≠ some e.key := by
  intro σ hσ hk
  have hgone := world.reaped σ hσ _ (Sched.reaping_of_judging (Sched.judging_of_releasing hk))
  have hrun := world.hosted e he
  rw [hgone] at hrun
  cases hrun

theorem step (retry : RetryWf s) (lease : LeaseWf cfg s) (world : WorldWf s)
    (hkill : SparesPromotion a) (hreads : ReadsTraced s a) (h : step cfg s a = some s') :
    RetryWf s' := by
  intro job r hrow hretry
  have hkill : ∀ σ, a = .schedKill σ → σ.promotes = none := by
    rintro σ rfl
    exact hkill
  rcases retrying_of_step lease world h hkill hrow hretry with
    hsched | hoffered | ⟨e, he, ha, hnames, hspare⟩ | ⟨hold, hsched, hoffered⟩
  · exact .inl hsched
  · exact .inr (.inl hoffered)
  · -- The schedulers are where they were, and none is at a list of a running worker.
    refine .inr (.inr ⟨e.key, hnames, hspare, ?_⟩)
    have hscheds : s'.scheds = s.scheds := by
      rcases scheds_of_step h (by rcases ha with ha | rfl; · exact Act.sched?_of_exec? ha
                                  · rfl) with heq | ⟨rfl, -⟩
      · exact heq
      · rcases ha with ha | ha <;> cases ha
    rw [hscheds]
    exact not_releasing_of_running world he
  · obtain ⟨k, ⟨hid, hjob⟩, hspare, hfree⟩ :=
      ((retry job r hold hretry).resolve_left hsched).resolve_left hoffered
    by_cases hrec : a.recovers s = some k
    · rcases world.recovers_cases h hrec with ⟨-, hpending⟩ | ⟨σ, hσ, hk⟩
      · exact .inr (.inl (.inl ⟨k.2, hpending, hid, hjob⟩))
      · exact absurd hk (hfree σ hσ)
    · refine .inr (.inr ⟨k, ⟨hid, hjob⟩, spare_of_step h hspare hrec, fun σ hσ hk => ?_⟩)
      rcases releasing_of_step h hσ hk with hσ | hno | ⟨job', hjob', hread | hwritten⟩
      · exact hfree σ hσ hk
      · rw [hid] at hno
        cases hno
      all_goals
        obtain rfl : job = job' := Option.some.inj (hjob.symm.trans hjob')
      · -- The SELECT read 'retrying' of a job whose retry is neither scheduled nor offered.
        obtain ⟨keys, pick, rfl, -⟩ := hread
        exact (hreads job hjob r hold hretry).elim hsched hoffered
      · rcases hwritten r hrow with hr | hr <;> rw [hretry] at hr <;> cases hr

end RetryWf

/-- Workers die at any command and are replaced under fresh ids; the single scheduler does
not die, and reads 'retrying' only of jobs whose retry is scheduled. -/
def WorkersDie (s : State) (a : Act) : Prop :=
  FreshIds s a ∧ a.isSchedKill = false ∧ ReadsScheduled s a

instance (s : State) (a : Act) : Decidable (WorkersDie s a) :=
  inferInstanceAs (Decidable (_ ∧ _ ∧ _))

/-- No job is lost when workers die: in every state reached, every job that still has work
to do is recoverable, or the scheduler is just promoting it. -/
theorem recoverable_when_workers_die (hrun : Reaches cfg WorkersDie s)
    (hrow : s.db.row job = some r) (hterm : r.status.terminal = false) :
    s.Recoverable job ∨ s.Promoting job := by
  obtain ⟨lease, world, custody, -, retry⟩ :
      LeaseWf cfg s ∧ WorldWf s ∧ CustodyWf s ∧ FreshWf s ∧ RetryWf s := by
    refine hrun.invariant
      (P := fun s => LeaseWf cfg s ∧ WorldWf s ∧ CustodyWf s ∧ FreshWf s ∧ RetryWf s)
      ⟨LeaseWf.init, WorldWf.init, CustodyWf.init, FreshWf.init, RetryWf.init⟩ ?_
    rintro t a u ⟨lease, world, custody, fresh, retry⟩ ⟨hfresh, hkill, hreads⟩ h
    have hsteady := fresh.steady hfresh h
    have hspares : SparesPromotion a := by
      cases a with
      | schedKill σ => cases hkill
      | _ => trivial
    exact ⟨lease.step h, world.step hsteady h, custody.step lease world hsteady h,
      fresh.step hfresh h, retry.step lease world hspares hreads.traced h⟩
  refine recoverable_or_promoting lease world custody hrow hterm fun hretry => ?_
  exact (retry job r hrow hretry).imp_right fun h =>
    h.imp_right fun ⟨k, hnames, hspare, _⟩ => ⟨k, hnames, hspare⟩

end

open Script in
/-- A worker dies between its `ZADD` and its `LREM`; the reaper releases the entry and the
retry stays. -/
theorem recoverable_when_workers_die_parked :
    ∃ s, Reaches defaults WorkersDie s ∧ (s.db.row (job 1)).isSome = true ∧
      (s.Recoverable (job 1) ∨ s.Promoting (job 1)) := by
  have hrun : ∃ s, Reaches defaults WorkersDie s ∧
      (s.db.row (job 1)).any (fun r => !r.status.terminal) = true :=
    exists_run_of_play
      (start ['a'] ++ submit (job 1) ++ throws ['a'] 2 ++ dies ['a'] ++ [.act .startSched] ++
        reaps ['a'] 8)
      (by decide +kernel)
  obtain ⟨s, hs, hrow⟩ := hrun
  obtain ⟨r, hrow, hterm⟩ := (Option.any_eq_true _ _).mp hrow
  exact ⟨s, hs, by rw [hrow]; rfl, recoverable_when_workers_die hs hrow (by simpa using hterm)⟩

open Script in
/-- A worker dies between the park and the `ZADD`. The reaper reads 'retrying' and drops
the entry, so that the id is nowhere and no process has it. -/
theorem lost_between_park_and_zadd :
    ∃ s, Reaches defaults (fun s a => FreshIds s a ∧ a.isFault = a.isKill) s ∧
      (s.db.row (job 1)).any (·.status = .retrying) = true ∧ ¬ s.Recoverable (job 1) ∧
      s.execs = [] ∧ s.apis = [] ∧ s.scheds = [.idle] :=
  exists_run_of_play
    (start ['a'] ++ submit (job 1) ++ throws ['a'] 1 ++ dies ['a'] ++ [.act .startSched] ++
      reaps ['a'] 8)
    (by decide +kernel)

/-! ## When the scheduler dies -/

section

variable {cfg : Config} {s s' : State} {a : Act} {job : Uuid} {r : JobRow}

/-- A spare entry of the job is in the list of a worker that has not died. -/
def State.LeftWithLive (s : State) (job : Uuid) : Prop :=
  ∃ k, Names k.2 job ∧ s.Spare k ∧ s.procs k.1 ≠ .gone

/-- Workers go on or fail but none dies, and a scheduler dies at any point but between its
`ZREM` and its UPDATE. -/
def SchedulerDies (s : State) (a : Act) : Prop :=
  Steady s a ∧ a.isKill = false ∧ SparesPromotion a

instance (s : State) (a : Act) : Decidable (SchedulerDies s a) :=
  inferInstanceAs (Decidable (_ ∧ _ ∧ _))

/-- Without the death of a worker a recorded retry is forgotten by nobody. -/
private theorem retry_kept (lease : LeaseWf cfg s) (world : WorldWf s) (hok : SchedulerDies s a)
    (h : step cfg s a = some s')
    (hold : s.db.row job = some r → s.Scheduled job ∨ s.Offered job ∨ s.LeftWithLive job)
    (hrow : s'.db.row job = some r) (hretry : r.status = .retrying) :
    s'.Scheduled job ∨ s'.Offered job ∨ s'.LeftWithLive job := by
  obtain ⟨-, hlive, hspares⟩ := hok
  have hkill : ∀ σ, a = .schedKill σ → σ.promotes = none := by
    rintro σ rfl
    exact hspares
  have hprocs {w : WorkerId} (hw : s.procs w ≠ .gone) : s'.procs w ≠ .gone := by
    rcases procs_of_step h with heq | ⟨w', c, rfl, -, heq⟩ | ⟨w', rfl, -⟩ | ⟨w', deadline, rfl, hmove⟩
    · rwa [heq]
    · rw [heq, Function.update_apply]
      split
      · nofun
      · exact hw
    · cases hlive
    · cases hmove with
      | wait | moved => exact hw
      | refrain | proceed | nothing | read | reset | done | beat =>
          rw [State.setProc_procs, Function.update_apply]
          split
          · nofun
          · exact hw
  rcases retrying_of_step lease world h hkill hrow hretry with
    hsched | hoffered | ⟨e, he, ha, hnames, hspare⟩ | ⟨hrow₀, hsched, hoffered⟩
  · exact .inl hsched
  · exact .inr (.inl hoffered)
  · refine .inr (.inr ⟨e.key, hnames, hspare, hprocs fun hgone => ?_⟩)
    have hrun := world.hosted e he
    rw [show s.procs e.worker = .gone from hgone] at hrun
    cases hrun
  · obtain ⟨k, hnames, hspare, hw⟩ := ((hold hrow₀).resolve_left hsched).resolve_left hoffered
    by_cases hrec : a.recovers s = some k
    · rcases world.recovers_cases h hrec with ⟨-, hpending⟩ | ⟨σ, hσ, hk⟩
      · exact .inr (.inl (.inl ⟨k.2, hpending, hnames⟩))
      · exact absurd (world.reaped σ hσ _
          (Sched.reaping_of_judging (Sched.judging_of_releasing hk))) hw
    · exact .inr (.inr ⟨k, hnames, spare_of_step h hspare hrec, hprocs hw⟩)

/-- No job is lost when the scheduler dies: from a state in which the recorded retries are
in the delayed set, whatever live workers do, every job that still has work to do is
recoverable whenever no scheduler is between its `ZREM` and its UPDATE. -/
theorem recoverable_when_scheduler_dies {s₀ : State} (hreach : Reaches cfg Steady s₀)
    (hdelayed : s₀.RetriesDelayed) (hrun : Run (step cfg) SchedulerDies s₀ s)
    (hidle : ∀ σ ∈ s.scheds, σ.promotes = none) : s.AllRecoverable := by
  have hstart : LeaseWf cfg s₀ ∧ WorldWf s₀ ∧ CustodyWf s₀ := by
    refine hreach.invariant (P := fun s => LeaseWf cfg s ∧ WorldWf s ∧ CustodyWf s)
      ⟨LeaseWf.init, WorldWf.init, CustodyWf.init⟩ ?_
    rintro t a u ⟨lease, world, custody⟩ hok h
    exact ⟨lease.step h, world.step hok h, custody.step lease world hok h⟩
  obtain ⟨⟨lease, world, custody⟩, retry⟩ : (LeaseWf cfg s ∧ WorldWf s ∧ CustodyWf s) ∧
      ∀ job r, s.db.row job = some r → r.status = .retrying →
        s.Scheduled job ∨ s.Offered job ∨ s.LeftWithLive job := by
    refine hrun.invariant
      (P := fun s => (LeaseWf cfg s ∧ WorldWf s ∧ CustodyWf s) ∧
        ∀ job r, s.db.row job = some r → r.status = .retrying →
          s.Scheduled job ∨ s.Offered job ∨ s.LeftWithLive job)
      ⟨hstart, fun job r hrow hretry => .inl (.inl (hdelayed job r hrow hretry))⟩ ?_
    rintro t a u ⟨⟨lease, world, custody⟩, retry⟩ hok h
    exact ⟨⟨lease.step h, world.step hok.1 h, custody.step lease world hok.1 h⟩,
      fun job r hrow hretry =>
        retry_kept lease world hok h (fun hold => retry job r hold hretry) hrow hretry⟩
  intro job r hrow hterm
  refine (recoverable_or_promoting lease world custody hrow hterm fun hretry => ?_).resolve_right ?_
  · exact (retry job r hrow hretry).imp_right fun h =>
      h.imp_right fun ⟨k, hnames, hspare, _⟩ => ⟨k, hnames, hspare⟩
  · rintro ⟨σ, hσ, hpromotes⟩
    rw [hidle σ hσ] at hpromotes
    cases hpromotes

theorem State.retriesDelayed_of_jobs {s : State}
    (h : ∀ r ∈ s.db.jobs, r.status = .retrying → s.redis.isDelayed (uuidOut r.id) = true) :
    s.RetriesDelayed := by
  intro job r hrow hretry
  rw [← Db.id_of_row hrow]
  exact h r (Db.row_mem hrow) hretry

theorem State.allRecoverable_of_jobs {s : State} (h : ∀ r ∈ s.db.jobs, s.Recoverable r.id) :
    s.AllRecoverable := by
  intro job r hrow _
  rw [← Db.id_of_row hrow]
  exact h r (Db.row_mem hrow)

end

/-- A job whose retry is due, and a scheduler that is about to look. -/
private def dueRetry : List Cue :=
  Script.start ['a'] ++ Script.submit (Script.job 1) ++ Script.throws ['a'] 3 ++
    [.act .startSched, .act (.tick 60000000)]

open Script in
/-- The scheduler dies between its UPDATE and its `LPUSH`. -/
theorem recoverable_when_scheduler_dies_promoting :
    ∃ s : State, s.AllRecoverable ∧ (s.db.row (job 1)).isSome = true ∧ s.scheds = [] := by
  have hruns : ∃ s₀ s, Reaches defaults Steady s₀ ∧
      (∀ r ∈ s₀.db.jobs, r.status = .retrying → s₀.redis.isDelayed (uuidOut r.id) = true) ∧
      Run (step defaults) SchedulerDies s₀ s ∧
      ((s.db.row (job 1)).isSome = true ∧ s.scheds = []) :=
    exists_runs_of_play dueRetry [.sched .next, .sched .next, .sched .next, .killSched]
      (by decide +kernel)
  obtain ⟨s₀, s, hreach, hdelayed, hrun, hrow, hscheds⟩ := hruns
  exact ⟨s, recoverable_when_scheduler_dies hreach (State.retriesDelayed_of_jobs hdelayed) hrun
    (by rw [hscheds]; nofun), hrow, hscheds⟩

open Script in
/-- The scheduler dies between its `ZREM` and its UPDATE: the id is nowhere, and the row
says 'retrying'. -/
theorem lost_between_zrem_and_update :
    ∃ s₀ s, Reaches defaults FreshIds s₀ ∧ s₀.AllRecoverable ∧ s₀.RetriesDelayed ∧
      Run (step defaults) (fun s a => FreshIds s a ∧ a.isFault = a.isSchedKill) s₀ s ∧
      (s.db.row (job 1)).any (·.status = .retrying) = true ∧ ¬ s.Recoverable (job 1) ∧
      s.execs = [] ∧ s.scheds = [] := by
  have hruns : ∃ s₀ s, Reaches defaults FreshIds s₀ ∧
      ((∀ r ∈ s₀.db.jobs, s₀.Recoverable r.id) ∧
        ∀ r ∈ s₀.db.jobs, r.status = .retrying → s₀.redis.isDelayed (uuidOut r.id) = true) ∧
      Run (step defaults) (fun s a => FreshIds s a ∧ a.isFault = a.isSchedKill) s₀ s ∧
      ((s.db.row (job 1)).any (·.status = .retrying) = true ∧ ¬ s.Recoverable (job 1) ∧
        s.execs = [] ∧ s.scheds = []) :=
    exists_runs_of_play dueRetry [.sched .next, .sched .next, .killSched] (by decide +kernel)
  obtain ⟨s₀, s, hreach, ⟨hheld, hdelayed⟩, hrun, hlost⟩ := hruns
  exact ⟨s₀, s, hreach, State.allRecoverable_of_jobs hheld, State.retriesDelayed_of_jobs hdelayed,
    hrun, hlost⟩

open Script in
/-- Accurate heartbeats are needed: the reaper has rescued the job of a suspected worker
that had not claimed it yet. The worker claims it after all, a second one finds it not
claimable and takes the rescued id off the queue, and the scheduler dies. -/
theorem unheld_after_false_suspicion :
    ∃ s₀ s, Reaches defaults (fun _ a => a.isFault = false) s₀ ∧ s₀.AllRecoverable ∧
      s₀.RetriesDelayed ∧
      Run (step defaults) (fun s a => FreshIds s a ∧ a.isFault = a.isSchedKill) s₀ s ∧
      (s.db.row (job 1)).any (·.status = .running) = true ∧ ¬ s.Recoverable (job 1) := by
  have hruns : ∃ s₀ s, Reaches defaults (fun _ a => a.isFault = false) s₀ ∧
      ((∀ r ∈ s₀.db.jobs, s₀.Recoverable r.id) ∧
        ∀ r ∈ s₀.db.jobs, r.status = .retrying → s₀.redis.isDelayed (uuidOut r.id) = true) ∧
      Run (step defaults) (fun s a => FreshIds s a ∧ a.isFault = a.isSchedKill) s₀ s ∧
      ((s.db.row (job 1)).any (·.status = .running) = true ∧ ¬ s.Recoverable (job 1)) :=
    exists_runs_of_play
      (start ['a'] ++ start ['b'] ++ submit (job 1) ++ takes ['a'] 1 ++
        [.act (.expire ['a']), .act .startSched] ++ reaps ['a'] 6)
      ([.work ['a'] .returned] ++ takes ['b'] 3 ++ [.killSched])
      (by decide +kernel)
  obtain ⟨s₀, s, hreach, ⟨hheld, hdelayed⟩, hrun, hlost⟩ := hruns
  exact ⟨s₀, s, hreach, State.allRecoverable_of_jobs hheld, State.retriesDelayed_of_jobs hdelayed,
    hrun, hlost⟩

end QueueFlow
