-- SUMMARY: What Redis may lose in a restart without harm, and the tails of its writes that it may not.
import QueueFlow.Fencing.Effects
import QueueFlow.Lib.Rewind
import QueueFlow.Recovery.Lost
import QueueFlow.Rows.Replayed
import QueueFlow.Sweep.Orphans

/-!
# Lost writes

Redis comes back as it was some commands ago, while the rows are in Postgres and stay. A lost `LREM`
and the lost `LPUSH` of a 'queued' row do no harm. A `BLMOVE` lost with the `LPUSH` before it leaves a
'running' row whose id is nowhere, and a lost `ZREM` brings back a delayed entry whose promotion sets a
succeeded row to 'queued'. `Redis.Fits` is what the contents that come back have to say of a row.
-/

namespace QueueFlow

open Transition

/-! ## Restarts -/

/-- Redis comes back with the given contents. The workers and the schedulers went down with it, and
open transactions are rolled back. -/
def State.restarted (s : State) (redis : Redis) : State :=
  { s with redis, procs := fun w => if s.procs w = .fresh then .fresh else .gone, execs := [], scheds := [] }

/-- The system with the contents that Redis has had, newest first. -/
abbrev Timeline := State × List Redis

/-- A step of the system, or a restart in which Redis loses its last writes. -/
def rollback (cfg : Config) : Timeline → Turn Act → Option Timeline :=
  rewinding (step cfg) State.redis State.restarted

namespace Redis

/-- A recovery or a promotion will come across the id of a running job. -/
def Keeps (redis : Redis) (job : Uuid) : Prop :=
  (∃ k ∈ redis.processing, Names k.2 job) ∨ redis.isDelayed (uuidOut job) = true

instance (redis : Redis) (job : Uuid) : Decidable (redis.Keeps job) :=
  inferInstanceAs (Decidable (_ ∨ _))

/-- What Redis has to say of a row when it comes back. -/
def Fits (redis : Redis) (r : JobRow) : Prop :=
  match r.status with
  | .running => redis.Keeps r.id
  | .retrying => redis.Keeps r.id ∨ ∃ id ∈ redis.pending, Names id r.id
  | .succeeded => ∀ m ∈ redis.delayed, uuidIn m.1 ≠ some r.id
  | _ => True

instance (redis : Redis) (r : JobRow) : Decidable (redis.Fits r) := by
  unfold Fits
  split
  · infer_instance
  · infer_instance
  · infer_instance
  · exact .isTrue trivial

end Redis

/-- Heartbeats are accurate, no scheduler dies between its `ZREM` and its UPDATE, the reaper reads
'retrying' only of jobs that are on their way, and what Redis comes back with fits every row. -/
def Harmless (t : Timeline) : Turn Act → Prop
  | .act a => Steady t.1 a ∧ SparesPromotion a ∧ ReadsTraced t.1 a
  | .rewind n => ∀ redis ∈ heldAgo State.redis t n, ∀ r ∈ t.1.db.jobs, redis.Fits r

instance (t : Timeline) (e : Turn Act) : Decidable (Harmless t e) := by
  induction e using Turn.casesOn with
  | act a => exact inferInstanceAs (Decidable (_ ∧ _ ∧ _))
  | rewind n => exact inferInstanceAs (Decidable (∀ _ ∈ heldAgo State.redis t n, _))

section

variable {cfg : Config} {s s' : State} {a : Act} {job : Uuid} {r : JobRow} {redis : Redis} {σ : Sched}

theorem State.hasReset_restarted {w : WorkerId} : ((s.restarted redis).procs w).hasReset = false := by
  unfold State.restarted
  dsimp only
  split <;> rfl

theorem LeaseWf.restarted (wf : LeaseWf cfg s) : LeaseWf cfg (s.restarted redis) where
  newest := wf.newest
  decreasing := wf.decreasing
  bound := wf.bound
  recorded := wf.recorded
  held := by rintro e ⟨⟩
  named := by rintro e ⟨⟩
  unique _ := Nat.zero_le _
  locking := by rintro e ⟨⟩
  superseded := by rintro e ⟨⟩

theorem WorldWf.restarted : WorldWf (s.restarted redis) where
  entries _ := Nat.zero_le _
  hosted := by rintro e ⟨⟩
  accepted := by rintro e ⟨⟩
  reaped := by rintro σ ⟨⟩
  single := Nat.zero_le _
  tail := by rintro σ ⟨⟩
  stranded w ids c h := by
    unfold State.restarted at h
    dsimp only at h
    split at h <;> cases h

/-! ## Jobs at work are held -/

/-- A running job is in custody or will be promoted, and a recorded retry is not forgotten. -/
structure TracedWf (cfg : Config) (s : State) : Prop where
  lease : LeaseWf cfg s
  world : WorldWf s
  running : ∀ job r, s.db.row job = some r → r.status = .running →
    s.OwnedBy job r ∨ s.Kept job ∨ s.Promotable job
  retry : RetryWf s

theorem SparesPromotion.schedKill (h : SparesPromotion a) (σ : Sched) (ha : a = .schedKill σ) :
    σ.promotes = none := by
  subst ha
  exact h

namespace TracedWf

theorem init : TracedWf cfg .init where
  lease := .init
  world := .init
  running job r h := by cases h
  retry := .init

theorem step (wf : TracedWf cfg s) (hsteady : Steady s a) (hkill : SparesPromotion a)
    (hreads : ReadsTraced s a) (h : step cfg s a = some s') : TracedWf cfg s' where
  lease := wf.lease.step h
  world := wf.world.step hsteady h
  running job r hrow' hrun := by
    rcases running_cases h hrow' hrun with hrow | ⟨e, m, he, ha, hpc, hsome, hlease, -⟩
    · rcases wf.running job r hrow hrun with howned | hkept | hpromotable
      · exact (owned_of_step wf.lease wf.world h hrow hrow' hrun howned).imp_right .inl
      · exact .inr (.inl (kept_of_step wf.world hsteady h hrow hrow' hrun hkept))
      · exact .inr (.inr (promotable_of_step h hkill.schedKill hrow' (by rw [hrun]; rintro ⟨⟩) hpromotable))
    · exact (custody_of_claim wf.lease wf.world h he ha hpc hsome hlease).imp_right .inl
  retry := wf.retry.step wf.lease wf.world hkill hreads h

/-- An entry that came back belongs to no execution, and nobody is about to take it off. -/
private theorem kept_of_entry {k : WorkerId × Text} (hk : k ∈ redis.processing) (hnames : Names k.2 job) :
    (s.restarted redis).Kept job := by
  refine ⟨k, hnames, ?_, by rintro σ ⟨⟩, State.hasReset_restarted⟩
  exact Bag.countP_pos_of_mem (p := fun p => decide (p = k)) hk (by simp)

theorem restarted (wf : TracedWf cfg s) (hfits : ∀ r ∈ s.db.jobs, redis.Fits r) :
    TracedWf cfg (s.restarted redis) where
  lease := wf.lease.restarted
  world := .restarted
  running job r hrow hrun := by
    have hrow : s.db.row job = some r := hrow
    have hfits := hfits r (Db.row_mem hrow)
    rw [Redis.Fits, hrun, Db.id_of_row hrow] at hfits
    rcases hfits with ⟨k, hk, hnames⟩ | hdelayed
    · exact .inr (.inl (kept_of_entry hk hnames))
    · exact .inr (.inr (.inl hdelayed))
  retry job r hrow hretry := by
    have hrow : s.db.row job = some r := hrow
    have hfits := hfits r (Db.row_mem hrow)
    rw [Redis.Fits, hretry, Db.id_of_row hrow] at hfits
    rcases hfits with (⟨k, hk, hnames⟩ | hdelayed) | hpending
    · obtain ⟨k, hnames, hspare, hfree, -⟩ := kept_of_entry (s := s) hk hnames
      exact .inr (.inr ⟨k, hnames, hspare, hfree⟩)
    · exact .inl (.inl hdelayed)
    · exact .inr (.inl (.inl hpending))

/-- The id of a job at work is in Redis, or a scheduler is just promoting it. -/
theorem held (wf : TracedWf cfg s) (h : s.HasStatus job .running ∨ s.HasStatus job .retrying) :
    s.Held job ∨ s.Promoting job := by
  rcases h with hrunning | hretrying
  · obtain ⟨r, hrow, hrun⟩ := hasStatus_iff.mp hrunning
    rcases wf.running job r hrow hrun with ⟨e, he, h, hphase, rfl, -⟩ | ⟨k, hnames, hspare, -⟩ |
      hdelayed | hpromoting
    · have hnames := names_of_owning wf.lease wf.world he hphase
      exact .inl (.inr (.inl ⟨e.key, wf.world.entry_mem he, hnames⟩))
    · exact .inl (.inr (.inl ⟨k, hspare.mem, hnames⟩))
    · exact .inl (.inr (.inr hdelayed))
    · exact .inr hpromoting
  · obtain ⟨r, hrow, hretry⟩ := hasStatus_iff.mp hretrying
    refine held_or_promoting wf.lease wf.world ((wf.retry job r hrow hretry).imp_right fun h => ?_)
    exact h.imp_right fun ⟨k, hnames, hspare, _⟩ => ⟨k, hnames, hspare⟩

end TracedWf

/-! ## Succeeded jobs stay succeeded -/

/-- The job has succeeded, and nobody is on the way to write its row. -/
structure State.AtRest (s : State) (job : Uuid) : Prop where
  succeeded : s.HasStatus job .succeeded
  undelayed : ∀ m ∈ s.redis.delayed, uuidIn m.1 ≠ some job
  unheld : ∀ e ∈ s.execs, ∀ h, e.pc.holding? = some h → h.job ≠ job
  unwritten : ∀ σ ∈ s.scheds, ∀ id, σ.overwrites = some id → uuidIn id ≠ some job

namespace State.AtRest

/-- Whatever moves, the row of a job at rest stays 'succeeded'. -/
private theorem succeeded_of_step (rest : s.AtRest job) (lease : LeaseWf cfg s)
    (h : step cfg s a = some s') : s'.HasStatus job .succeeded := by
  obtain ⟨r, hrow, hr⟩ := hasStatus_iff.mp rest.succeeded
  obtain ⟨r', hrow', hmove⟩ := rowMove_of_step lease h hrow
  refine hasStatus_iff.mpr ⟨r', hrow', ?_⟩
  cases hmove with
  | same => exact hr
  | replayed id g ha hid hdead => rw [hr] at hdead; cases hdead
  | claimed e m he ha hpc hclaimable => rw [hr] at hclaimable; cases hclaimable
  | settled e h began he ha hpc hjob | buried e h message he ha hpc hjob
  | parked e h message runAt he ha hpc hjob =>
      exact absurd hjob (rest.unheld e he h (by rw [hpc]; rfl))
  | promoted id due pick hσ ha hid => exact absurd hid (rest.unwritten _ hσ id rfl)
  | reapBuried key id keys pick hσ ha hid => exact absurd hid (rest.unwritten _ hσ id rfl)
  | reapRequeued key id keys pick hσ ha hid => exact absurd hid (rest.unwritten _ hσ id rfl)
  | reset w c stranded deadline ha hp hstranded =>
      rw [running_of_strandedRow hstranded] at hr
      cases hr

private theorem unheld_of_step (rest : s.AtRest job) (h : step cfg s a = some s') {e : Exec}
    (he : e ∈ s'.execs) {hold : Holding} (hhold : e.pc.holding? = some hold) : hold.job ≠ job := by
  rcases holding_origin h he hhold with ⟨e', he', hhold', -⟩ | ⟨r, -, -, hrow, -⟩
  · exact rest.unheld e' he' hold hhold'
  · rintro rfl
    obtain ⟨hrow, hclaimable⟩ := State.claimableRow_some hrow
    obtain ⟨r', hrow', hr'⟩ := hasStatus_iff.mp rest.succeeded
    obtain rfl := Option.some.inj (hrow.symm.trans hrow')
    rw [hr'] at hclaimable
    cases hclaimable

/-- The reaper reads that the job has succeeded, and `promoteDue` does not find its id. -/
private theorem unwritten_of_step (rest : s.AtRest job) (h : step cfg s a = some s') (hσ : σ ∈ s'.scheds)
    {id : Text} (hid : σ.overwrites = some id) : uuidIn id ≠ some job := by
  cases sched_origin h hσ with
  | stays hσ => exact rest.unwritten σ hσ id hid
  | rests hhand hreap =>
      cases σ with
      | promoteUpdate => cases hhand
      | reapBury | reapRequeue => cases hreap
      | _ => cases hid
  | removed id' due hdue =>
      cases hid
      obtain ⟨score, hm⟩ := Redis.isDelayed_iff.mp hdue
      exact rest.undelayed _ hm
  | judges key id' keys job' pick ha hid' =>
      rcases judge_cases key id' keys (s.db.row job') with ⟨hdrop, -⟩ | ⟨r, hrow, hterminal, -, hjudge⟩
      · rw [hdrop] at hid
        cases hid
      · obtain rfl : id' = id := by
          rcases hjudge with ⟨hjudge, -⟩ | ⟨hjudge, -⟩ <;> rw [hjudge] at hid <;> cases hid <;> rfl
        rw [hid']
        rintro ⟨⟩
        obtain ⟨r', hrow', hr'⟩ := hasStatus_iff.mp rest.succeeded
        obtain rfl := Option.some.inj (hrow.symm.trans hrow')
        rw [hr'] at hterminal
        cases hterminal
  | promoted | peeks | reads | rejects | buried | requeued => cases hid

theorem step (rest : s.AtRest job) (lease : LeaseWf cfg s) (h : step cfg s a = some s') :
    s'.AtRest job where
  succeeded := rest.succeeded_of_step lease h
  undelayed m hm := by
    rcases delayed_of_step h hm with hm | ⟨e, hold, runAt, ha, hpc, rfl⟩
    · exact rest.undelayed m hm
    · rw [uuidIn_uuidOut]
      rintro ⟨⟩
      exact rest.unheld e (exec_mem_of_step h ha) hold (by rw [hpc]; rfl) rfl
  unheld e he hold hhold := rest.unheld_of_step h he hhold
  unwritten σ hσ id hid := rest.unwritten_of_step h hσ hid

theorem of_restarted (hsucceeded : s.HasStatus job .succeeded) (hfits : ∀ r ∈ s.db.jobs, redis.Fits r) :
    (s.restarted redis).AtRest job where
  succeeded := hsucceeded
  undelayed := by
    obtain ⟨r, hrow, hr⟩ := hasStatus_iff.mp hsucceeded
    have hfits := hfits r (Db.row_mem hrow)
    rw [Redis.Fits, hr, Db.id_of_row hrow] at hfits
    exact hfits
  unheld := by rintro e ⟨⟩
  unwritten := by rintro σ ⟨⟩

end State.AtRest

/-! ## Restarts that do no harm -/

/-- Where Redis comes back with what fits the rows, every running or retrying job is held in every
state reached, and a job that had succeeded when Redis went down stays 'succeeded'. -/
theorem rollback_harmless {t : Timeline} (hrun : Run (rollback cfg) Harmless (.init, []) t) :
    (∀ job, t.1.HasStatus job .running ∨ t.1.HasStatus job .retrying → t.1.Held job ∨ t.1.Promoting job) ∧
    ∀ n u v, Harmless t (.rewind n) → rollback cfg t (.rewind n) = some u → Run (rollback cfg) Harmless u v →
      ∀ job, t.1.HasStatus job .succeeded → v.1.HasStatus job .succeeded := by
  have hkeeps (p : Timeline) (a : Act) (s' : State) (wf : TracedWf cfg p.1) (hok : Harmless p (.act a))
      (h : step cfg p.1 a = some s') : TracedWf cfg s' := wf.step hok.1 hok.2.1 hok.2.2 h
  have wf : TracedWf cfg t.1 := hrun.rewound .init hkeeps fun p n redis wf hok hredis =>
    wf.restarted (hok redis hredis)
  refine ⟨fun job h => wf.held h, fun n u v hok hu hrun' job hsucceeded => ?_⟩
  obtain ⟨redis, hredis, heq⟩ := rewinding_rewind hu
  have hstart : LeaseWf cfg u.1 ∧ u.1.AtRest job := by
    rw [heq]
    exact ⟨wf.lease.restarted, .of_restarted hsucceeded (hok redis hredis)⟩
  have hend : LeaseWf cfg v.1 ∧ v.1.AtRest job := by
    refine Run.rewound (P := fun s => LeaseWf cfg s ∧ s.AtRest job) hrun' hstart ?_ ?_
    · exact fun p a s' h _ hstep => ⟨h.1.step hstep, h.2.step h.1 hstep⟩
    · exact fun p n redis h hok hredis => ⟨h.1.restarted, .of_restarted h.2.succeeded (hok redis hredis)⟩
  exact hend.2.succeeded

end

/-! ## Two tails of writes -/

/-- The event that a cue, or a number of steps whose writes are lost, stands for. -/
def resolveTurn (t : Timeline) : Cue ⊕ Nat → Option (Turn Act)
  | .inl cue => (resolve t.1 cue).map .act
  | .inr n => some (.rewind n)

/-- A script in which Redis does not restart. -/
private def unbroken (cues : List Cue) : List (Cue ⊕ Nat) := cues.map .inl

open Script in
/-- A worker runs job 3, and the `LREM` of job 1 and the `LPUSH` of job 2 are lost. -/
theorem rollback_harmless_release : ∃ t u v, Run (rollback defaults) Harmless (.init, []) t ∧
    rollback defaults t (.rewind 4) = some u ∧ Run (rollback defaults) Harmless u v ∧
    v.1.HasStatus (job 1) .succeeded ∧ (v.1.Held (job 3) ∨ v.1.Promoting (job 3)) := by
  have hplay : ∃ t u v, Run (rollback defaults) Harmless (.init, []) t ∧ Harmless t (.rewind 4) ∧
      rollback defaults t (.rewind 4) = some u ∧ Run (rollback defaults) Harmless u v ∧
      (t.1.HasStatus (job 1) .succeeded ∧ v.1.HasStatus (job 3) .running) :=
    exists_step_of_perform (f := resolveTurn)
      (Q := fun t v => t.1.HasStatus (job 1) .succeeded ∧ v.1.HasStatus (job 3) .running)
      (unbroken (start ['a'] ++ submit (job 3) ++ takes ['a'] 2 ++ submit (job 1) ++ takes ['a'] 8 ++
        submit (job 2)))
      (unbroken ([.act .startSched] ++ promotes))
      (by decide +kernel)
  obtain ⟨t, u, v, hrun, hok, hu, hrun', hsucceeded, hrunning⟩ := hplay
  refine ⟨t, u, v, hrun, hu, hrun', (rollback_harmless hrun).2 4 u v hok hu hrun' (job 1) hsucceeded, ?_⟩
  exact (rollback_harmless (hrun.trans ((Run.single hok hu).trans hrun'))).1 (job 3) (.inl hrunning)

/-- Heartbeats are accurate, and nothing but Redis fails. -/
def OnlyRedisFails (t : Timeline) : Turn Act → Prop
  | .act a => Steady t.1 a ∧ a.isFault = false
  | .rewind _ => True

instance (t : Timeline) (e : Turn Act) : Decidable (OnlyRedisFails t e) := by
  induction e using Turn.casesOn with
  | act a => exact inferInstanceAs (Decidable (_ ∧ _))
  | rewind n => exact .isTrue trivial

open Script in
/-- A worker has claimed a job when Redis restarts without its `LPUSH` and its `BLMOVE`: the row says
'running', and its id is nowhere, though the worker and the scheduler have come back. And a job has
succeeded when Redis restarts without the `ZREM` of its promotion: it is promoted again. -/
theorem harm_of_rollback :
    (∃ t : Timeline, Run (rollback defaults) OnlyRedisFails (.init, []) t ∧
      t.1.HasStatus (job 1) .running ∧ ¬ t.1.Held (job 1) ∧ t.1.execs = [] ∧ t.1.apis = [] ∧
      t.1.scheds = [.idle]) ∧
    ∃ t u v : Timeline, Run (rollback defaults) OnlyRedisFails (.init, []) t ∧
      rollback defaults t (.rewind 12) = some u ∧ Run (rollback defaults) OnlyRedisFails u v ∧
      t.1.HasStatus (job 1) .succeeded ∧ v.1.HasStatus (job 1) .queued := by
  constructor
  · exact exists_run_of_perform (f := resolveTurn)
      (unbroken (start ['a'] ++ submit (job 1) ++ takes ['a'] 2) ++ [.inr 4] ++
        unbroken (.act (.expire ['a']) :: start ['a'] ++ [.act .startSched, .sched .recover, .sched .next,
          .sched .next, .sched .next]))
      (by decide +kernel)
  · have hplay : ∃ t u v, Run (rollback defaults) OnlyRedisFails (.init, []) t ∧
        OnlyRedisFails t (.rewind 12) ∧ rollback defaults t (.rewind 12) = some u ∧
        Run (rollback defaults) OnlyRedisFails u v ∧
        (t.1.HasStatus (job 1) .succeeded ∧ v.1.HasStatus (job 1) .queued) :=
      exists_step_of_perform (f := resolveTurn)
        (Q := fun t v => t.1.HasStatus (job 1) .succeeded ∧ v.1.HasStatus (job 1) .queued)
        (unbroken (start ['a'] ++ submit (job 1) ++ throws ['a'] 3 ++
          [.act .startSched, .act (.tick 60000000)] ++ promotes ++ takes ['a'] 7))
        (unbroken ([.act .startSched] ++ promotes))
        (by decide +kernel)
    obtain ⟨t, u, v, hrun, -, hu, hrun', h⟩ := hplay
    exact ⟨t, u, v, hrun, hu, hrun', h⟩

end QueueFlow
