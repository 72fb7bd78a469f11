-- SUMMARY: The chaos law: workers are killed at any command and replaced, and no job is lost, done twice or taken back.
import QueueFlow.Api.Late
import QueueFlow.Ids.Canonical
import QueueFlow.Ledger.Refines
import QueueFlow.Recovery.Fresh
import QueueFlow.Sweep.Orphans

/-!
# The chaos law

Workers are killed between any two commands and replaced under fresh ids, one scheduler promotes,
reaps and sweeps, handlers return, and an API process may crash between its INSERT and its `LPUSH`.
What the sweep pushes is then over or has no other copy (`PassSafe`), so that every guard of `Careful`
is met and the ledgers are kept. A request that hangs past `ORPHAN_AGE_S` is left out of the ledgers,
since the sweep pushes its id in its place.
-/

namespace QueueFlow

open Transition

/-! ## Chaos -/

/-- Handlers return and no command fails, a worker id is used once and its heartbeat lapses only
when its process is gone, one scheduler runs and does not crash, nothing is replayed, and a request
that pushes its id does so before the row is `ORPHAN_AGE_S` old. -/
def Chaos (cfg : Config) (s : State) : Act → Prop
  | .exec _ o => o = .returned
  | .execFail _ _ _ _ | .schedFail _ | .schedKill _ => False
  | .api x g => (Act.api x g).replays? s = none ∧ s.overdue cfg x = false
  | .expire w => (s.procs w).isRunning = false
  | .spawn w _ => s.procs w = .fresh
  | .startSched => s.scheds = []
  | _ => True

instance (cfg : Config) (s : State) (a : Act) : Decidable (Chaos cfg s a) := by
  induction a using Act.casesOn with
  | exec | expire | spawn | startSched => exact inferInstanceAs (Decidable (_ = _))
  | api => exact inferInstanceAs (Decidable (_ ∧ _))
  | execFail | schedFail | schedKill => exact .isFalse not_false
  | _ => exact .isTrue trivial

/-- The job has come to an end. -/
def State.Ended (s : State) (job : Uuid) : Prop :=
  (s.ledger job).status.any JobStatus.terminal = true

/-- A handler has thrown. -/
def ExecPc.throws : ExecPc → Bool
  | .bury _ _ | .park _ _ _ | .zadd _ _ => true
  | _ => false

section

variable {cfg : Config} {s s' : State} {a : Act} {job : Uuid} {e e' : Exec} {σ τ : Sched} {pick : Pick}

namespace Chaos

theorem freshIds (hok : Chaos cfg s a) : FreshIds s a := by
  cases a <;> trivial

theorem not_failure (hok : Chaos cfg s a) : a.isFailure = false := by
  cases a <;> first | rfl | cases hok

theorem not_replay (hok : Chaos cfg s a) : a.replays? s = none := by
  cases a with
  | api => exact hok.1
  | _ => rfl

theorem canonicalReplay (hok : Chaos cfg s a) : CanonicalReplay s a := by
  cases a with
  | api x g =>
      cases x with
      | replay id =>
          intro job hreplay
          rw [hok.1] at hreplay
          cases hreplay
      | insert | lookup | refuse | push => trivial
  | _ => trivial

/-- The only action of a scheduler is its next command. -/
theorem sched_eq (hok : Chaos cfg s a) (ha : a.sched? = some σ) : ∃ pick, a = .sched σ pick := by
  cases a with
  | sched σ' pick =>
      cases ha
      exact ⟨pick, rfl⟩
  | schedFail | schedKill => cases hok
  | _ => cases ha

end Chaos

/-! ## A job that is over stays over -/

theorem ended_iff : s.Ended job ↔ ∃ st, st.terminal = true ∧ s.HasStatus job st := by
  unfold State.Ended
  rw [Option.any_eq_true]
  exact ⟨fun ⟨st, hst, hterminal⟩ => ⟨st, hterminal, hst⟩, fun ⟨st, hterminal, hst⟩ => ⟨st, hst, hterminal⟩⟩

/-- Without replays a terminal status is never left. -/
theorem terminal_of_step (wf : LedgerWf cfg s) (hreplay : a.replays? s = none)
    (h : step cfg s a = some s') {st : JobStatus} (hterminal : st.terminal = true)
    (hst : s.HasStatus job st) : s'.HasStatus job st := by
  have hok := wf.ok job
  have hstatus : (s.ledger job).status = some st := hst
  obtain ⟨r, hrow, hr⟩ := hasStatus_iff.mp hst
  obtain ⟨r', hrow', hmove⟩ := rowMove_of_step wf.lease h hrow
  refine hasStatus_iff.mpr ⟨r', hrow', ?_⟩
  -- Nobody owns the job, judges it, or is about to promote it.
  have howned {e : Exec} {h : Holding} (he : e ∈ s.execs) (hphase : e.pc.phase = .owning h)
      (hjob : h.job = job) : False := by
    subst hjob
    have hrunning := (wf.owned he hphase).1
    rw [hstatus] at hrunning
    cases hrunning
    cases hterminal
  have hjudged {σ : Sched} (hσ : σ ∈ s.scheds) (hp : .judged ∈ σ.places job) : False := by
    rcases hok.active_of_judged (count_pos_of_sched hσ hp) with hactive | hactive <;>
      rw [hstatus] at hactive <;> cases hactive <;> cases hterminal
  cases hmove with
  | same => exact hr
  | replayed id g ha hid hdead =>
    rw [replays?_eq_some.mpr ⟨id, g, ha, hid, r, hrow, hdead⟩] at hreplay
    cases hreplay
  | claimed e m he ha hpc hclaimable =>
    have hnot : st.claimable = false := by cases st <;> first | rfl | cases hterminal
    rw [hr, hnot] at hclaimable
    cases hclaimable
  | settled e h began he ha hpc hjob | buried e h message he ha hpc hjob
  | parked e h message runAt he ha hpc hjob =>
    exact (howned he (by rw [hpc]; rfl) hjob).elim
  | promoted id due pick hσ ha hid =>
    have hpos : 0 < (s.ledger job).count .updating :=
      count_pos_of_sched hσ (by simp [Sched.places, hid])
    have hretrying := hok.retrying_of_waiting (by omega)
    rw [hstatus] at hretrying
    cases hretrying
    cases hterminal
  | reapBuried key id keys pick hσ ha hid =>
    exact (hjudged hσ (by simp [Sched.places, hid])).elim
  | reapRequeued key id keys pick hσ ha hid =>
    exact (hjudged hσ (by simp [Sched.places, hid])).elim
  | reset w c stranded deadline ha hp hstranded =>
    rw [running_of_strandedRow hstranded] at hr
    subst hr
    cases hterminal

theorem State.Ended.step (ended : s.Ended job) (wf : LedgerWf cfg s) (hreplay : a.replays? s = none)
    (h : QueueFlow.step cfg s a = some s') : s'.Ended job := by
  obtain ⟨st, hterminal, hst⟩ := ended_iff.mp ended
  exact ended_iff.mpr ⟨st, hterminal, terminal_of_step wf hreplay h hterminal hst⟩

/-! ## What the sweep may push -/

/-- A push of the id does no harm: the job has come to an end, or no other copy of its id is left. -/
def State.Pushable (s : State) (job : Uuid) : Prop := s.Ended job ∨ s.Orphan job

theorem Act.recovers_eq_none (hrest : ∀ σ ∈ s.scheds, σ.reaping = none) (newborn : NewbornWf s)
    (h : step cfg s a = some s') : a.recovers s = none := by
  cases a with
  | recoverOwn w deadline =>
      simp only [Act.recovers]
      split
      · rename_i hp
        exact absurd rfl (newborn.starting w _ _ hp).2
      · rfl
  | sched σ pick =>
      have hreap := hrest σ (Option.ite_none_right_eq_some.mp h).1
      cases σ <;> first | rfl | cases hreap
  | _ => rfl

/-- An orphan stays one until the sweep pushes its id. -/
theorem orphan_of_step (world : WorldWf s) (lease : LeaseWf cfg s) (ho : s.Orphan job)
    (hpush : ∀ candidates held pick, a ≠ .sched (.sweepPush (job :: candidates) held) pick)
    (h : step cfg s a = some s') : s'.Orphan job := by
  refine ho.step lease (fun σ hσ k hk => ?_) hpush h
  exact ho.noCopy k.2 (.listed k.1 (KeyedList.mem_of_last? (world.tail σ hσ k.1 k.2 hk)))

/-- Where no copy of an orphan is. -/
theorem State.Orphan.count_eq_zero (ho : s.Orphan job) {p : Place}
    (hp : p ≠ .finished ∧ p ≠ .judged ∧ p ≠ .rescued) : (s.ledger job).count p = 0 := by
  refine List.count_eq_zero.mpr fun hmem => ?_
  rcases State.mem_tokens.mp hmem with ⟨id, hid, h⟩ | ⟨k, hk, h⟩ | h | ⟨e, he, h⟩ | ⟨σ, hσ, h⟩ | ⟨x, hx, h⟩
  · exact ho.noCopy id (.pending hid) (mem_idAt.mp h).2
  · exact ho.noCopy k.2 (.listed k.1 hk) (mem_idAt.mp h).2
  · unfold State.delayedAt at h
    split at h
    · rename_i hdelayed
      obtain ⟨score, hscore⟩ := Redis.isDelayed_iff.mp hdelayed
      exact ho.noCopy _ (.delayed score hscore) (uuidIn_uuidOut job)
    · cases h
  · obtain ⟨hphase, hid⟩ := mem_idAt.mp h
    refine ho.idle e he (fun hfin => hp.1 ?_) hid
    rw [hphase, hfin]
    rfl
  · cases σ with
    | promoteUpdate id | promotePush id => exact ho.noCopy id (.promoting _ hσ rfl) (mem_idAt.mp h).2
    | reapBury | reapRequeue => exact hp.2.1 (mem_idAt.mp h).1
    | reapMove => exact hp.2.2 (mem_idAt.mp h).1
    | _ => cases h
  · cases x with
    | push req id => exact ho.noCopy id (.pushing _ hx rfl) (mem_idAt.mp h).2
    | _ => cases h

theorem State.Orphan.clear (ho : s.Orphan job) : (s.ledger job).Clear := by
  unfold Ledger.Clear Ledger.live
  rw [ho.count_eq_zero (p := .pending) (by decide), ho.count_eq_zero (p := .submitting) (by decide),
    ho.count_eq_zero (p := .delayed) (by decide), ho.count_eq_zero (p := .updating) (by decide),
    ho.count_eq_zero (p := .promoting) (by decide), ho.count_eq_zero (p := .taken) (by decide),
    ho.count_eq_zero (p := .owning) (by decide), ho.count_eq_zero (p := .parked) (by decide),
    ho.count_eq_zero (p := .listed) (by decide)]
  exact ⟨rfl, Nat.zero_le _⟩

/-- A 'queued' job whose id is neither in a list nor in a hand is an orphan. -/
theorem orphan_of_unheld (world : WorldWf s) (canonical : CanonicalWf s) (hqueued : s.HasStatus job .queued)
    (hdelayed : s.redis.isDelayed (uuidOut job) = false) (hholds : ¬ s.redis.Holds (uuidOut job))
    (hscheds : ∀ σ ∈ s.scheds, σ.hand ≠ some (uuidOut job))
    (hapis : ∀ x ∈ s.apis, x.hand ≠ some (uuidOut job)) : s.Orphan job where
  queued := hqueued
  noCopy t ht hid := by
    obtain ⟨job', rfl, -⟩ := canonical.texts t ht
    rw [uuidIn_uuidOut] at hid
    obtain rfl := Option.some.inj hid
    cases ht with
    | pending h => exact hholds (.inl h)
    | listed w h => exact hholds (.inr ⟨_, h, rfl⟩)
    | delayed score h =>
        rw [Redis.isDelayed_iff.mpr ⟨score, h⟩] at hdelayed
        cases hdelayed
    | promoting σ h hhand => exact hscheds σ h hhand
    | pushing x h hhand => exact hapis x h hhand
  idle e he _ hid := by
    have hmem := world.entry_mem he
    obtain ⟨job', heq, -⟩ := canonical.texts e.id (.listed e.worker hmem)
    rw [heq, uuidIn_uuidOut] at hid
    obtain rfl := Option.some.inj hid
    exact hholds (.inr ⟨_, hmem, heq⟩)

/-! ## What holds in the chaos -/

/-- Every candidate of a pass is in Redis while `pending` is to be read, and seen or still to be read
afterwards; what is not may be pushed. -/
structure PassSafe (s : State) (σ : Sched) : Prop where
  distinct : σ.candidates.Nodup
  waits : ∀ candidates, σ = .sweepPending candidates → ∀ job ∈ candidates,
    s.redis.Holds (uuidOut job) ∨ s.Pushable job
  covers : σ.Covers s s.Pushable

/-- What holds while no request is overdue. -/
structure ChaosWf (cfg : Config) (s : State) : Prop where
  ledger : LedgerWf cfg s
  fresh : FreshWf s
  canonical : CanonicalWf s
  holding : HoldingWf s
  sweep : SweepWf s
  key : (s.db.jobs.map (·.id)).Nodup
  returns : ∀ e ∈ s.execs, e.pc.throws = false
  unparked : ∀ job, ¬ s.HasStatus job .retrying
  /-- An execution that has finished leaves a job that has come to an end. -/
  finished : ∀ e ∈ s.execs, e.pc.phase = .finished → ∀ job, uuidIn e.id = some job → s.Ended job
  timely : ∀ x ∈ s.apis, s.overdue cfg x = false
  pass : ∀ σ ∈ s.scheds, PassSafe s σ

theorem PassSafe.of_nil (h : σ.candidates = []) : PassSafe s σ where
  distinct := by rw [h]; exact List.nodup_nil
  waits candidates hpc job hjob := by
    rw [hpc] at h
    rw [show candidates = [] from h] at hjob
    cases hjob
  covers _ job hjob := by
    rw [h] at hjob
    cases hjob

namespace ChaosWf

theorem init : ChaosWf cfg .init where
  ledger := .init
  fresh := .init
  canonical := .init
  holding := .init
  sweep := .init
  key := List.nodup_nil
  returns := by rintro e ⟨⟩
  unparked job h := by cases h
  finished := by rintro e ⟨⟩
  timely := by rintro x ⟨⟩
  pass := by rintro σ ⟨⟩

/-- The scheduler is the only one. -/
theorem alone (wf : ChaosWf cfg s) (hσ : σ ∈ s.scheds) : s.scheds = [σ] := by
  have hlen : s.scheds.length = 1 := Nat.le_antisymm wf.fresh.alone (List.length_pos_of_mem hσ)
  obtain ⟨τ, hs⟩ := List.length_eq_one_iff.mp hlen
  rw [hs, List.mem_singleton] at hσ
  rw [hs, hσ]

theorem not_inPlay (ended : s.Ended job) : ¬ (s.ledger job).InPlay := by
  obtain ⟨st, hterminal, hst⟩ := ended_iff.mp ended
  have hstatus : (s.ledger job).status = some st := hst
  simp only [Ledger.InPlay, Ledger.Active, hstatus, Option.some.injEq]
  rintro ((rfl | rfl) | ⟨rfl, -⟩) <;> cases hterminal

/-- The guards of the ledger are met. -/
theorem careful (wf : ChaosWf cfg s) (hok : Chaos cfg s a) (h : QueueFlow.step cfg s a = some s') :
    Careful s a := by
  cases a with
  | kill w => exact fun e he _ hfin job hid => not_inPlay (wf.finished e he hfin job hid)
  | recoverOwn w deadline =>
      intro k hk
      simp only [Act.recovers] at hk
      split at hk
      · rename_i hp
        exact absurd rfl (wf.fresh.newborn.starting w _ _ hp).2
      · cases hk
  | api x g =>
      cases x with
      | replay id =>
          intro job hid hdead
          obtain ⟨r, hrow, hr⟩ := State.status_eq_some.mp hdead
          have hreplay := hok.not_replay
          rw [replays?_eq_some.mpr ⟨id, g, rfl, hid, r, hrow, hr⟩] at hreplay
          cases hreplay
      | insert | lookup | refuse | push => trivial
  | sched σ pick =>
      have hσ := (Option.ite_none_right_eq_some.mp h).1
      cases σ with
      | promoteUpdate id due =>
          intro job hid
          have hpos : 0 < (s.ledger job).count .updating :=
            count_pos_of_sched hσ (mem_idAt.mpr ⟨rfl, hid⟩)
          exact absurd ((wf.ledger.ok job).retrying_of_waiting (by omega)) (wf.unparked job)
      | sweepPush candidates held =>
          cases candidates with
          | nil => trivial
          | cons job candidates =>
              intro hheld
              rcases (wf.pass _ hσ).covers (by rintro _ ⟨⟩) job List.mem_cons_self with
                hin | ⟨w, hw, -⟩ | ended | orphan
              · exact absurd hin hheld
              · cases hw
              · exact .inl ended
              · exact .inr ⟨.inl orphan.queued, orphan.clear⟩
      | _ => trivial
  | tick | request | apiCrash | spawn | beat | expire | take | exec | execFail | startSched
  | schedFail | schedKill => trivial

/-! ### Executions -/

/-- An execution whose handler returns has nothing to bury or to park. -/
theorem returns_of_step (wf : ChaosWf cfg s) (hok : Chaos cfg s a)
    (h : QueueFlow.step cfg s a = some s') (he' : e' ∈ s'.execs) : e'.pc.throws = false := by
  rcases exec_origin h he' with hmem | ⟨w, rest, -, -, -, hpc⟩ | ⟨e, o, rfl, he, hstep⟩ |
    ⟨e, took, message, random, rfl, -⟩
  · exact wf.returns e' hmem
  · rw [hpc]
    split <;> rfl
  · have hswap {pc : ExecPc} (hmem : e' ∈ Bag.swap s.execs e { e with pc }) (hpc : pc.throws = false) :
        e'.pc.throws = false := by
      rcases Bag.mem_of_mem_swap hmem with rfl | hmem
      · exact hpc
      · exact wf.returns e' hmem
    have hreturned : o = .returned := hok
    have hnot := wf.returns e he
    subst hreturned
    cases hpc : e.pc with
    | bury | park | zadd => rw [hpc] at hnot; cases hnot
    | discard | release =>
        simp only [processOne, hpc] at hstep
        cases hstep
        exact wf.returns e' (List.mem_of_mem_erase he')
    | select =>
        simp only [processOne, hpc] at hstep
        repeat' split at hstep
        all_goals cases hstep
        all_goals first
          | exact hswap he' rfl
          | exact wf.returns e' (List.mem_of_mem_erase he')
    | claim | handler | txBegin | txUpdate | txInsert | txCommit | txRollback =>
        simp only [processOne, hpc] at hstep
        repeat' split at hstep
        all_goals cases hstep
        all_goals exact hswap he' rfl
  · cases hok

theorem unparked_of_step (wf : ChaosWf cfg s) (h : QueueFlow.step cfg s a = some s') :
    ¬ s'.HasStatus job .retrying := by
  intro hretrying
  obtain ⟨r, hrow, hr⟩ := hasStatus_iff.mp hretrying
  rcases retrying_cases h hrow hr with hrow | ⟨e, hold, message, runAt, he, -, hpc, -⟩
  · exact wf.unparked job (hasStatus_iff.mpr ⟨r, hrow, hr⟩)
  · have hnot := wf.returns e he
    rw [hpc] at hnot
    cases hnot

/-- An execution that finds its job not claimable finds it at an end. -/
theorem ended_of_notClaimable (wf : ChaosWf cfg s) (he : e ∈ s.execs) {m : Nat} (hpc : e.pc = .claim job m)
    (hrow : s.claimableRow job = none) : s.Ended job := by
  have hid : uuidIn e.id = some job := wf.ledger.lease.named e he job (by rw [hpc]; rfl)
  have htaken : 0 < (s.ledger job).count .taken := count_pos_of_exec he hid (by rw [hpc]; rfl)
  have hok := (wf.ledger.ok job).2
  have hunclaimable {st : JobStatus} (hst : (s.ledger job).status = some st)
      (hclaimable : st.claimable = true) : False := by
    obtain ⟨r, hr, rfl⟩ := State.status_eq_some.mp hst
    have hfound : s.claimableRow job = some r := Option.filter_eq_some_iff.mpr ⟨hr, hclaimable⟩
    rw [hrow] at hfound
    cases hfound
  rcases hst : (s.ledger job).status with _ | (_ | _ | _ | _ | _ | _)
  case none | some.running =>
    simp only [hst] at hok
    omega
  case some.queued | some.retrying => exact (hunclaimable hst rfl).elim
  case some.succeeded | some.failed | some.dead => simp [State.Ended, hst, JobStatus.terminal]

theorem finished_of_execMove (wf : ChaosWf cfg s) (he : e ∈ s.execs) (hmove : ExecMove cfg s e s')
    (he' : e' ∈ s'.execs) (hfin : e'.pc.phase = .finished) (hid : uuidIn e'.id = some job) :
    s.Ended job ∨ s'.Ended job := by
  have hold (he' : e' ∈ s.execs) : s.Ended job ∨ s'.Ended job := .inl (wf.finished e' he' hfin job hid)
  have hswap {pc : ExecPc} (hmem : e' ∈ Bag.swap s.execs e { e with pc })
      (hnew : pc.phase = .finished → uuidIn e.id = some job → s.Ended job ∨ s'.Ended job) :
      s.Ended job ∨ s'.Ended job := by
    rcases Bag.mem_of_mem_swap hmem with rfl | hmem
    · exact hnew hfin hid
    · exact hold hmem
  have hnamed {job' : Uuid} (hpc : e.pc.job? = some job') (hid : uuidIn e.id = some job) : job' = job :=
    Option.some.inj ((wf.ledger.lease.named e he _ hpc).symm.trans hid)
  have hreturns {pc : ExecPc} (hpc : e.pc = pc) (hthrows : pc.throws = true) : False := by
    have hnot := wf.returns e he
    rw [hpc, hthrows] at hnot
    cases hnot
  cases hmove with
  | letGo | rejected => exact hold (List.mem_of_mem_erase he')
  | found | claimed | lock | unowned | insert => exact hswap he' (by rintro ⟨⟩)
  | work h pc _ _ hpc' => exact hswap he' (by rw [hpc']; rintro ⟨⟩)
  | missing job' hpc hid' hrow =>
      refine hswap he' fun _ _ => ?_
      obtain ⟨u, heq, r, hr⟩ := wf.canonical.texts e.id (.listed e.worker (wf.ledger.world.entry_mem he))
      rw [heq, uuidIn_uuidOut] at hid'
      obtain rfl := Option.some.inj hid'
      rw [hrow] at hr
      cases hr
  | notClaimable job' m hpc hrow =>
      refine hswap he' fun _ hid => .inl ?_
      obtain rfl : job' = job := hnamed (by rw [hpc]; rfl) hid
      exact wf.ended_of_notClaimable he hpc hrow
  | settled h began hpc =>
      refine hswap he' fun _ hid => .inr ?_
      obtain rfl : h.job = job := hnamed (by rw [hpc]; rfl) hid
      have hstatus := (wf.ledger.owned he (h := h) (by rw [hpc]; rfl)).1
      refine ended_iff.mpr ⟨.succeeded, rfl, ?_⟩
      exact State.status_write (Db.keepsId_succeeded began) (fun _ => rfl) (by rw [hstatus]; rintro ⟨⟩)
  | fenced h hpc hnot =>
      obtain ⟨r, hrow, -, hlease⟩ := wf.ledger.runsFor he hpc
      rcases hnot with hnone | hroll
      · have hown := wf.ledger.ownRow_of_owning he hpc
        rw [hnone] at hown
        cases hown
      · exact absurd hlease (wf.ledger.lease.superseded e he h hroll r hrow)
  | buried h message r hpc | parked h message runAt r hpc | zadded h runAt hpc =>
      exact (hreturns hpc rfl).elim

theorem finished_of_step (wf : ChaosWf cfg s) (hok : Chaos cfg s a)
    (h : QueueFlow.step cfg s a = some s') (he' : e' ∈ s'.execs) (hfin : e'.pc.phase = .finished)
    (hid : uuidIn e'.id = some job) : s'.Ended job := by
  have hended (h' : s.Ended job ∨ s'.Ended job) : s'.Ended job :=
    h'.elim (fun ended => ended.step wf.ledger hok.not_replay h) id
  rcases exec_origin h he' with hmem | ⟨w, rest, -, hpending, -, hpc⟩ | ⟨e, o, -, he, hstep⟩ |
    ⟨e, took, message, random, rfl, -⟩
  · exact hended (.inl (wf.finished e' hmem hfin job hid))
  · have huuid := wf.canonical.isUuid_of_circulates (.pending (t := e'.id) (by simp [hpending]))
    rw [hpc, if_pos huuid] at hfin
    cases hfin
  · exact hended (wf.finished_of_execMove he (processOne_cases hstep) he' hfin hid)
  · cases hok

/-- Nothing is delayed. -/
theorem not_delayed (wf : ChaosWf cfg s) : s.redis.isDelayed (uuidOut job) = false := by
  by_contra hdelayed
  have hmem : .delayed ∈ State.delayedAt s.redis job := by
    simp [State.delayedAt, Bool.not_eq_false _ ▸ hdelayed]
  have hpos : 0 < (s.ledger job).count .delayed :=
    State.count_pos (State.mem_tokens.mpr (.inr (.inr (.inl hmem))))
  exact wf.unparked job ((wf.ledger.ok job).retrying_of_waiting (by omega))

/-! ### The pass -/

theorem pushable_of_step (wf : ChaosWf cfg s) (hok : Chaos cfg s a)
    (h : QueueFlow.step cfg s a = some s')
    (hpush : ∀ candidates held pick, a ≠ .sched (.sweepPush (job :: candidates) held) pick)
    (hpushable : s.Pushable job) : s'.Pushable job := by
  rcases hpushable with ended | orphan
  · exact .inl (ended.step wf.ledger hok.not_replay h)
  · exact .inr (orphan_of_step wf.ledger.world wf.ledger.lease orphan hpush h)

/-- While nobody reaps, an entry stays in its list until its job has come to an end. -/
theorem entry_or_pushable (wf : ChaosWf cfg s) (hok : Chaos cfg s a)
    (h : QueueFlow.step cfg s a = some s') (hrest : ∀ σ ∈ s.scheds, σ.reaping = none) {w : WorkerId}
    (hmem : (w, uuidOut job) ∈ s.redis.processing) :
    (w, uuidOut job) ∈ s'.redis.processing ∨ s'.Pushable job := by
  rcases entry_of_step (Act.recovers_eq_none hrest wf.fresh.newborn h) h hmem with
    hmem | ⟨e, hgo, hkey, -⟩
  · exact .inl hmem
  cases a with
  | exec e' o =>
      obtain ⟨he, -⟩ := Option.ite_none_right_eq_some.mp h
      obtain ⟨hfin, heq⟩ := Option.ite_none_right_eq_some.mp hgo
      cases heq
      have hid : e.id = uuidOut job := (Prod.ext_iff.mp hkey).2.symm
      have ended := wf.finished e he hfin job (by rw [hid, uuidIn_uuidOut])
      exact .inr (.inl (ended.step wf.ledger hok.not_replay h))
  | execFail => cases hok
  | _ => cases hgo

/-- An id that Redis holds stays there until its job has come to an end. -/
theorem holds_or_pushable (wf : ChaosWf cfg s) (hok : Chaos cfg s a)
    (h : QueueFlow.step cfg s a = some s') (hrest : ∀ σ ∈ s.scheds, σ.reaping = none)
    (world : WorldWf s') (hholds : s.redis.Holds (uuidOut job)) :
    s'.redis.Holds (uuidOut job) ∨ s'.Pushable job := by
  rcases hholds with hpending | ⟨⟨w, id⟩, hmem, heq⟩
  · rcases pending_of_step h hpending with hpending | ⟨w, he⟩
    · exact .inl (.inl hpending)
    · exact .inl (.inr ⟨_, world.entry_mem he, rfl⟩)
  · obtain rfl : id = uuidOut job := heq
    exact (wf.entry_or_pushable hok h hrest hmem).imp_left fun hmem => .inr ⟨_, hmem, rfl⟩

/-- Another process takes a step beside the pass. -/
theorem pass_of_other (wf : ChaosWf cfg s) (hok : Chaos cfg s a) (world : WorldWf s')
    (h : QueueFlow.step cfg s a = some s') (ha : a.sched? = none) (hσ : σ ∈ s.scheds) :
    PassSafe s' σ := by
  by_cases hnil : σ.candidates = []
  · exact .of_nil hnil
  have hrest : ∀ τ ∈ s.scheds, τ.reaping = none := by
    rw [wf.alone hσ]
    intro τ hτ
    obtain rfl := List.mem_singleton.mp hτ
    cases τ <;> first | rfl | exact absurd rfl hnil
  have hpushable {job : Uuid} (hp : s.Pushable job) : s'.Pushable job := by
    refine wf.pushable_of_step hok h ?_ hp
    rintro candidates held pick rfl
    cases ha
  obtain ⟨hdistinct, hwaits, hcovers⟩ := wf.pass σ hσ
  refine ⟨hdistinct, fun candidates hpc job hjob => ?_, fun hpc job hjob => ?_⟩
  · rcases hwaits candidates hpc job hjob with hholds | hp
    · exact wf.holds_or_pushable hok h hrest world hholds
    · exact .inr (hpushable hp)
  · rcases hcovers hpc job hjob with hheld | ⟨w, hw, hlist⟩ | hp
    · exact .inl hheld
    · rcases wf.entry_or_pushable hok h hrest (KeyedList.mem_get.mp hlist) with hmem | hp
      · exact .inr (.inl ⟨w, hw, KeyedList.mem_get.mpr hmem⟩)
      · exact .inr (.inr hp)
    · exact .inr (.inr (hpushable hp))

/-- A row that the sweep asks for is in Redis, or an orphan. -/
theorem found_of_orphanCandidate (wf : ChaosWf cfg s) (hσ : .sweepSelect ∈ s.scheds)
    (hjob : job ∈ orphanCandidates cfg s) : s.redis.Holds (uuidOut job) ∨ s.Orphan job := by
  by_cases hholds : s.redis.Holds (uuidOut job)
  · exact .inl hholds
  obtain ⟨r, hr, rfl⟩ := List.mem_map.mp hjob
  obtain ⟨hmem, hold⟩ := List.mem_filter.mp ((List.mem_insertionSort _).mp (List.mem_of_mem_take hr))
  simp only [isOrphanCandidate, Bool.and_eq_true, decide_eq_true_eq] at hold
  obtain ⟨r', hrow⟩ := Db.row_isSome_of_mem hmem
  obtain rfl : r' = r := List.inj_on_of_nodup_map wf.key (Db.row_mem hrow) hmem (Db.id_of_row hrow)
  have hqueued : s.HasStatus r'.id .queued := hasStatus_iff.mpr ⟨r', hrow, hold.1⟩
  refine .inr (orphan_of_unheld wf.ledger.world wf.canonical hqueued wf.not_delayed hholds ?_
    fun x hx hhand => ?_)
  · rw [wf.alone hσ]
    intro σ hσ
    rw [List.mem_singleton.mp hσ]
    rintro ⟨⟩
  · -- A request would have pushed the id in time.
    have hover := wf.timely x hx
    unfold State.overdue at hover
    rw [hhand, Option.bind_some, uuidIn_uuidOut, Option.any_some, hrow, Option.any_some] at hover
    exact of_decide_eq_false hover hold.2

/-- The scheduler takes a step. -/
theorem pass_of_sched (wf : ChaosWf cfg s) (hok : Chaos cfg s (.sched σ pick)) (world : WorldWf s')
    (h : QueueFlow.step cfg s (.sched σ pick) = some s') (hτ : τ ∈ s'.scheds) : PassSafe s' τ := by
  obtain ⟨hσ, hschedule⟩ := Option.ite_none_right_eq_some.mp h
  have halone := wf.alone hσ
  by_cases hsweep : σ = .sweepSelect ∨ σ.sweeping = true
  · have hstep : sweepOrphans cfg s σ pick = some s' := by
      rcases hsweep with rfl | hsweep
      · exact hschedule
      · cases σ <;> cases hsweep <;> exact hschedule
    obtain ⟨hdistinct, hwaits, hcovers⟩ := wf.pass σ hσ
    have hpushable (job : Uuid) (hp : s.Pushable job)
        (hne : ∀ candidates held, σ ≠ .sweepPush (job :: candidates) held) : s'.Pushable job := by
      refine wf.pushable_of_step hok h ?_ hp
      rintro candidates held pick' ⟨⟩
      exact hne candidates held rfl
    obtain ⟨σ', hscheds, hdistinct', hcovers', -, hselect⟩ :=
      covers_of_sweep (Q := s'.Pushable) hstep wf.key hdistinct hwaits hcovers hpushable
    rw [hscheds, halone, Bag.swap, List.erase_cons_head] at hτ
    obtain rfl := List.mem_singleton.mp hτ
    refine ⟨hdistinct', fun candidates hpc job hjob => ?_, hcovers'⟩
    obtain ⟨rfl, rfl⟩ := hselect candidates hpc
    have hrest : ∀ σ ∈ s.scheds, σ.reaping = none := by
      rw [halone]
      intro σ hσ
      rw [List.mem_singleton.mp hσ]
      rfl
    rcases wf.found_of_orphanCandidate hσ hjob with hholds | orphan
    · exact wf.holds_or_pushable hok h hrest world hholds
    · exact .inr (hpushable job (.inr orphan) (by rintro _ _ ⟨⟩))
  · refine .of_nil (List.eq_nil_iff_forall_not_mem.mpr fun job hjob => ?_)
    have hold (hτ : τ ∈ s.scheds) : job ∈ σ.candidates := by
      rw [halone, List.mem_singleton] at hτ
      rwa [hτ] at hjob
    have hnew {σ' : Sched} (hscheds : s'.scheds = Bag.swap s.scheds σ σ') : job ∈ σ'.candidates := by
      rw [hscheds, halone, Bag.swap, List.erase_cons_head, List.mem_singleton] at hτ
      rwa [hτ] at hjob
    have hpromote (h : promoteDue s σ = some s') : job ∈ σ.candidates :=
      hold (candidates_of_promoteDue h hτ hjob)
    have hreap (h : reapDead s σ pick = some s') : job ∈ σ.candidates :=
      hold (candidates_of_reapDead h hτ hjob)
    cases σ with
    | idle =>
        cases pick with
        | next => cases hschedule; cases hnew rfl
        | recover => cases hschedule; cases hnew rfl
        | visit => cases hschedule
    | promoting | promoteUpdate | promotePush => cases hpromote hschedule
    | reapScan | reapCheck | reapPeek | reapSelect | reapDrop | reapBury | reapRequeue | reapMove =>
        cases hreap hschedule
    | sweepSelect => exact hsweep (.inl rfl)
    | sweepPending | sweepScan | sweepRead | sweepPush => exact hsweep (.inr rfl)

/-! ### Every step -/

theorem step (wf : ChaosWf cfg s) (hok : Chaos cfg s a) (h : QueueFlow.step cfg s a = some s')
    (htimely : ∀ x ∈ s'.apis, s'.overdue cfg x = false) : ChaosWf cfg s' := by
  have hledger := wf.ledger.step (wf.fresh.steady hok.freshIds h) hok.not_failure (wf.careful hok h) h
  exact {
    ledger := hledger
    fresh := wf.fresh.step hok.freshIds h
    canonical := wf.canonical.step wf.ledger.lease wf.holding wf.sweep hok.canonicalReplay h
    holding := wf.holding.step wf.ledger.lease h
    sweep := wf.sweep.step h
    key := (changes_of_step h).nodup wf.key
    returns := fun e he => wf.returns_of_step hok h he
    unparked := fun job => wf.unparked_of_step h
    finished := fun e he hfin job hid => wf.finished_of_step hok h he hfin hid
    timely := htimely
    pass := fun τ hτ => by
      cases ha : a.sched? with
      | none =>
          rcases scheds_of_step h ha with heq | ⟨-, heq⟩ <;> rw [heq] at hτ
          · exact wf.pass_of_other hok hledger.world h ha hτ
          · rcases List.mem_cons.mp hτ with rfl | hτ
            · exact .of_nil rfl
            · exact wf.pass_of_other hok hledger.world h ha hτ
      | some σ =>
          obtain ⟨pick, rfl⟩ := hok.sched_eq ha
          exact wf.pass_of_sched hok hledger.world h hτ }

end ChaosWf

/-! ## Requests that never push -/

theorem Chaos.pruned (hok : Chaos cfg s a) : Chaos cfg (s.pruned cfg) a := by
  cases a <;> exact hok

namespace ChaosWf

/-- Requests may crash at any time. -/
theorem filter (wf : ChaosWf cfg s) (p : Api → Bool) : ChaosWf cfg (s.withApis (s.apis.filter p)) := by
  generalize hn : s.apis.length = n
  induction n generalizing s with
  | zero =>
      have hsame : s.apis.filter p = s.apis := by
        rw [List.eq_nil_of_length_eq_zero hn]
        rfl
      rw [hsame]
      exact wf
  | succ n ih =>
      by_cases hall : ∀ x ∈ s.apis, p x = true
      · rw [List.filter_eq_self.mpr hall]
        exact wf
      · obtain ⟨x, hx, hp⟩ : ∃ x ∈ s.apis, ¬ p x = true := by simpa using hall
        have hcrash : QueueFlow.step cfg s (.apiCrash x) = some (s.endApi x) := if_pos hx
        have hcrashed : ChaosWf cfg (s.endApi x) :=
          wf.step (by trivial) hcrash fun y hy => wf.timely y (List.mem_of_mem_erase hy)
        have hlen : (s.endApi x).apis.length = n := by
          rw [State.endApi_apis, List.length_erase_of_mem hx, hn, Nat.add_sub_cancel]
        have hsame : (s.endApi x).apis.filter p = s.apis.filter p := by
          rw [State.endApi_apis, ← List.erase_filter,
            List.erase_of_not_mem fun hmem => hp (List.mem_filter.mp hmem).2]
        have hfiltered := ih hcrashed hlen
        rw [hsame] at hfiltered
        exact hfiltered

/-- A step keeps what holds of the state without the overdue requests. -/
theorem pruned_step (lease : LeaseWf cfg s) (wf : ChaosWf cfg (s.pruned cfg))
    (hok : Chaos cfg s a) (h : QueueFlow.step cfg s a = some s') : ChaosWf cfg (s'.pruned cfg) := by
  have htimely (x : Api) (hx : x ∈ (s'.pruned cfg).apis) : (s'.pruned cfg).overdue cfg x = false := by
    have hkept := (List.mem_filter.mp hx).2
    rw [Bool.not_eq_true'] at hkept
    exact hkept
  by_cases htick : ∃ d, a = .tick d
  · -- The requests that become overdue crash first.
    obtain ⟨d, rfl⟩ := htick
    cases h
    have hfiltered := wf.filter fun x => !State.overdue cfg { s with now := s.now + d } x
    have hsame : (s.pruned cfg).apis.filter (fun x => !State.overdue cfg { s with now := s.now + d } x) =
        s.apis.filter fun x => !State.overdue cfg { s with now := s.now + d } x := by
      rw [State.pruned, State.withApis_apis, List.filter_filter]
      refine List.filter_congr fun x _ => ?_
      cases hover : s.overdue cfg x with
      | false => simp
      | true => simp [overdue_of_tick hover]
    rw [hsame] at hfiltered
    exact hfiltered.step (a := .tick d) trivial rfl htimely
  by_cases hcrash : ∃ x, a = .apiCrash x
  · obtain ⟨x, rfl⟩ := hcrash
    obtain ⟨hx, h⟩ := Option.ite_none_right_eq_some.mp h
    cases h
    have hpruned : (s.endApi x).pruned cfg = (s.pruned cfg).endApi x :=
      congrArg s.withApis List.erase_filter.symm
    by_cases hmem : x ∈ (s.pruned cfg).apis
    · rw [hpruned] at htimely ⊢
      exact wf.step (a := .apiCrash x) trivial (if_pos hmem) htimely
    · rw [hpruned, State.endApi, List.erase_of_not_mem hmem]
      exact wf
  · exact wf.step hok.pruned (step_pruned lease hok.not_failure (fun d ha => htick ⟨d, ha⟩)
      (fun x ha => hcrash ⟨x, ha⟩) (fun x g ha => by subst ha; exact hok) h) htimely

end ChaosWf

/-- What holds in every run of the chaos, of the state itself and without the overdue requests. -/
structure ChaosRun (cfg : Config) (s : State) : Prop where
  lease : LeaseWf cfg s
  holding : HoldingWf s
  sweep : SweepWf s
  canonical : CanonicalWf s
  pruned : ChaosWf cfg (s.pruned cfg)

theorem chaosRun_of_reaches (hrun : Reaches cfg (Chaos cfg) s) : ChaosRun cfg s := by
  refine hrun.invariant ⟨.init, .init, .init, .init, .init⟩ fun t a u wf hok h => ?_
  exact ⟨wf.lease.step h, wf.holding.step wf.lease h, wf.sweep.step h,
    wf.canonical.step wf.lease wf.holding wf.sweep hok.canonicalReplay h, wf.pruned.pruned_step wf.lease hok h⟩

namespace ChaosRun

theorem world (wf : ChaosRun cfg s) : WorldWf s := wf.pruned.ledger.world.same rfl rfl rfl rfl

/-- A terminal status is never left. -/
theorem terminal_of_step (wf : ChaosRun cfg s) (hok : Chaos cfg s a) (h : step cfg s a = some s')
    {st : JobStatus} (hterminal : st.terminal = true) (hst : s.HasStatus job st) :
    s'.HasStatus job st := by
  have hsame (hdb : s'.db = s.db) : s'.HasStatus job st := by
    unfold State.HasStatus
    rw [hdb]
    exact hst
  by_cases htick : ∃ d, a = .tick d
  · obtain ⟨d, rfl⟩ := htick
    cases h
    exact hsame rfl
  by_cases hcrash : ∃ x, a = .apiCrash x
  · obtain ⟨x, rfl⟩ := hcrash
    obtain ⟨-, h⟩ := Option.ite_none_right_eq_some.mp h
    cases h
    exact hsame rfl
  · have hpruned := step_pruned wf.lease hok.not_failure (fun d ha => htick ⟨d, ha⟩)
      (fun x ha => hcrash ⟨x, ha⟩) (fun x g ha => by subst ha; exact hok) h
    have hkept : (s'.pruned cfg).HasStatus job st :=
      QueueFlow.terminal_of_step wf.pruned.ledger hok.pruned.not_replay hpruned hterminal hst
    exact hkept

end ChaosRun

/-! ## The law -/

/-- The id is in `pending` or in a processing list, or a live process has it in hand. -/
def State.HeldByAny (s : State) (job : Uuid) : Prop :=
  s.redis.Holds (uuidOut job) ∨
    (∃ e ∈ s.execs, (s.procs e.worker).isRunning = true ∧ uuidIn e.id = some job ∧ e.pc.phase ≠ .finished) ∨
    (∃ σ ∈ s.scheds, σ.hand = some (uuidOut job)) ∨ ∃ x ∈ s.apis, x.hand = some (uuidOut job)

instance (s : State) (job : Uuid) : Decidable (s.HeldByAny job) :=
  inferInstanceAs (Decidable (_ ∨ (∃ e ∈ s.execs, _) ∨ (∃ σ ∈ s.scheds, _) ∨ ∃ x ∈ s.apis, _))

/-- The row is 'queued' and no copy of its id is left; so it stays until the sweep pushes the id, and any
pass that begins once the row is old comes to its end and does. -/
structure State.SweepWillPush (cfg : Config) (s : State) (job : Uuid) : Prop where
  orphan : s.Orphan job
  stays : ∀ a s', Chaos cfg s a → step cfg s a = some s' → s'.Orphan job ∨ uuidOut job ∈ s'.redis.pending
  pushes : ∀ t r, t.db = s.db → t.redis = s.redis → t.scheds = [.sweepSelect] → s.db.row job = some r →
    isOrphanCandidate cfg t.now r = true →
      (∃ u, Sweeps cfg t u) ∧ ∀ u, Sweeps cfg t u → uuidOut job ∈ u.redis.pending

/-- A job has its effect exactly if it has succeeded, neither 'succeeded' nor 'dead' is ever left, and a
job that is queued or running is held or is one that the sweep will push. -/
structure State.ChaosLaw (cfg : Config) (s : State) : Prop where
  effects : ∀ job, s.db.effectsFor job = if s.HasStatus job .succeeded then 1 else 0
  stays : ∀ job st, st = .succeeded ∨ st = .dead → s.HasStatus job st →
    ∀ t, Run (step cfg) (Chaos cfg) s t → t.HasStatus job st
  held : ∀ job, s.HasStatus job .queued ∨ s.HasStatus job .running →
    s.HeldByAny job ∨ s.SweepWillPush cfg job

/-- No queued job that nobody holds is behind `BATCH` older queued rows. -/
def State.InBatch (s : State) : Prop :=
  ∀ job r, s.db.row job = some r → r.status = .queued → s.HeldByAny job ∨ s.older r < BATCH

theorem State.Orphan.setSched (ho : s.Orphan job) (hhand : τ.hand = none) : (s.setSched σ τ).Orphan job where
  queued := ho.queued
  noCopy t ht := by
    cases ht with
    | pending h => exact ho.noCopy t (.pending h)
    | listed w h => exact ho.noCopy t (.listed w h)
    | delayed score h => exact ho.noCopy t (.delayed score h)
    | pushing x h hx => exact ho.noCopy t (.pushing x h hx)
    | promoting σ' h hσ' =>
        rcases Bag.mem_of_mem_swap h with rfl | h
        · rw [hhand] at hσ'
          cases hσ'
        · exact ho.noCopy t (.promoting σ' h hσ')
  idle := ho.idle

/-- What a pass pushes of the orphans is what is in its batch. -/
private theorem pushed_iff_older (hkey : (t.db.jobs.map (·.id)).Nodup) {r : JobRow}
    (hholds : ¬ t.redis.Holds (uuidOut job)) (hrow : t.db.row job = some r)
    (hold : isOrphanCandidate cfg t.now r = true) {u : State} (hsweeps : Sweeps cfg t u) :
    uuidOut job ∈ u.redis.pending ↔ t.older r < BATCH := by
  have hcandidate : job ∈ orphanCandidates cfg t ↔ t.older r < BATCH := by
    have hid := mem_orphanCandidates_iff hkey (Db.row_mem hrow) hold
    rwa [Db.id_of_row hrow, ahead_eq_older hold] at hid
  rw [← hcandidate, hsweeps.spec.2.1]
  constructor
  · intro hin
    rcases List.mem_append.mp hin with hin | hin
    · exact absurd (.inl hin) hholds
    · obtain ⟨job', hjob', heq⟩ := List.mem_map.mp hin
      exact uuidOut_inj heq ▸ (List.mem_filter.mp hjob').1
  · intro hin
    refine List.mem_append_right _ (List.mem_map_of_mem (List.mem_filter.mpr ⟨hin, ?_⟩))
    simpa using hholds

theorem State.Orphan.not_holds (ho : s.Orphan job) : ¬ s.redis.Holds (uuidOut job) := by
  rintro (h | ⟨⟨w, id⟩, h, rfl⟩)
  · exact ho.noCopy _ (.pending h) (uuidIn_uuidOut job)
  · exact ho.noCopy _ (.listed w h) (uuidIn_uuidOut job)

/-- An orphan waits for the pass that has it in its batch. -/
theorem ChaosRun.orphan_stays (wf : ChaosRun cfg s) (ho : s.Orphan job) (h : step cfg s a = some s') :
    s'.Orphan job ∨ uuidOut job ∈ s'.redis.pending := by
  by_cases hpush : ∃ candidates held pick, a = .sched (.sweepPush (job :: candidates) held) pick
  · obtain ⟨candidates, held, pick, rfl⟩ := hpush
    obtain ⟨-, h⟩ := Option.ite_none_right_eq_some.mp h
    simp only [schedule, sweepOrphans] at h
    split at h
    · cases h
      exact .inl (ho.setSched rfl)
    · cases h
      exact .inr (List.mem_append_right _ (List.mem_singleton.mpr rfl))
  · refine .inl (orphan_of_step wf.world wf.lease ho ?_ h)
    intro candidates held pick ha
    exact hpush ⟨candidates, held, pick, ha⟩

/-- The sweep will push an orphan just when fewer than `BATCH` older queued rows are before it. -/
theorem ChaosRun.sweepWillPush_iff (wf : ChaosRun cfg s) (ho : s.Orphan job) {r : JobRow}
    (hrow : s.db.row job = some r) : s.SweepWillPush cfg job ↔ s.older r < BATCH := by
  have hkey : (s.db.jobs.map (·.id)).Nodup := wf.pruned.key
  constructor
  · intro hpush
    -- a pass that begins when the row is old
    let t : State := { s with now := r.createdAt + cfg.orphanAgeS * 1000000 + 1, scheds := [.sweepSelect] }
    obtain ⟨r', hrow', hqueued⟩ := hasStatus_iff.mp ho.queued
    obtain rfl : r = r' := Option.some.inj (hrow.symm.trans hrow')
    have hold : isOrphanCandidate cfg t.now r = true := by
      simp only [isOrphanCandidate, hqueued, decide_true, Bool.true_and, decide_eq_true_eq]
      exact Nat.lt_succ_self _
    obtain ⟨⟨u, hsweeps⟩, hpushes⟩ := hpush.pushes t r rfl rfl rfl hrow hold
    exact (pushed_iff_older (t := t) hkey ho.not_holds hrow hold hsweeps).mp (hpushes u hsweeps)
  · intro holder
    refine ⟨ho, fun a s' _ h => wf.orphan_stays ho h, fun t r' hdb hredis hscheds hrow' hold => ?_⟩
    obtain rfl : r = r' := Option.some.inj (hrow.symm.trans hrow')
    refine ⟨exists_sweeps hscheds, fun u hsweeps => ?_⟩
    rw [← hdb] at hkey hrow
    refine (pushed_iff_older hkey (by rw [hredis]; exact ho.not_holds) hrow hold hsweeps).mpr ?_
    rw [State.older, hdb]
    exact holder

namespace ChaosRun

theorem effects (wf : ChaosRun cfg s) (job : Uuid) :
    s.db.effectsFor job = if s.HasStatus job .succeeded then 1 else 0 :=
  (wf.pruned.ledger.ok job).1

/-- A running job has an entry: that of its owner, or one that was left behind. -/
theorem held_of_running (wf : ChaosRun cfg s) (h : s.HasStatus job .running) : s.HeldByAny job := by
  obtain ⟨r, hrow, hr⟩ := hasStatus_iff.mp h
  obtain ⟨k, hk, hnames⟩ := wf.pruned.ledger.custody.entry wf.pruned.ledger.lease
    wf.pruned.ledger.world hrow hr
  obtain ⟨u, heq, -⟩ := wf.canonical.texts k.2 (.listed k.1 hk)
  have hid := hnames.2
  rw [heq, uuidIn_uuidOut] at hid
  obtain rfl := Option.some.inj hid
  exact .inl (.inr ⟨k, hk, heq⟩)

/-- A queued job that nobody holds is an orphan. -/
theorem orphan_of_not_held (wf : ChaosRun cfg s) (h : s.HasStatus job .queued)
    (hheld : ¬ s.HeldByAny job) : s.Orphan job :=
  orphan_of_unheld wf.world wf.canonical h wf.pruned.not_delayed (fun hholds => hheld (.inl hholds))
    (fun σ hσ hhand => hheld (.inr (.inr (.inl ⟨σ, hσ, hhand⟩))))
    fun x hx hhand => hheld (.inr (.inr (.inr ⟨x, hx, hhand⟩)))

end ChaosRun

theorem terminal_of_chaos (hrun : Reaches cfg (Chaos cfg) s) {st : JobStatus}
    (hst : st = .succeeded ∨ st = .dead) (hstatus : s.HasStatus job st)
    (hrun' : Run (step cfg) (Chaos cfg) s t) : t.HasStatus job st := by
  have hterminal : st.terminal = true := by rcases hst with rfl | rfl <;> rfl
  have hboth : Reaches cfg (Chaos cfg) t ∧ t.HasStatus job st := by
    refine Run.invariant (P := fun u => Reaches cfg (Chaos cfg) u ∧ u.HasStatus job st) hrun'
      ⟨hrun, hstatus⟩ fun u a v hu hok h => ⟨hu.1.trans (.single hok h), ?_⟩
    exact (chaosRun_of_reaches hu.1).terminal_of_step hok h hterminal hu.2
  exact hboth.2

end

end QueueFlow
