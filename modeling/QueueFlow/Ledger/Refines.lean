-- SUMMARY: Every careful step of the system is a step of the ledger of every job.
import QueueFlow.Ledger.Books

/-!
# The system keeps the ledgers

`ledger_of_step` reads each command as a rule of the ledger. Commands about another job
leave a ledger as it is. The five guards of `Careful` are those of the rules that put a
job back into circulation; what the other rules ask for follows from the books of a
steady world.
-/

namespace QueueFlow

open Transition Marking Ledger

/-! ## The guards -/

/-- A job comes back into circulation only when no other copy of its id is left, and no
worker dies between its last write about a job and its `LREM` while the job is in play. -/
def Careful (s : State) : Act → Prop
  | .kill w => ∀ e ∈ s.execs, e.worker = w → e.pc.phase = .finished →
      ∀ job ∈ uuidIn e.id, ¬ (s.ledger job).InPlay
  | .recoverOwn w deadline => ∀ k ∈ (Act.recoverOwn w deadline).recovers s, ∀ job ∈ uuidIn k.2,
      (s.ledger job).status = some .retrying →
        (s.ledger job).live = 0 ∧ (s.ledger job).count .listed = 1 + (s.ledger job).count .finished
  | .api (.replay id) _ => ∀ job ∈ uuidIn id,
      (s.ledger job).status = some .dead → (s.ledger job).Clear
  | .sched (.promoteUpdate id _) _ => ∀ job ∈ uuidIn id, ¬ (s.ledger job).Left
  | .sched (.sweepPush (job :: _) held) _ => uuidOut job ∉ held →
      (s.ledger job).status.any JobStatus.terminal = true ∨
        ((s.ledger job).status = some .queued ∨ (s.ledger job).status = some .retrying) ∧
          (s.ledger job).Clear
  | _ => True

instance (s : State) (a : Act) : Decidable (Careful s a) := by
  induction a using Act.casesOn with
  | kill | recoverOwn => exact inferInstanceAs (Decidable (∀ _ ∈ _, _))
  | api a =>
      induction a using Api.casesOn with
      | replay => exact inferInstanceAs (Decidable (∀ _ ∈ uuidIn _, _))
      | _ => exact .isTrue trivial
  | sched σ =>
      induction σ using Sched.casesOn with
      | promoteUpdate => exact inferInstanceAs (Decidable (∀ _ ∈ uuidIn _, _))
      | sweepPush candidates =>
          induction candidates using List.casesOn with
          | nil => exact .isTrue trivial
          | cons => exact inferInstanceAs (Decidable (_ → _))
      | _ => exact .isTrue trivial
  | _ => exact .isTrue trivial

/-- A process fails, or a recovery runs, or an id is thrown away. -/
def Act.disrupts (s : State) : Act → Bool
  | .apiCrash _ | .kill _ | .schedFail _ | .schedKill _ => true
  | .recoverOwn w _ =>
      match s.procs w with
      | .starting (.reset _) _ | .starting .moveAll _ => true
      | _ => false
  | .take _ => s.redis.pending.getLast?.any fun id => !isUuid id
  | .sched σ _ => σ.recovering
  | _ => false

variable {cfg : Config} {s s' : State} {a : Act} {job : Uuid} {faults : Prop}

/-- What the job's ledger shows has not changed. -/
theorem idle_of_moved (hstatus : (s'.ledger job).status = (s.ledger job).status)
    (heffects : (s'.ledger job).effects = (s.ledger job).effects) (h : s.Moved s' job [] []) :
    Ledger.Step faults (s.ledger job) (s'.ledger job) :=
  .idle ⟨hstatus, heffects, h⟩

/-! ## Executions -/

/-- The command of an execution whose entry names another job. -/
private theorem ledger_of_otherExec (wf : LedgerWf cfg s) {e : Exec} (he : e ∈ s.execs)
    (hid : uuidIn e.id ≠ some job) (h : ExecMove cfg s e s') :
    Ledger.Step faults (s.ledger job) (s'.ledger job) := by
  have hne {job' : Uuid} (hpc : e.pc.job? = some job') : job ≠ job' := by
    rintro rfl
    exact hid (wf.lease.named e he _ hpc)
  have hset {t : State} {pc : ExecPc} (ht : e ∈ t.execs) (h : s.Moved t job [] []) :
      s.Moved (t.setExec e pc) job [] [] := h.trans (State.moved_setExec_of_not ht hid)
  cases h with
  | letGo =>
      have hshift : s.Moved _ job _ _ := State.moved_letGo he (wf.world.entry_mem he)
      rw [idAt_of_not hid, Exec.places_of_not hid] at hshift
      exact idle_of_moved rfl rfl hshift
  | rejected =>
      have hshift : s.Moved _ job _ _ := State.moved_endExec he
      rw [Exec.places_of_not hid] at hshift
      exact idle_of_moved rfl rfl hshift
  | found | missing | notClaimable | work | lock | unowned | insert | fenced =>
      exact idle_of_moved rfl rfl (hset he .refl)
  | claimed job' m r hpc =>
      refine idle_of_moved ?_ rfl (hset (t := s.claim e job') he .refl)
      exact State.status_write_ne (Db.keepsId_claimed _ _) (hne (by rw [hpc]; rfl))
  | settled h began hpc =>
      have hother : job ≠ h.job := hne (by rw [hpc]; rfl)
      refine idle_of_moved ?_ ?_ (hset (t := s.settle e h began) he .refl)
      · exact State.status_write_ne (Db.keepsId_succeeded began) hother
      · exact (Db.effectsFor_insertEffect _).trans (by simp [hother.symm]; rfl)
  | buried h message r hpc =>
      refine idle_of_moved ?_ rfl (hset (t := s.write h.job (.buried message s.now)) he .refl)
      exact State.status_write_ne (Db.keepsId_buried _ _) (hne (by rw [hpc]; rfl))
  | parked h message runAt r hpc =>
      refine idle_of_moved ?_ rfl (hset (t := s.write h.job (.parked message runAt)) he .refl)
      exact State.status_write_ne (Db.keepsId_parked _ _) (hne (by rw [hpc]; rfl))
  | zadded h runAt hpc =>
      refine idle_of_moved rfl rfl (hset he (State.moved_zadd_ne fun heq => ?_))
      exact hne (by rw [hpc]; rfl) heq.symm

/-- The command of an execution whose entry names the job. -/
private theorem ledger_of_ownExec (wf : LedgerWf cfg s) {e : Exec} (he : e ∈ s.execs)
    (hid : uuidIn e.id = some job) (h : ExecMove cfg s e s') :
    Ledger.Step faults (s.ledger job) (s'.ledger job) := by
  have hjob {job' : Uuid} (hpc : e.pc.job? = some job') : job' = job :=
    Option.some.inj ((wf.lease.named e he _ hpc).symm.trans hid)
  have hset {p : Place} {t : State} {pc : ExecPc} (hp : e.pc.phase.place = p) (ht : e ∈ t.execs) :
      t.Moved (t.setExec e pc) job [p] [pc.phase.place] := hp ▸ State.moved_setExec ht hid
  cases h with
  | letGo hpc =>
      have hshift : s.Moved _ job _ _ := State.moved_letGo he (wf.world.entry_mem he)
      rw [idAt_of_names hid, Exec.places_of_names hid, hpc] at hshift
      exact .release ⟨rfl, rfl, hshift⟩
  | rejected hpc hnone => rw [hid] at hnone; cases hnone
  | found job' r hpc => exact idle_of_moved rfl rfl (hset (by rw [hpc]; rfl) he).cancel
  | missing job' hpc hid' hrow =>
      obtain rfl := Option.some.inj (hid'.symm.trans hid)
      exact .skip (by simp [State.ledger, hrow]) ⟨rfl, rfl, hset (by rw [hpc]; rfl) he⟩
  | notClaimable job' m hpc hrow =>
      obtain rfl : job' = job := hjob (by rw [hpc]; rfl)
      refine .skip ?_ ⟨rfl, rfl, hset (by rw [hpc]; rfl) he⟩
      rw [Ne, Ne, State.status_eq_some, State.status_eq_some]
      constructor
      all_goals
        rintro ⟨r, hr, hst⟩
        have hfound : s.claimableRow job' = some r :=
          Option.filter_eq_some_iff.mpr ⟨hr, by rw [hst]; rfl⟩
        rw [hrow] at hfound
        cases hfound
  | claimed job' m r hpc _ hrow =>
      obtain rfl : job' = job := hjob (by rw [hpc]; rfl)
      obtain ⟨hrow, hclaimable⟩ := State.claimableRow_some hrow
      refine .claim ?_ ⟨?_, rfl, hset (t := s.claim e job') (by rw [hpc]; rfl) he⟩
      · rw [State.status_of_row hrow]
        cases hst : r.status <;> simp_all [JobStatus.claimable]
      · exact State.status_write (Db.keepsId_claimed _ _) (fun _ => rfl)
          (by rw [State.status_of_row hrow]; rintro ⟨⟩)
  | work h pc hpc _ hpc' =>
      have hshift : s.Moved (s.setExec e pc) job [.owning] _ := hset (by rw [hpc]; rfl) he
      rw [hpc'] at hshift
      exact idle_of_moved rfl rfl hshift.cancel
  | lock h began r hpc | unowned h began hpc | insert h began hpc =>
      exact idle_of_moved rfl rfl (hset (by rw [hpc]; rfl) he).cancel
  | settled h began hpc =>
      obtain rfl : h.job = job := hjob (by rw [hpc]; rfl)
      have hown := wf.lease.locking e he h (by rw [hpc]; rfl) (by rw [hpc]; rfl)
      obtain ⟨r, hrow, -⟩ := State.ownRow_isSome.mp hown
      refine .settle ⟨?_, ?_, hset (t := s.settle e h began) (by rw [hpc]; rfl) he⟩
      · exact State.status_write (Db.keepsId_succeeded began) (fun _ => rfl)
          (by rw [State.status_of_row hrow]; rintro ⟨⟩)
      · exact (Db.effectsFor_insertEffect _).trans (by rw [if_pos rfl]; rfl)
  | fenced h hpc hnot =>
      -- The row carries the lease of its owner.
      obtain ⟨r, hrow, -, hlease⟩ := wf.runsFor he hpc
      rcases hnot with hnone | hroll
      · have hown := wf.ownRow_of_owning he hpc
        rw [hnone] at hown
        cases hown
      · exact absurd hlease (wf.lease.superseded e he h hroll r hrow)
  | buried h message r hpc _ hown =>
      obtain rfl : h.job = job := hjob (by rw [hpc]; rfl)
      refine .bury ⟨?_, rfl,
        hset (t := s.write h.job (.buried message s.now)) (by rw [hpc]; rfl) he⟩
      exact State.status_write (Db.keepsId_buried _ _) (fun _ => rfl)
        (by rw [State.status_of_row (State.ownRow_some hown).1]; rintro ⟨⟩)
  | parked h message runAt r hpc _ hown =>
      obtain rfl : h.job = job := hjob (by rw [hpc]; rfl)
      refine .park ⟨?_, rfl,
        hset (t := s.write h.job (.parked message runAt)) (by rw [hpc]; rfl) he⟩
      exact State.status_write (Db.keepsId_parked _ _) (fun _ => rfl)
        (by rw [State.status_of_row (State.ownRow_some hown).1]; rintro ⟨⟩)
  | zadded h runAt hpc =>
      obtain rfl : h.job = job := hjob (by rw [hpc]; rfl)
      have hdone : (s.withRedis (s.redis.zadd runAt (uuidOut h.job))).Moved
          (State.setExec _ e .release) h.job [.parked] [.finished] := hset (by rw [hpc]; rfl) he
      have hshift := State.moved_zadd.trans hdone
      by_cases hd : s.redis.isDelayed (uuidOut h.job) = true
      · -- The id is in the delayed set already, and only its score changes.
        rw [if_pos hd] at hshift
        refine .postpone (State.count_pos (State.mem_tokens.mpr (.inr (.inr (.inl ?_)))))
          ⟨rfl, rfl, hshift⟩
        simp [State.delayedAt, hd]
      · rw [if_neg hd] at hshift
        exact .delay ⟨rfl, rfl, hshift⟩

theorem ledger_of_execMove (wf : LedgerWf cfg s) {e : Exec} (he : e ∈ s.execs)
    (h : ExecMove cfg s e s') : Ledger.Step faults (s.ledger job) (s'.ledger job) := by
  by_cases hid : uuidIn e.id = some job
  · exact ledger_of_ownExec wf he hid h
  · exact ledger_of_otherExec wf he hid h

/-! ## Schedulers -/

/-- A scheduler has one copy in hand at most. -/
theorem Sched.places_cases (σ : Sched) : σ.places job = [] ∨ ∃ p, σ.places job = [p] ∧
    (p = .updating ∨ p = .promoting ∨ p = .judged ∨ p = .rescued) := by
  have hidAt (p : Place) (id : Text) : idAt p job id = [] ∨ idAt p job id = [p] := by
    unfold idAt
    split
    · exact .inr rfl
    · exact .inl rfl
  cases σ with
  | promoteUpdate id => exact (hidAt .updating id).imp_right fun h => ⟨_, h, by simp⟩
  | promotePush id => exact (hidAt .promoting id).imp_right fun h => ⟨_, h, by simp⟩
  | reapBury _ id | reapRequeue _ id => exact (hidAt .judged id).imp_right fun h => ⟨_, h, by simp⟩
  | reapMove _ id => exact (hidAt .rescued id).imp_right fun h => ⟨_, h, by simp⟩
  | _ => exact .inl rfl

theorem Sched.places_of_rests {σ : Sched} (hhand : σ.hand = none) (hreap : σ.reaping = none) :
    σ.places job = [] := by
  cases σ <;> simp_all [Sched.hand, Sched.reaping, Sched.places]

theorem Sched.recovering_of_places {σ : Sched} (hhand : σ.hand = none) (h : σ.places job ≠ []) :
    σ.recovering = true := by
  cases σ <;> first | rfl | exact absurd rfl h | cases hhand

/-- A scheduler lets go of what it has in hand. -/
theorem ledger_of_givenUp {σ : Sched} (hfaults : σ.places job ≠ [] → faults)
    (hstatus : (s'.ledger job).status = (s.ledger job).status)
    (heffects : (s'.ledger job).effects = (s.ledger job).effects)
    (h : s.Moved s' job (σ.places job) []) : Ledger.Step faults (s.ledger job) (s'.ledger job) := by
  rcases σ.places_cases with hnone | ⟨p, hp, hplace⟩
  · rw [hnone] at h
    exact idle_of_moved hstatus heffects h
  · rw [hp] at h
    exact .giveUp (hfaults (by rw [hp]; nofun)) p hplace ⟨hstatus, heffects, h⟩

/-- A scheduler goes on to its next command, with other copies in hand. -/
private theorem moved_sched {σ : Sched} (σ' : Sched) {p q : List Place} (hσ : σ ∈ s.scheds) (hp : σ.places job = p)
    (hq : σ'.places job = q) : s.Moved (s.setSched σ σ') job p q :=
  hp ▸ hq ▸ State.moved_setSched hσ

section

variable {id : Text} {due : List Text} {key : WorkerId} {keys : List WorkerId} {job' : Uuid}

private theorem ledger_of_zrem (wf : LedgerWf cfg s) (hσ : .promoting (id :: due) ∈ s.scheds)
    (hdue : s.redis.isDelayed id = true) : Ledger.Step faults (s.ledger job)
      (((s.withRedis (s.redis.zrem id)).setSched (.promoting (id :: due)) (.promoteUpdate id due)).ledger job) := by
  have hmoved {q : List Place} (hq : idAt .updating job id = q) := (State.moved_zrem wf.canonical hdue).trans
    (moved_sched (s := s.withRedis (s.redis.zrem id)) (.promoteUpdate id due) hσ rfl hq)
  by_cases hid : uuidIn id = some job
  · have hshift := hmoved (idAt_of_names hid)
    rw [idAt_of_names hid] at hshift
    exact .remove ⟨rfl, rfl, hshift⟩
  · have hshift := hmoved (idAt_of_not hid)
    rw [idAt_of_not hid] at hshift
    exact idle_of_moved rfl rfl hshift

private theorem ledger_of_promoteUpdate (wf : LedgerWf cfg s) (hσ : .promoteUpdate id due ∈ s.scheds)
    (hid' : uuidIn id = some job') (hcareful : ¬ (s.ledger job').Left) : Ledger.Step faults (s.ledger job)
      (((s.write job' .promoted).setSched (.promoteUpdate id due) (.promotePush id due)).ledger job) := by
  by_cases hid : uuidIn id = some job
  · obtain rfl : job' = job := Option.some.inj (hid'.symm.trans hid)
    have hpos : 0 < (s.ledger job').count .updating := count_pos_of_sched hσ (by simp [Sched.places, hid])
    have hstatus := (wf.ok job').retrying_of_waiting (by omega)
    exact .promote hcareful
      ⟨State.status_write Db.keepsId_promoted (fun _ => rfl) (by rw [hstatus]; rintro ⟨⟩), rfl,
        moved_sched (s := s.write job' .promoted) _ hσ (idAt_of_names hid) (idAt_of_names hid)⟩
  · have hne : job ≠ job' := by
      rintro rfl
      exact hid hid'
    exact idle_of_moved (State.status_write_ne Db.keepsId_promoted hne) rfl
      (moved_sched (s := s.write job' .promoted) _ hσ (idAt_of_not hid) (idAt_of_not hid))

/-- The `UPDATE` of a promotion rejects its id, and the scheduler exits. -/
private theorem ledger_of_promoteCrash (hσ : .promoteUpdate id due ∈ s.scheds) (hid : uuidIn id = none) :
    Ledger.Step faults (s.ledger job) ((s.endSched (.promoteUpdate id due)).ledger job) := by
  have hshift : s.Moved _ job _ _ := State.moved_endSched hσ
  have hnone : Sched.places job (.promoteUpdate id due) = [] := idAt_of_not (by rw [hid]; rintro ⟨⟩)
  rw [hnone] at hshift
  exact idle_of_moved rfl rfl hshift

private theorem ledger_of_promotePush (hσ : .promotePush id due ∈ s.scheds) : Ledger.Step faults (s.ledger job)
    (((s.withRedis (s.redis.lpush id)).setSched (.promotePush id due) (.promoting due)).ledger job) := by
  have hmoved {p : List Place} (hp : idAt .promoting job id = p) := State.moved_lpush.trans
    (moved_sched (s := s.withRedis (s.redis.lpush id)) (.promoting due) hσ hp rfl)
  by_cases hid : uuidIn id = some job
  · have hshift := hmoved (idAt_of_names hid)
    rw [idAt_of_names hid] at hshift
    exact .push ⟨rfl, rfl, hshift⟩
  · have hshift := hmoved (idAt_of_not hid)
    rw [idAt_of_not hid] at hshift
    exact idle_of_moved rfl rfl hshift

private theorem ledger_of_reapSelect (hσ : .reapSelect key id keys ∈ s.scheds) (hid' : uuidIn id = some job')
    (hfaults : faults) : Ledger.Step faults (s.ledger job)
      ((s.setSched (.reapSelect key id keys) (judge key id keys (s.db.row job'))).ledger job) := by
  rcases judge_cases key id keys (s.db.row job') with
    ⟨heq, -⟩ | ⟨r, hrow, hterm, hretry, ⟨heq, -⟩ | ⟨heq, -⟩⟩ <;> rw [heq]
  · exact idle_of_moved rfl rfl (moved_sched _ hσ rfl rfl)
  all_goals
    by_cases hid : uuidIn id = some job
    · obtain rfl : job' = job := Option.some.inj (hid'.symm.trans hid)
      have hactive : (s.ledger job').Active := by
        rw [Ledger.Active, State.status_of_row hrow]
        cases hst : r.status <;> simp_all [JobStatus.terminal]
      exact .judge hfaults hactive ⟨rfl, rfl, moved_sched _ hσ rfl (idAt_of_names hid)⟩
    · exact idle_of_moved rfl rfl (moved_sched _ hσ rfl (idAt_of_not hid))

private theorem ledger_of_reapDrop (wf : LedgerWf cfg s) (hσ : .reapDrop key id keys ∈ s.scheds) (hfaults : faults) :
    Ledger.Step faults (s.ledger job) (((s.withRedis (s.redis.lremTail key id)).setSched
      (.reapDrop key id keys) (.reapPeek key keys)).ledger job) := by
  have hentry : (key, id) ∈ s.redis.processing := KeyedList.mem_of_last? (wf.world.tail _ hσ key id rfl)
  have hshift : s.Moved _ job _ _ := (State.moved_lremTail hentry).trans
    (moved_sched (s := s.withRedis (s.redis.lremTail key id)) (.reapPeek key keys) hσ rfl rfl)
  by_cases hid : uuidIn id = some job
  · rw [idAt_of_names hid] at hshift
    exact .drop hfaults (left_of_judging wf.world hσ rfl hid) ⟨rfl, rfl, hshift⟩
  · rw [idAt_of_not hid] at hshift
    exact idle_of_moved rfl rfl hshift

private theorem ledger_of_reapBury (wf : LedgerWf cfg s) (hσ : .reapBury key id keys ∈ s.scheds)
    (hid' : uuidIn id = some job') (hfaults : faults) : Ledger.Step faults (s.ledger job)
      (((s.write job' (.buried (stoppedResponding key) s.now)).setSched (.reapBury key id keys)
        (.reapDrop key id keys)).ledger job) := by
  by_cases hid : uuidIn id = some job
  · obtain rfl : job' = job := Option.some.inj (hid'.symm.trans hid)
    have hactive := (wf.ok job').active_of_judged (count_pos_of_sched hσ (by simp [Sched.places, hid]))
    exact .reapBury hfaults ⟨State.status_write (Db.keepsId_buried _ _) (fun _ => rfl)
      (by rcases hactive with h | h <;> rw [h] <;> rintro ⟨⟩), rfl,
      moved_sched (s := s.write job' (.buried (stoppedResponding key) s.now)) _ hσ (idAt_of_names hid) rfl⟩
  · have hne : job ≠ job' := by
      rintro rfl
      exact hid hid'
    exact idle_of_moved (State.status_write_ne (Db.keepsId_buried _ _) hne) rfl
      (moved_sched (s := s.write job' (.buried (stoppedResponding key) s.now)) _ hσ (idAt_of_not hid) rfl)

private theorem ledger_of_reapRequeue (wf : LedgerWf cfg s) (hσ : .reapRequeue key id keys ∈ s.scheds)
    (hid' : uuidIn id = some job') (hfaults : faults) : Ledger.Step faults (s.ledger job)
      (((s.write job' .requeued).setSched (.reapRequeue key id keys) (.reapMove key id keys)).ledger job) := by
  by_cases hid : uuidIn id = some job
  · obtain rfl : job' = job := Option.some.inj (hid'.symm.trans hid)
    have hactive := (wf.ok job').active_of_judged (count_pos_of_sched hσ (by simp [Sched.places, hid]))
    exact .requeue hfaults ⟨State.status_write Db.keepsId_requeued (fun _ => rfl)
      (by rcases hactive with h | h <;> rw [h] <;> rintro ⟨⟩), rfl,
      moved_sched (s := s.write job' .requeued) _ hσ (idAt_of_names hid) (idAt_of_names hid)⟩
  · have hne : job ≠ job' := by
      rintro rfl
      exact hid hid'
    exact idle_of_moved (State.status_write_ne Db.keepsId_requeued hne) rfl
      (moved_sched (s := s.write job' .requeued) _ hσ (idAt_of_not hid) (idAt_of_not hid))

/-- The `LMOVE` of the reaper takes the entry that has been judged. -/
private theorem ledger_of_reapMove (wf : LedgerWf cfg s) (hσ : .reapMove key id keys ∈ s.scheds) (hfaults : faults) :
    Ledger.Step faults (s.ledger job) (((s.withRedis
      { s.redis with pending := s.redis.pending ++ [id],
                     processing := KeyedList.removeRight s.redis.processing key id }).setSched
        (.reapMove key id keys) (.reapPeek key keys)).ledger job) := by
  have hentry : (key, id) ∈ s.redis.processing := KeyedList.mem_of_last? (wf.world.tail _ hσ key id rfl)
  have hshift : s.Moved _ job _ _ := State.moved_lmove hentry
  by_cases hid : uuidIn id = some job
  · rw [idAt_of_names hid, idAt_of_names hid] at hshift
    exact .rescue hfaults ⟨rfl, rfl, hshift.trans (moved_sched _ hσ (idAt_of_names hid) rfl)⟩
  · rw [idAt_of_not hid, idAt_of_not hid] at hshift
    exact idle_of_moved rfl rfl (hshift.trans (moved_sched _ hσ (idAt_of_not hid) rfl))

private theorem ledger_of_sweepPush {candidates : List Uuid} {held : List Text}
    (hσ : .sweepPush (job' :: candidates) held ∈ s.scheds) (hfaults : faults)
    (hcareful : (s.ledger job').status.any JobStatus.terminal = true ∨
      ((s.ledger job').status = some .queued ∨ (s.ledger job').status = some .retrying) ∧ (s.ledger job').Clear) :
    Ledger.Step faults (s.ledger job) (((s.withRedis (s.redis.rpush (uuidOut job'))).setSched
      (.sweepPush (job' :: candidates) held) (.sweepPush candidates held)).ledger job) := by
  have hshift : s.Moved _ job _ _ := State.moved_rpush.trans
    (moved_sched (s := s.withRedis (s.redis.rpush (uuidOut job'))) (.sweepPush candidates held) hσ rfl rfl)
  by_cases hid : uuidIn (uuidOut job') = some job
  · obtain rfl : job' = job := Option.some.inj ((uuidIn_uuidOut job').symm.trans hid)
    rw [idAt_of_names hid] at hshift
    exact .sweep hfaults hcareful ⟨rfl, rfl, hshift⟩
  · rw [idAt_of_not hid] at hshift
    exact idle_of_moved rfl rfl hshift

end

/-- A command of a scheduler. -/
theorem ledger_of_schedMove (wf : LedgerWf cfg s) {σ : Sched} {pick : Pick} (hσ : σ ∈ s.scheds)
    (hcareful : Careful s (.sched σ pick)) (hfaults : σ.recovering = true → faults)
    (h : SchedMove s σ s') : Ledger.Step faults (s.ledger job) (s'.ledger job) := by
  cases h with
  | quiet σ' hhand hhand' hreap =>
      exact ledger_of_givenUp (fun h => hfaults (Sched.recovering_of_places hhand h)) rfl rfl
        (moved_sched _ hσ rfl (Sched.places_of_rests hhand' hreap))
  | removed id due hpc hdue => subst hpc; exact ledger_of_zrem wf hσ hdue
  | promoted id due job' hpc hid => subst hpc; exact ledger_of_promoteUpdate wf hσ hid (hcareful job' hid)
  | crashed id due hpc hid => subst hpc; exact ledger_of_promoteCrash hσ hid
  | pushed id due hpc => subst hpc; exact ledger_of_promotePush hσ
  | check key keys hpc | peek key id keys hpc | junk key id keys hpc =>
      subst hpc
      exact idle_of_moved rfl rfl (moved_sched _ hσ rfl rfl)
  | select key id keys job' hpc hid => subst hpc; exact ledger_of_reapSelect hσ hid (hfaults rfl)
  | dropped key id keys hpc => subst hpc; exact ledger_of_reapDrop wf hσ (hfaults rfl)
  | buried key id keys job' hpc hid => subst hpc; exact ledger_of_reapBury wf hσ hid (hfaults rfl)
  | requeued key id keys job' hpc hid => subst hpc; exact ledger_of_reapRequeue wf hσ hid (hfaults rfl)
  | moved key id last keys hpc hlast =>
      subst hpc
      obtain rfl : last = id := Option.some.inj (hlast.symm.trans (wf.world.tail _ hσ key id rfl))
      exact ledger_of_reapMove wf hσ (hfaults rfl)
  | emptied key id keys hpc hlast =>
      subst hpc
      rw [wf.world.tail _ hσ key id rfl] at hlast
      cases hlast
  | swept job' candidates held hpc hheld =>
      subst hpc
      exact ledger_of_sweepPush hσ (hfaults rfl) (hcareful hheld)

/-! ## Requests -/

theorem Api.places_of_rests {a : Api} (h : a.hand = none) : a.places job = [] := by
  cases a <;> first | rfl | cases h

/-- A command of a request. -/
theorem ledger_of_apiMove {a : Api} {generated : Uuid} (ha : a ∈ s.apis)
    (hcareful : Careful s (.api a generated)) (h : ApiMove s a s') :
    Ledger.Step faults (s.ledger job) (s'.ledger job) := by
  have hset (t : State) (a' : Api) {p q : List Place} (ht : a ∈ t.apis)
      (hp : a.places job = p) (hq : a'.places job = q) : t.Moved (t.setApi a a') job p q :=
    hp ▸ hq ▸ State.moved_setApi ht
  have hend (t : State) (req : Request) (code : Nat) (body : Body) {p : List Place}
      (ht : a ∈ t.apis) (hp : a.places job = p) : t.Moved (t.respond a req code body) job p [] :=
    hp ▸ State.moved_respond ht
  cases h with
  | turned a' hhand hhand' =>
      exact idle_of_moved rfl rfl
        (hset _ _ ha (Api.places_of_rests hhand) (Api.places_of_rests hhand'))
  | answered req code body hhand =>
      exact idle_of_moved rfl rfl (hend _ _ _ _ ha (Api.places_of_rests hhand))
  | inserted key new hpc _ hrow =>
      subst hpc
      have hnew : ((s.db.insertJob (.inserted new key s.now)).row job) =
          if job = new then some (.inserted new key s.now) else s.db.row job :=
        Db.row_insertJob hrow
      by_cases hid : uuidIn (uuidOut new) = some job
      · obtain rfl : new = job := Option.some.inj ((uuidIn_uuidOut new).symm.trans hid)
        rw [if_pos rfl] at hnew
        refine .insert (by simp [State.ledger, hrow]) ⟨?_, rfl, hset (s.withDb _) _ ha rfl
          (idAt_of_names hid)⟩
        exact State.status_eq_some.mpr ⟨_, hnew, rfl⟩
      · have hne : job ≠ new := by
          rintro rfl
          exact hid (uuidIn_uuidOut job)
        rw [if_neg hne] at hnew
        exact idle_of_moved (congrArg (Option.map JobRow.status) hnew) rfl
          (hset (s.withDb _) _ ha rfl (idAt_of_not hid))
  | replayed id job' r hpc hid' _ hrow hdead =>
      subst hpc
      by_cases hid : uuidIn id = some job
      · obtain rfl : job' = job := Option.some.inj (hid'.symm.trans hid)
        have hstatus : (s.ledger job').status = some .dead :=
          State.status_eq_some.mpr ⟨r, hrow, hdead⟩
        exact .replay hstatus (hcareful job' hid hstatus)
          ⟨State.status_write Db.keepsId_replayed (fun _ => rfl) (by rw [hstatus]; rintro ⟨⟩), rfl,
            hset (s.write job' .replayed) _ ha rfl (idAt_of_names hid)⟩
      · have hne : job ≠ job' := by
          rintro rfl
          exact hid hid'
        exact idle_of_moved (State.status_write_ne Db.keepsId_replayed hne) rfl
          (hset (s.write job' .replayed) _ ha rfl (idAt_of_not hid))
  | pushed req id hpc =>
      subst hpc
      by_cases hid : uuidIn id = some job
      · have hshift := State.moved_lpush.trans
          (hend (s.withRedis (s.redis.lpush id)) req 202 (.queued id) ha (idAt_of_names hid))
        rw [idAt_of_names hid] at hshift
        exact .submit ⟨rfl, rfl, hshift⟩
      · have hshift := State.moved_lpush.trans
          (hend (s.withRedis (s.redis.lpush id)) req 202 (.queued id) ha (idAt_of_not hid))
        rw [idAt_of_not hid] at hshift
        exact idle_of_moved rfl rfl hshift

/-! ## Worker processes -/

/-- An entry that a restarted worker is about to move names no running job: the job
would have been reset, or another copy would account for it. -/
private theorem not_running_of_moved (wf : LedgerWf cfg s) {w : WorkerId} {c : Nat} {id : Text}
    (hp : s.procs w = .starting .moveAll c) (hmem : (w, id) ∈ s.redis.processing)
    (hid : uuidIn id = some job) : (s.ledger job).status ≠ some .running := by
  intro hstatus
  obtain ⟨r, hrow, hrun⟩ := State.status_eq_some.mp hstatus
  have hspare := spare_of_not_running wf.world hmem (by rw [hp]; rfl)
  obtain ⟨-, -, -, -, howning, hlisted⟩ :=
    (wf.ok job).only_left (.inr hstatus) (left_of_spare wf.world hspare hid)
  rcases wf.custody job r hrow hrun with ⟨e, he, h, hphase, rfl, -⟩ | ⟨k, hnames, hspare', -, hreset⟩
  · have hpos : 0 < (s.ledger h.job).count .owning :=
      count_pos_of_exec he (names_of_owning wf.lease wf.world he hphase).2 (by rw [hphase]; rfl)
    omega
  · have hne : (w, id) ≠ k := by
      rintro rfl
      rw [hp] at hreset
      cases hreset
    have hroom : (s.ledger job).execs + [(w, id), k].length ≤ (s.ledger job).count .listed :=
      State.count_of_spares wf.world (by simpa using hne)
        (by simpa using ⟨⟨hspare, hid⟩, hspare', hnames.2⟩)
    simp only [Ledger.execs, List.length_cons, List.length_nil] at hroom
    omega

/-- A command of a starting worker. -/
theorem ledger_of_startMove (wf : LedgerWf cfg s) {w : WorkerId} {deadline : Bool}
    (hcareful : Careful s (.recoverOwn w deadline))
    (hfaults : (Act.recoverOwn w deadline).disrupts s = true → faults)
    (h : StartMove s w deadline s') : Ledger.Step faults (s.ledger job) (s'.ledger job) := by
  cases h with
  | wait | refrain | proceed | nothing | read | done | beat => exact idle_of_moved rfl rfl .refl
  | reset c stranded hp =>
      have hrow' : (s.db.update (strandedRow stranded) .requeued).row job =
          (s.db.row job).map fun r => if strandedRow stranded r then r.requeued else r :=
        Db.row_update Db.keepsId_requeued
      cases hrow : s.db.row job with
      | none =>
          rw [hrow, Option.map_none] at hrow'
          exact idle_of_moved (congrArg (Option.map JobRow.status) (hrow'.trans hrow.symm)) rfl .refl
      | some r =>
          rw [hrow, Option.map_some] at hrow'
          by_cases hs : strandedRow stranded r = true
          · rw [if_pos hs] at hrow'
            simp only [strandedRow, Bool.and_eq_true, List.any_eq_true, decide_eq_true_eq] at hs
            obtain ⟨⟨id, hmem, hid⟩, hrun⟩ := hs
            rw [Db.id_of_row hrow] at hid
            rw [wf.world.stranded w stranded c hp] at hmem
            have hentry : (w, id) ∈ s.redis.processing :=
              KeyedList.mem_get.mp (List.mem_of_mem_filter hmem)
            have hspare := spare_of_not_running wf.world hentry (by rw [hp]; rfl)
            exact .reset (hfaults (by simp [Act.disrupts, hp]))
              (State.status_eq_some.mpr ⟨r, hrow, hrun⟩) (left_of_spare wf.world hspare hid)
              ⟨State.status_eq_some.mpr ⟨_, hrow', rfl⟩, rfl, .refl⟩
          · rw [if_neg hs] at hrow'
            exact idle_of_moved (congrArg (Option.map JobRow.status) (hrow'.trans hrow.symm)) rfl .refl
  | moved c id hp hlast =>
      have hmem := KeyedList.mem_of_last? hlast
      have hshift : s.Moved _ job _ _ := State.moved_lmove hmem
      by_cases hid : uuidIn id = some job
      · rw [idAt_of_names hid, idAt_of_names hid] at hshift
        have hspare := spare_of_not_running wf.world hmem (by rw [hp]; rfl)
        refine .recover (hfaults (by simp [Act.disrupts, hp])) (not_running_of_moved wf hp hmem hid)
          (hcareful (w, id) ?_ job hid) (left_of_spare wf.world hspare hid) ⟨rfl, rfl, hshift⟩
        simp [Act.recovers, hp, hlast]
      · rw [idAt_of_not hid, idAt_of_not hid] at hshift
        exact idle_of_moved rfl rfl hshift

/-- `BLMOVE`. -/
theorem ledger_of_take {w : WorkerId} (hfaults : (Act.take w).disrupts s = true → faults)
    (h : take s w = some s') : Ledger.Step faults (s.ledger job) (s'.ledger job) := by
  obtain ⟨c, rest, id, -, hpending, rfl⟩ := take_cases h
  have hshift : s.Moved _ job _ _ := (State.moved_blmove (w := w) hpending).trans
    (State.moved_addExec (e := ⟨w, id, if isUuid id then .select else .discard⟩))
  by_cases hid : uuidIn id = some job
  · rw [idAt_of_names hid, idAt_of_names hid, Exec.places_of_names hid] at hshift
    by_cases hvalid : isUuid id = true
    · simp only [hvalid, if_true] at hshift ⊢
      exact .take ⟨rfl, rfl, hshift⟩
    · have hvalid : isUuid id = false := by simpa using hvalid
      simp only [hvalid] at hshift ⊢
      exact .discard (hfaults (by simp [Act.disrupts, hpending, hvalid])) ⟨rfl, rfl, hshift⟩
  · rw [idAt_of_not hid, idAt_of_not hid, Exec.places_of_not hid] at hshift
    exact idle_of_moved rfl rfl hshift

/-- A worker is killed. -/
theorem ledger_of_kill {w : WorkerId} (hcareful : Careful s (.kill w)) (hfaults : faults) :
    Ledger.Step faults (s.ledger job) (((s.setProc w .gone).dropExecs w).ledger job) := by
  have hcount (p : Place) : (((s.setProc w .gone).dropExecs w).ledger job).count p +
      (s.execs.flatMap (Exec.places job)).count p = (s.ledger job).count p +
        (((s.setProc w .gone).dropExecs w).execs.flatMap (Exec.places job)).count p :=
    State.count_of_execs rfl rfl rfl
  refine .die hfaults rfl rfl (fun p => ?_) (fun p h1 h2 h3 h4 => ?_) fun hplay => ?_
  · have hle : ((s.execs.filter fun e => e.worker ≠ w).flatMap (Exec.places job)).count p ≤ _ :=
      count_le_of_sublist List.filter_sublist p
    have := hcount p
    simp only [State.dropExecs_execs, State.setProc_execs] at this
    omega
  · have hexec : p.ofExec = false := by cases p <;> first | rfl | contradiction
    have := hcount p
    rw [count_execPlaces hexec, count_execPlaces hexec] at this
    omega
  · -- The executions that end have not finished with a job in play.
    have hsame : ((s.execs.filter fun e => e.worker ≠ w).flatMap (Exec.places job)).count .finished =
        (s.execs.flatMap (Exec.places job)).count .finished := by
      refine count_filter fun e he hw hmem => ?_
      obtain ⟨hphase, hid⟩ := mem_idAt.mp hmem
      refine hcareful e he (by simpa using hw) ?_ job hid hplay
      cases hpc : e.pc.phase <;> first | rfl | (rw [hpc] at hphase; cases hphase)
    have := hcount .finished
    simp only [State.dropExecs_execs, State.setProc_execs] at this
    omega

/-! ## Every step -/

/-- A careful step of a steady world is a step of the ledger of every job. -/
theorem ledger_of_step (wf : LedgerWf cfg s) (hfail : a.isFailure = false) (hcareful : Careful s a)
    (hfaults : a.disrupts s = true → faults) (h : step cfg s a = some s') :
    Ledger.Step faults (s.ledger job) (s'.ledger job) := by
  cases a with
  | tick => cases h; exact idle_of_moved rfl rfl .refl
  | request req =>
      cases h
      have hshift : s.Moved _ job _ _ := State.moved_addApi (a := req.start)
      rw [show req.start.places job = [] by cases req <;> rfl] at hshift
      exact idle_of_moved rfl rfl hshift
  | startSched => cases h; exact idle_of_moved rfl rfl State.moved_addSched
  | api =>
      obtain ⟨ha, h⟩ := Option.ite_none_right_eq_some.mp h
      exact ledger_of_apiMove ha hcareful (handle_cases h)
  | apiCrash a =>
      obtain ⟨ha, h⟩ := Option.ite_none_right_eq_some.mp h
      cases h
      have hshift : s.Moved _ job _ _ := State.moved_endApi ha
      cases a with
      | push req id =>
          by_cases hid : uuidIn id = some job
          · rw [show Api.places job (.push req id) = [.submitting] from idAt_of_names hid] at hshift
            exact .abandon (hfaults rfl) ⟨rfl, rfl, hshift⟩
          · rw [show Api.places job (.push req id) = [] from idAt_of_not hid] at hshift
            exact idle_of_moved rfl rfl hshift
      | _ => exact idle_of_moved rfl rfl hshift
  | spawn =>
      obtain ⟨-, -, rfl⟩ := spawn_cases h
      exact idle_of_moved rfl rfl .refl
  | recoverOwn => exact ledger_of_startMove wf hcareful hfaults (recoverOwnProcessing_cases h)
  | beat =>
      obtain ⟨-, rfl⟩ := beat_cases h
      exact idle_of_moved rfl rfl .refl
  | expire =>
      cases expire_cases h
      exact idle_of_moved rfl rfl .refl
  | take => exact ledger_of_take hfaults h
  | exec =>
      obtain ⟨he, h⟩ := Option.ite_none_right_eq_some.mp h
      exact ledger_of_execMove wf he (processOne_cases h)
  | execFail => cases hfail
  | kill =>
      cases kill_cases h
      exact ledger_of_kill hcareful (hfaults rfl)
  | sched =>
      obtain ⟨hσ, h⟩ := Option.ite_none_right_eq_some.mp h
      exact ledger_of_schedMove wf hσ hcareful hfaults (schedule_cases h)
  | schedFail σ =>
      obtain ⟨hσ, h⟩ := Option.ite_none_right_eq_some.mp h
      unfold abandonPass at h
      split at h
      · cases h
        exact ledger_of_givenUp (fun _ => hfaults rfl) rfl rfl (State.moved_setSched hσ)
      · cases h
  | schedKill =>
      obtain ⟨hσ, h⟩ := Option.ite_none_right_eq_some.mp h
      cases h
      exact ledger_of_givenUp (fun _ => hfaults rfl) rfl rfl (State.moved_endSched hσ)

namespace LedgerWf

theorem init : LedgerWf cfg .init where
  lease := .init
  world := .init
  custody := .init
  canonical := nofun
  ok _ := ⟨rfl, rfl⟩

/-- Careful steps of a steady world keep the books. -/
theorem step (wf : LedgerWf cfg s) (hsteady : Steady s a) (hfail : a.isFailure = false)
    (hcareful : Careful s a) (h : QueueFlow.step cfg s a = some s') : LedgerWf cfg s' where
  lease := wf.lease.step h
  world := wf.world.step hsteady h
  custody := wf.custody.step wf.lease wf.world hsteady h
  canonical m hm := by
    rcases delayed_of_step h hm with hm | ⟨e, hold, runAt, -, -, rfl⟩
    · exact wf.canonical m hm
    · exact ⟨hold.job, rfl⟩
  ok job := (wf.ok job).step (booked wf.world job)
    (ledger_of_step wf hfail hcareful id h)

end LedgerWf

end QueueFlow
