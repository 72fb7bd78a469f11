-- SUMMARY: A worker that owns a job is not robbed of it while copies are handled with care, and how it is when they are not.
import QueueFlow.Ledger.Refines
import QueueFlow.Recovery.Fresh
import QueueFlow.Script

/-!
# Owners

The reaper decides by what a list names and what the row says, not by who holds the
lease. A worker that is alive keeps its job because an entry that is left behind never
names a job that somebody owns (`Ledger.Ok.only_left`). That in turn depends on care:
a worker that dies after its `ZADD` leaves an entry, and when the retry is promoted all
the same, the entry names a job that another worker may own.
-/

namespace QueueFlow

open Transition

variable {cfg : Config} {s s' : State} {a : Act} {e e' : Exec} {h h' : Holding}

/-- Accurate heartbeats, one reaper at a time, no failing commands, and care. -/
def CarefulWorld (s : State) (a : Act) : Prop :=
  Steady s a ∧ a.isFailure = false ∧ Careful s a

instance (s : State) (a : Act) : Decidable (CarefulWorld s a) :=
  inferInstanceAs (Decidable (_ ∧ _ ∧ _))

theorem ledgerWf_of_reaches (hrun : Reaches cfg CarefulWorld s) : LedgerWf cfg s :=
  hrun.invariant LedgerWf.init fun _ _ _ wf ⟨hsteady, hfail, hcareful⟩ h =>
    wf.step hsteady hfail hcareful h

namespace LedgerWf

/-- Nobody but the owner writes the row of an owned job. -/
theorem row_of_owned (wf : LedgerWf cfg s) (he : e ∈ s.execs) (hphase : e.pc.phase = .owning h)
    (hother : a.exec? ≠ some e) (hstep : QueueFlow.step cfg s a = some s') :
    s'.db.row h.job = s.db.row h.job := by
  obtain ⟨hstatus, hcount, hleft⟩ := wf.owned he hphase
  obtain ⟨r, hrow, hrun, -⟩ := wf.runsFor he hphase
  -- Another execution that writes the row would own the job as well.
  have hexec {e' : Exec} {h' : Holding} {set : JobRow → JobRow} (hid : Db.KeepsId set)
      (he' : e' ∈ s.execs) (ha : a.exec? = some e') (hphase' : e'.pc.phase = .owning h') :
      (s.db.updateRow h'.job set).row h.job = s.db.row h.job := by
    refine Db.row_updateRow_ne hid fun hjob => hother ?_
    rw [ha, wf.owner_eq he he' hphase hphase' hjob.symm]
  have hsched {id : Text} {job : Uuid} {set : JobRow → JobRow} (hid : Db.KeepsId set)
      (hnames : uuidIn id = some job) (hno : uuidIn id ≠ some h.job) :
      (s.db.updateRow job set).row h.job = s.db.row h.job :=
    Db.row_updateRow_ne hid fun hjob => hno (hjob ▸ hnames)
  have hdb := db_cases hstep
  generalize s'.db = db at hdb
  generalize s'.claims = claims at hdb
  cases hdb with
  | same => rfl
  | inserted key g generated _ hnew =>
      rw [Db.row_insertJob hnew, if_neg]
      rintro heq
      rw [heq, show (JobRow.inserted generated key s.now).id = generated from rfl, hnew] at hrow
      cases hrow
  | replayed id job g r' _ _ hrow' hdead =>
      refine Db.row_updateRow_ne Db.keepsId_replayed ?_
      rintro rfl
      rw [hrow] at hrow'
      cases hrow'
      rw [hrun] at hdead
      cases hdead
  | claimed e' job m r' _ _ _ _ hfound =>
      refine Db.row_updateRow_ne (Db.keepsId_claimed _ _) ?_
      rintro rfl
      obtain ⟨hrow', hclaimable⟩ := State.claimableRow_some hfound
      rw [hrow] at hrow'
      cases hrow'
      rw [hrun] at hclaimable
      cases hclaimable
  | settled e' h' began he' ha hpc =>
      exact hexec (Db.keepsId_succeeded began) he' ha (by rw [hpc]; rfl)
  | buried e' h' message r' he' ha hpc =>
      exact hexec (Db.keepsId_buried _ _) he' ha (by rw [hpc]; rfl)
  | parked e' h' message runAt r' he' ha hpc =>
      exact hexec (Db.keepsId_parked _ _) he' ha (by rw [hpc]; rfl)
  | promoted id due job pick hσ _ hnames =>
      refine hsched Db.keepsId_promoted hnames fun hid => ?_
      have hpos : 0 < (s.ledger h.job).count .updating :=
        count_pos_of_sched hσ (by simp [Sched.places, hid])
      have := (wf.ok h.job).retrying_of_waiting (by omega)
      rw [hstatus] at this
      cases this
  | reapBuried key id keys job pick hσ _ hnames =>
      exact hsched (Db.keepsId_buried _ _) hnames fun hid =>
        hleft (left_of_judging wf.world hσ rfl hid)
  | reapRequeued key id keys job pick hσ _ hnames =>
      exact hsched Db.keepsId_requeued hnames fun hid =>
        hleft (left_of_judging wf.world hσ rfl hid)
  | reset w c stranded deadline _ hp =>
      rw [Db.row_update Db.keepsId_requeued, hrow, Option.map_some, if_neg]
      simp only [strandedRow, Bool.and_eq_true, List.any_eq_true, decide_eq_true_eq]
      rintro ⟨⟨id, hmem, hid⟩, -⟩
      rw [wf.world.stranded w stranded c hp] at hmem
      have hspare := spare_of_not_running wf.world
        (KeyedList.mem_get.mp (List.mem_of_mem_filter hmem)) (by rw [hp]; rfl)
      exact hleft (left_of_spare wf.world hspare (by rw [← Db.id_of_row hrow]; exact hid))

end LedgerWf

/-- A healthy worker is never robbed: while its execution owns a job, the row is running
under its lease, so that its settling write finds it; and no step of anybody else changes
the row or claims the job. -/
theorem owner_not_robbed (hrun : Reaches cfg CarefulWorld s) (he : e ∈ s.execs)
    (hphase : e.pc.phase = .owning h) :
    s.RunsFor h ∧ (s.ownRow cfg h).isSome = true ∧
      ∀ a s', step cfg s a = some s' → a.exec? ≠ some e →
        s'.db.row h.job = s.db.row h.job ∧ a.claims? s ≠ some h.job := by
  have wf := ledgerWf_of_reaches hrun
  obtain ⟨r, hrow, hstatus, hlease⟩ := wf.runsFor he hphase
  refine ⟨⟨r, hrow, hstatus, hlease⟩, wf.ownRow_of_owning he hphase,
    fun a s' hstep hother => ⟨wf.row_of_owned he hphase hother hstep, fun hclaims => ?_⟩⟩
  have hnone : s.claimableRow h.job = none := by
    simp [State.claimableRow, hrow, hstatus, JobStatus.claimable]
  unfold Act.claims? at hclaims
  split at hclaims
  · split at hclaims
    · rename_i hsome
      rw [Option.some.inj hclaims, hnone] at hsome
      cases hsome
    · cases hclaims
  · cases hclaims

open Script in
/-- One worker dies before its claim, and the reaper rescues the job; the next one claims
it and is not robbed. -/
theorem owner_not_robbed_rescued :
    ∃ s, Reaches defaults CarefulWorld s ∧ (s.ownRow defaults ⟨job 1, 0, 1, 5⟩).isSome = true := by
  have hrun : ∃ s, Reaches defaults CarefulWorld s ∧
      ∃ e ∈ s.execs, e.pc.phase = .owning ⟨job 1, 0, 1, 5⟩ :=
    exists_run_of_play
      (start ['a'] ++ start ['b'] ++ submit (job 1) ++ takes ['a'] 1 ++ dies ['a'] ++
        [.act .startSched] ++ reaps ['a'] 6 ++ takes ['b'] 2)
      (by decide +kernel)
  obtain ⟨s, hs, e, he, hphase⟩ := hrun
  exact ⟨s, hs, (owner_not_robbed hs he hphase).2.1⟩

open Script in
/-- A worker dies between its `ZADD` and its `LREM`. The retry is promoted, a second worker
claims the job, and the reaper requeues it because the dead worker's list names it. A
third worker claims it too, and the second one is fenced out. -/
theorem owner_robbed_after_promotion :
    ∃ s, Reaches defaults (fun s a => FreshIds s a ∧ a.isFault = a.isKill) s ∧
      s.scheds.length = 1 ∧ (∃ e ∈ s.execs, e.pc.phase = .owning ⟨job 1, 1, 2, 5⟩ ∧
        (s.procs e.worker).isRunning = true) ∧
      s.ownRow defaults ⟨job 1, 1, 2, 5⟩ = none :=
  exists_run_of_play
    (start ['a'] ++ start ['b'] ++ start ['c'] ++ submit (job 1) ++ throws ['a'] 2 ++ dies ['a'] ++
      [.act .startSched, .act (.tick 60000000)] ++ List.replicate 5 (.sched .next) ++
      takes ['b'] 2 ++ [.sched .recover, .sched (.visit ['a']), .sched (.visit ['b'])] ++
      List.replicate 6 (.sched .next) ++ takes ['c'] 2)
    (by decide +kernel)

end QueueFlow
