-- SUMMARY: In a steady world a running job is in the hands of its owner or has an entry that a recovery will find.
import QueueFlow.Recovery.World
import QueueFlow.Fencing.Lease

/-!
# Custody of running jobs

A row that is 'running' carries the lease of the claim that it runs under. `CustodyWf`
says that either the execution of that claim goes on, or the entry of one that ended
early lies in a processing list, where a recovery will find it before it is taken off:
the reaper does not release the entry of a job that runs, and a restarted worker resets
the job before it moves the entry.
-/

namespace QueueFlow

open Transition

/-- `recoverOwnProcessing` has reset the jobs of the list. -/
def Proc.hasReset : Proc → Bool
  | .starting .moveAll _ => true
  | .starting .firstBeat _ => true
  | _ => false

theorem Proc.hasReset_of_isRunning {p : Proc} (h : p.isRunning = true) : p.hasReset = false := by
  cases p <;> first | rfl | cases h

namespace State

/-- An execution owns the job under the lease of the row. -/
def OwnedBy (s : State) (job : Uuid) (r : JobRow) : Prop :=
  ∃ e ∈ s.execs, ∃ h, e.pc.phase = .owning h ∧ h.job = job ∧ r.leaseId = some h.lease

/-- An entry of the job that belongs to no execution is in a list, and no recovery is about
to take it off. -/
def Kept (s : State) (job : Uuid) : Prop :=
  ∃ k, Names k.2 job ∧ s.Spare k ∧ (∀ σ ∈ s.scheds, σ.releasing ≠ some k) ∧
    (s.procs k.1).hasReset = false

end State

/-- Every running job is in custody. -/
def CustodyWf (s : State) : Prop :=
  ∀ job r, s.db.row job = some r → r.status = .running → s.OwnedBy job r ∨ s.Kept job

variable {cfg : Config} {s s' : State} {a : Act} {job : Uuid} {r : JobRow}

theorem CustodyWf.init : CustodyWf .init := by
  intro job r h
  simp [State.init, Db.empty, Db.row] at h

/-- The entry of an execution that owns a job names the job. -/
theorem names_of_owning (lease : LeaseWf cfg s) (world : WorldWf s) {e : Exec} {h : Holding}
    (he : e ∈ s.execs) (hphase : e.pc.phase = .owning h) : Names e.id h.job :=
  ⟨world.accepted e he (by rw [hphase]; nofun),
    lease.named e he _ (ExecPc.job?_of_holding? (ExecPc.holding?_of_owning hphase))⟩

/-- The entry that a running job came with, or was left with, is in a list. -/
theorem CustodyWf.entry (custody : CustodyWf s) (lease : LeaseWf cfg s) (world : WorldWf s)
    (hrow : s.db.row job = some r) (hrun : r.status = .running) :
    ∃ k ∈ s.redis.processing, Names k.2 job := by
  rcases custody job r hrow hrun with ⟨e, he, h, hphase, rfl, -⟩ | ⟨k, hnames, hspare, -⟩
  · exact ⟨_, world.entry_mem he, names_of_owning lease world he hphase⟩
  · exact ⟨k, hspare.mem, hnames⟩

/-! ## The owner goes on or leaves its entry -/

/-- The row of a running job is not one that an UPDATE has just set to another status. -/
private theorem job_ne_of_written {job' : Uuid} {set : JobRow → JobRow} (hid : Db.KeepsId set)
    (hset : ∀ r, (set r).status ≠ .running) (hrun : r.status = .running)
    (hrow : (s.db.updateRow job' set).row job = some r) : job ≠ job' := by
  rintro rfl
  rw [Db.row_updateRow hid, if_pos rfl] at hrow
  obtain ⟨r₀, -, rfl⟩ := Option.map_eq_some_iff.mp hrow
  exact hset r₀ hrun

/-- An entry whose worker had a running process, and that belongs to no execution any
more, is safe: the reaper is not at its list, and the worker is not starting. -/
private theorem kept_of_left (world : WorldWf s) {e : Exec} (he : e ∈ s.execs)
    (hnames : Names e.id job) (hspare : s'.Spare e.key) (hscheds : s'.scheds = s.scheds)
    (hprocs : (s'.procs e.worker).hasReset = false) : s'.Kept job := by
  refine ⟨e.key, hnames, hspare, fun σ hσ hk => ?_, hprocs⟩
  have hgone := world.reaped σ (hscheds ▸ hσ) e.worker
    (Sched.reaping_of_judging (Sched.judging_of_releasing hk))
  have hrun := world.hosted e he
  rw [hgone] at hrun
  cases hrun

/-- The owner of a job whose row stays as it is goes on owning it, or fails and leaves its
entry behind. -/
private theorem custody_of_move (lease : LeaseWf cfg s) (world : WorldWf s) {e : Exec} {h : Holding}
    (hstep : step cfg s a = some s') (ha : a.exec? = some e) (hphase : e.pc.phase = .owning h)
    (hlease : r.leaseId = some h.lease) (hrow : s.db.row h.job = some r)
    (hrow' : s'.db.row h.job = some r) (hrun : r.status = .running) :
    s'.OwnedBy h.job r ∨ s'.Kept h.job := by
  have hgoes {pc : ExecPc} (hexecs : s'.execs = Bag.swap s.execs e { e with pc })
      (hpc : pc.phase = .owning h) : s'.OwnedBy h.job r ∨ s'.Kept h.job :=
    .inl ⟨{ e with pc }, by rw [hexecs]; exact Bag.mem_swap_self, h, hpc, rfl, hlease⟩
  have hleft (he : e ∈ s.execs) (hexecs : s'.execs = s.execs.erase e)
      (hprocessing : s'.redis.processing = s.redis.processing) (hscheds : s'.scheds = s.scheds)
      (hprocs : s'.procs = s.procs) : s'.OwnedBy h.job r ∨ s'.Kept h.job :=
    .inr (kept_of_left world he (names_of_owning lease world he hphase)
      (spare_of_ended world he hexecs hprocessing) hscheds
      (by rw [hprocs]; exact Proc.hasReset_of_isRunning (world.hosted e he)))
  have hpc_eq {h' : Holding} (hpc : e.pc.phase = .owning h') : h' = h := by
    rw [hphase] at hpc
    cases hpc
    rfl
  cases a with
  | exec e o =>
      cases ha
      obtain ⟨he, hmove⟩ := Option.ite_none_right_eq_some.mp hstep
      cases processOne_cases hmove with
      | letGo hpc => rw [hphase] at hpc; cases hpc
      | rejected hpc | found _ _ hpc | missing _ hpc | notClaimable _ _ hpc | claimed _ _ _ hpc
      | zadded _ _ hpc => rw [hpc] at hphase; cases hphase
      | work h' pc hpc _ hpc' => exact hgoes rfl (hpc_eq hpc ▸ hpc')
      | lock h' _ _ hpc | unowned h' _ hpc | insert h' _ hpc =>
          exact hgoes rfl (hpc_eq (congrArg ExecPc.phase hpc) ▸ rfl)
      | settled h' began hpc =>
          obtain rfl := hpc_eq (congrArg ExecPc.phase hpc)
          exact absurd rfl
            (job_ne_of_written (Db.keepsId_succeeded began) (fun _ => nofun) hrun hrow')
      | buried h' _ _ hpc =>
          obtain rfl := hpc_eq (congrArg ExecPc.phase hpc)
          exact absurd rfl (job_ne_of_written (Db.keepsId_buried _ _) (fun _ => nofun) hrun hrow')
      | parked h' _ _ _ hpc =>
          obtain rfl := hpc_eq (congrArg ExecPc.phase hpc)
          exact absurd rfl (job_ne_of_written (Db.keepsId_parked _ _) (fun _ => nofun) hrun hrow')
      | fenced h' hpc hnot =>
          -- The row still carries the lease of this execution.
          obtain rfl := hpc_eq hpc
          rcases hnot with hnone | hroll
          · have hown : (s.ownRow cfg h').isSome = true :=
              State.ownRow_isSome.mpr ⟨r, hrow, fun _ => hlease⟩
            rw [hnone] at hown
            cases hown
          · exact absurd hlease (lease.superseded e he h' hroll r hrow)
  | execFail e took =>
      cases ha
      obtain ⟨he, hmove⟩ := Option.ite_none_right_eq_some.mp hstep
      cases fails_cases hmove with
      | lost | buried | parked => exact hleft he rfl rfl rfl rfl
      | released _ hpc | claimed _ _ _ hpc | zadded _ _ hpc => rw [hpc] at hphase; cases hphase
      | caught h' pc hpc hpc' => exact hgoes rfl (hpc_eq hpc ▸ hpc')
      | settled h' began pc _ hpc =>
          obtain rfl := hpc_eq (congrArg ExecPc.phase hpc)
          exact absurd rfl
            (job_ne_of_written (Db.keepsId_succeeded began) (fun _ => nofun) hrun hrow')
  | _ => cases ha

theorem owned_of_step (lease : LeaseWf cfg s) (world : WorldWf s) (h : step cfg s a = some s')
    (hrow : s.db.row job = some r) (hrow' : s'.db.row job = some r) (hrun : r.status = .running)
    (howned : s.OwnedBy job r) : s'.OwnedBy job r ∨ s'.Kept job := by
  obtain ⟨e, he, hold, hphase, rfl, hlease⟩ := howned
  rcases mem_execs_of_step h he with he' | ha | rfl
  · exact .inl ⟨e, he', hold, hphase, rfl, hlease⟩
  · exact custody_of_move lease world h ha hphase hlease hrow hrow' hrun
  · cases kill_cases h
    refine .inr (kept_of_left world he (names_of_owning lease world he hphase)
      (spare_of_killed world he) rfl ?_)
    simp [Proc.hasReset]

/-! ## An entry that was left is kept -/

/-- A worker comes to move the entries of its list only after it has reset their rows. -/
private theorem hasReset_of_start (world : WorldWf s) {w : WorkerId} {deadline : Bool}
    (hdeadline : deadline = true → w ∉ s.redis.alive) (h : StartMove s w deadline s')
    {k : WorkerId × Text} (hk : k ∈ s.redis.processing) (hnames : Names k.2 job)
    (hrow : s.db.row job = some r) (hrow' : s'.db.row job = some r) (hrun : r.status = .running)
    (hw : (s'.procs k.1).hasReset = true) : (s.procs k.1).hasReset = true := by
  -- A worker that is about to reset its list has the entry in it.
  have hlist : k.2 ∈ (s.redis.lrange k.1).filter isUuid :=
    List.mem_filter.mpr ⟨KeyedList.mem_get.mpr hk, hnames.1⟩
  have hother {p : Proc} (hprocs : s'.procs = Function.update s.procs w p)
      (hself : k.1 = w → (s.procs w).hasReset = true) : (s.procs k.1).hasReset = true := by
    by_cases heq : k.1 = w
    · rw [heq]
      exact hself heq
    · rwa [hprocs, Function.update_of_ne heq] at hw
  cases h with
  | wait | moved => exact hw
  | refrain c' hp halive hend => exact absurd halive (hdeadline hend)
  | proceed c' hp | read c' hp =>
      refine hother rfl fun heq => ?_
      rw [State.setProc_procs, heq, Function.update_self] at hw
      cases hw
  | nothing c' hp hempty =>
      refine hother rfl fun heq => ?_
      rw [heq, hempty] at hlist
      cases hlist
  | reset c' ids hp =>
      refine hother rfl fun heq => ?_
      -- The UPDATE has just reset the row of the job.
      rw [heq, ← world.stranded _ ids _ hp] at hlist
      have hrow' : (s.db.update (strandedRow ids) .requeued).row job = some r := hrow'
      have hstranded : strandedRow ids r = true := by
        simp only [strandedRow, Bool.and_eq_true, List.any_eq_true, decide_eq_true_eq]
        exact ⟨⟨k.2, hlist, by rw [Db.id_of_row hrow]; exact hnames.2⟩, hrun⟩
      rw [Db.row_update Db.keepsId_requeued, hrow, Option.map_some, if_pos hstranded] at hrow'
      rw [← Option.some.inj hrow'] at hrun
      cases hrun
  | done c' hp => exact hother rfl fun _ => by rw [hp]; rfl
  | beat c' hp => exact hother rfl fun _ => by rw [hp]; rfl

private theorem hasReset_of_step (world : WorldWf s) (hok : Steady s a) (h : step cfg s a = some s')
    {k : WorkerId × Text} (hk : k ∈ s.redis.processing) (hnames : Names k.2 job)
    (hrow : s.db.row job = some r) (hrow' : s'.db.row job = some r) (hrun : r.status = .running)
    (hw : (s'.procs k.1).hasReset = true) : (s.procs k.1).hasReset = true := by
  rcases procs_of_step h with heq | ⟨w, p, -, -, heq⟩ | ⟨w, -, heq⟩ | ⟨w, deadline, rfl, hmove⟩
  · rwa [← heq]
  · rw [heq, Function.update_apply] at hw
    split at hw
    · cases hw
    · exact hw
  · rw [heq, Function.update_apply] at hw
    split at hw
    · cases hw
    · exact hw
  · exact hasReset_of_start world hok hmove hk hnames hrow hrow' hrun hw

theorem kept_of_step (world : WorldWf s) (hok : Steady s a) (h : step cfg s a = some s')
    (hrow : s.db.row job = some r) (hrow' : s'.db.row job = some r) (hrun : r.status = .running)
    (hkept : s.Kept job) : s'.Kept job := by
  obtain ⟨k, ⟨hid, hjob⟩, hspare, hfree, hreset⟩ := hkept
  have hrec : a.recovers s ≠ some k := by
    intro hrec
    rcases world.recovers_cases h hrec with ⟨⟨c, hp⟩, -⟩ | ⟨σ, hσ, hk⟩
    · rw [hp] at hreset
      cases hreset
    · exact hfree σ hσ hk
  refine ⟨k, ⟨hid, hjob⟩, spare_of_step h hspare hrec, fun σ hσ hk => ?_, ?_⟩
  · -- When the reaper is about to release an entry, the row that it read or wrote says why.
    rcases releasing_of_step h hσ hk with hσ | hno | ⟨job', hjob', ⟨-, -, -, hstale⟩ | hwritten⟩
    · exact hfree σ hσ hk
    · rw [hid] at hno
      cases hno
    all_goals
      obtain rfl : job = job' := Option.some.inj (hjob.symm.trans hjob')
    · rcases hstale r hrow with h | h <;> rw [hrun] at h <;> cases h
    · rcases hwritten r hrow' with h | h <;> rw [hrun] at h <;> cases h
  · by_contra hw
    rw [hasReset_of_step world hok h hspare.mem ⟨hid, hjob⟩ hrow hrow' hrun (by simpa using hw)]
      at hreset
    cases hreset

/-! ## Every step keeps custody -/

/-- A job that has just been claimed is owned by the execution that claimed it, or the
reply to its claim was lost and its entry is left. -/
theorem custody_of_claim (lease : LeaseWf cfg s) (world : WorldWf s) {e : Exec} {m : Nat}
    (h : step cfg s a = some s') (he : e ∈ s.execs) (ha : a.exec? = some e)
    (hpc : e.pc = .claim job m) (hsome : (s.claimableRow job).isSome = true)
    (hlease : r.leaseId = some s.db.nextLease) : s'.OwnedBy job r ∨ s'.Kept job := by
  have hclaimable : s.claimableRow job ≠ none := Option.isSome_iff_ne_none.mp hsome
  cases a with
  | exec e' o =>
      cases ha
      obtain ⟨-, h⟩ := Option.ite_none_right_eq_some.mp h
      cases processOne_cases h with
      | claimed job' m' r' hpc' =>
          rw [hpc] at hpc'
          cases hpc'
          exact .inl ⟨_, Bag.mem_swap_self, _, rfl, rfl, hlease⟩
      | notClaimable job' m' hpc' hnone =>
          rw [hpc] at hpc'
          cases hpc'
          exact absurd hnone hclaimable
      | letGo hpc' | work _ _ hpc' | fenced _ hpc' => rw [hpc] at hpc'; cases hpc'
      | rejected hpc' | found _ _ hpc' | missing _ hpc' | lock _ _ _ hpc' | unowned _ _ hpc'
      | insert _ _ hpc' | settled _ _ hpc' | buried _ _ _ hpc' | parked _ _ _ _ hpc'
      | zadded _ _ hpc' => rw [hpc] at hpc'; cases hpc'
  | execFail e took =>
      cases ha
      obtain ⟨-, h⟩ := Option.ite_none_right_eq_some.mp h
      have hnames : Names e.id job :=
        ⟨world.accepted e he (by rw [hpc]; nofun), lease.named e he job (by rw [hpc]; rfl)⟩
      have hended (hexecs : s'.execs = s.execs.erase e)
          (hprocessing : s'.redis.processing = s.redis.processing) (hscheds : s'.scheds = s.scheds)
          (hprocs : s'.procs = s.procs) : s'.OwnedBy job r ∨ s'.Kept job :=
        .inr (kept_of_left world he hnames (spare_of_ended world he hexecs hprocessing) hscheds
          (by rw [hprocs]; exact Proc.hasReset_of_isRunning (world.hosted e he)))
      cases fails_cases h with
      | lost | claimed | buried | parked | zadded => exact hended rfl rfl rfl rfl
      | released _ hpc' | settled _ _ _ _ hpc' => rw [hpc] at hpc'; cases hpc'
      | caught _ _ hpc' => rw [hpc] at hpc'; cases hpc'
  | _ => cases ha

/-- Every step of a steady world keeps running jobs in custody. -/
theorem CustodyWf.step (custody : CustodyWf s) (lease : LeaseWf cfg s) (world : WorldWf s)
    (hok : Steady s a) (h : QueueFlow.step cfg s a = some s') : CustodyWf s' := by
  intro job r hrow' hrun
  rcases running_cases h hrow' hrun with hrow | ⟨e, m, he, ha, hpc, hsome, hlease, -⟩
  · rcases custody job r hrow hrun with howned | hkept
    · exact owned_of_step lease world h hrow hrow' hrun howned
    · exact .inr (kept_of_step world hok h hrow hrow' hrun hkept)
  · exact custody_of_claim lease world h he ha hpc hsome hlease

end QueueFlow
