-- SUMMARY: next_run_at and completed_at agree with the status exactly as long as every UPDATE finds a status whose columns it sets.
import QueueFlow.Rows.Moves
import QueueFlow.Script

/-!
# Columns that belong to a status

`next_run_at` belongs to `'retrying'` and `completed_at` to `'succeeded'` and
`'dead'`. Each UPDATE sets the columns of the status it writes, but only some clear
those of the status they find, so that the columns agree with the status as long as
the other statements find none to clear.
-/

namespace QueueFlow

open Transition

/-- `completed_at` belongs to the status. -/
def JobStatus.completed : JobStatus → Bool
  | .succeeded | .dead => true
  | _ => false

/-- `next_run_at` and `completed_at` are set in the statuses that they belong to, and only
there. -/
structure JobRow.Agrees (r : JobRow) : Prop where
  nextRunAt : r.nextRunAt.isSome = true ↔ r.status = .retrying
  completedAt : r.completedAt.isSome = true ↔ r.status = .succeeded ∨ r.status = .dead

/-- The columns of every row agree with its status. -/
def State.ColumnsAgree (s : State) : Prop := ∀ job r, s.db.row job = some r → r.Agrees

/-! ## Statements that clear no column -/

/-- The claim and the success transaction keep `next_run_at`, the park keeps `completed_at`. -/
def ExecPc.FitsColumns (cfg : Config) (s : State) : ExecPc → Prop
  | .claim job _ => ∀ r ∈ s.claimableRow job, r.status ≠ .retrying
  | .txCommit h _ => ∀ r ∈ s.ownRow cfg h, r.status ≠ .retrying
  | .park h _ _ => ∀ r ∈ s.ownRow cfg h, r.status.completed = false
  | _ => True

/-- The promotion keeps `completed_at`, the `'queued'` write of the reaper keeps both. -/
def Sched.FitsColumns (s : State) : Sched → Prop
  | .promoteUpdate id _ => ∀ job ∈ uuidIn id, ∀ r ∈ s.db.row job, r.status.completed = false
  | .reapRequeue _ id _ => ∀ job ∈ uuidIn id, ∀ r ∈ s.db.row job,
      r.status.completed = false ∧ r.status ≠ .retrying
  | _ => True

/-- No statement finds a status whose columns it leaves behind. -/
def FitsColumns (cfg : Config) (s : State) : Act → Prop
  | .exec e _ | .execFail e true _ _ => e.pc.FitsColumns cfg s
  | .sched σ _ => σ.FitsColumns s
  | _ => True

instance (cfg : Config) (s : State) (pc : ExecPc) : Decidable (pc.FitsColumns cfg s) := by
  induction pc using ExecPc.casesOn with
  | claim | txCommit | park => exact inferInstanceAs (Decidable (∀ _ ∈ (_ : Option JobRow), _))
  | _ => exact .isTrue trivial

instance (s : State) (σ : Sched) : Decidable (σ.FitsColumns s) := by
  induction σ using Sched.casesOn with
  | promoteUpdate | reapRequeue => exact inferInstanceAs (Decidable (∀ _ ∈ uuidIn _, _))
  | _ => exact .isTrue trivial

instance (cfg : Config) (s : State) (a : Act) : Decidable (FitsColumns cfg s a) := by
  induction a using Act.casesOn with
  | exec e => exact inferInstanceAs (Decidable (e.pc.FitsColumns cfg s))
  | execFail e took =>
      induction took using Bool.casesOn with
      | true => exact inferInstanceAs (Decidable (e.pc.FitsColumns cfg s))
      | false => exact .isTrue trivial
  | sched σ => exact inferInstanceAs (Decidable (σ.FitsColumns s))
  | _ => exact .isTrue trivial

section

variable {cfg : Config} {s s' : State} {a : Act} {job : Uuid} {r r' : JobRow}

theorem FitsColumns.exec {e : Exec} (hfits : FitsColumns cfg s a) (ha : a.effective? = some e) :
    e.pc.FitsColumns cfg s := by
  rcases Act.effective?_eq_some ha with ⟨o, rfl⟩ | ⟨message, random, rfl⟩ <;> exact hfits

theorem State.ownRow_eq_some {h : Holding} (hrow : s.db.row h.job = some r)
    (hlease : cfg.fencing = true → r.leaseId = some h.lease) : s.ownRow cfg h = some r := by
  refine Option.filter_eq_some_iff.mpr ⟨hrow, ?_⟩
  by_cases hfence : cfg.fencing = true <;> simp [ownsRow, hfence, hlease]

theorem JobStatus.completed_eq_false {st : JobStatus} :
    st.completed = false ↔ ¬ (st = .succeeded ∨ st = .dead) := by
  cases st <;> simp [JobStatus.completed]

/-- The row a statement writes agrees when the row it finds does and fits it. -/
theorem RowMove.agrees (h : RowMove cfg s a job r r') (hrow : s.db.row job = some r)
    (hr : r.Agrees) (hfits : FitsColumns cfg s a) : r'.Agrees := by
  obtain ⟨hnext, hcompleted⟩ := hr
  cases h with
  | same => exact ⟨hnext, hcompleted⟩
  | replayed | buried | reapBuried => exact ⟨by simp [JobRow.replayed, JobRow.buried], by
      simp [JobRow.replayed, JobRow.buried]⟩
  | claimed e m he ha hpc hclaimable =>
      have hfits := hfits.exec ha
      rw [hpc] at hfits
      have hne := hfits r (Option.filter_eq_some_iff.mpr ⟨hrow, hclaimable⟩)
      have hnot : r.status.completed = false := by
        cases hst : r.status <;> simp_all [JobStatus.claimable, JobStatus.completed]
      exact ⟨by simp [JobRow.claimed, hnext, hne],
        by simpa [JobRow.claimed, hcompleted] using JobStatus.completed_eq_false.mp hnot⟩
  | settled e h began he ha hpc hjob hlease =>
      have hfits := hfits.exec ha
      rw [hpc] at hfits
      have hne := hfits r (State.ownRow_eq_some (hjob ▸ hrow) hlease)
      exact ⟨by simp [JobRow.succeeded, hnext, hne], by simp [JobRow.succeeded]⟩
  | parked e h message runAt he ha hpc hjob hlease =>
      have hfits := hfits.exec ha
      rw [hpc] at hfits
      have hnot := hfits r (State.ownRow_eq_some (hjob ▸ hrow) hlease)
      exact ⟨by simp [JobRow.parked],
        by simpa [JobRow.parked, hcompleted] using JobStatus.completed_eq_false.mp hnot⟩
  | promoted id due pick hσ ha hid =>
      subst ha
      have hnot := hfits job hid r hrow
      exact ⟨by simp [JobRow.promoted],
        by simpa [JobRow.promoted, hcompleted] using JobStatus.completed_eq_false.mp hnot⟩
  | reapRequeued key id keys pick hσ ha hid =>
      subst ha
      obtain ⟨hnot, hne⟩ := hfits job hid r hrow
      exact ⟨by simp [JobRow.requeued, hnext, hne],
        by simpa [JobRow.requeued, hcompleted] using JobStatus.completed_eq_false.mp hnot⟩
  | reset w c stranded deadline ha hp hstranded =>
      have hrunning := running_of_strandedRow hstranded
      exact ⟨by simp [JobRow.requeued, hnext, hrunning],
        by simp [JobRow.requeued, hcompleted, hrunning]⟩

theorem State.ColumnsAgree.step (agree : s.ColumnsAgree) (lease : LeaseWf cfg s)
    (hfits : FitsColumns cfg s a) (h : QueueFlow.step cfg s a = some s') : s'.ColumnsAgree := by
  intro job r' hrow'
  rcases row_cases lease h hrow' with ⟨key, g, -, -, rfl⟩ | ⟨r, hrow, hmove⟩
  · exact ⟨by simp [JobRow.inserted], by simp [JobRow.inserted]⟩
  · exact hmove.agrees hrow (agree job r hrow) hfits

/-! ## Statements that leave a column behind -/

/-- A command of an execution that leaves the columns in agreement has found them so. -/
private theorem fits_of_effective {e : Exec} (agree : s.ColumnsAgree) (agree' : s'.ColumnsAgree)
    (h : step cfg s a = some s') (ha : a.effective? = some e) : e.pc.FitsColumns cfg s := by
  have hdb := db_of_effective h ha
  cases hpc : e.pc with
  | claim job m =>
      rw [hpc] at hdb
      intro r hr hretry
      have hrow := (State.claimableRow_some hr).1
      have hrow' := Db.row_updateRow_self (Db.keepsId_claimed s.db.nextLease s.now) hrow
      have hnext := (agree' job _ ((congrArg (Db.row · job) (hdb r hr)).trans hrow')).nextRunAt.mp
        ((agree job r hrow).nextRunAt.mpr hretry)
      cases hnext
  | txCommit hold began =>
      rw [hpc] at hdb
      intro r hr hretry
      have hrow := (State.ownRow_some hr).1
      have hrow' := Db.row_updateRow_self (Db.keepsId_succeeded began) hrow
      have hnext := (agree' hold.job _ ((congrArg (Db.row · hold.job) hdb).trans hrow')).nextRunAt.mp
        ((agree hold.job r hrow).nextRunAt.mpr hretry)
      cases hnext
  | park hold message runAt =>
      rw [hpc] at hdb
      intro r hr
      have hrow := (State.ownRow_some hr).1
      have hrow' := Db.row_updateRow_self (Db.keepsId_parked message runAt) hrow
      refine JobStatus.completed_eq_false.mpr fun hst => ?_
      have hcompleted := (agree' hold.job _
        ((congrArg (Db.row · hold.job) (hdb r hr)).trans hrow')).completedAt.mp
          ((agree hold.job r hrow).completedAt.mpr hst)
      simp [JobRow.parked] at hcompleted
  | _ => trivial

private theorem fits_of_sched {σ : Sched} {pick : Pick} (agree : s.ColumnsAgree)
    (agree' : s'.ColumnsAgree) (h : schedule cfg s σ pick = some s') : σ.FitsColumns s := by
  cases σ with
  | promoteUpdate id due =>
      intro job hid r hrow
      simp only [schedule, promoteDue, Option.mem_def.mp hid] at h
      split at h <;> cases h
      have hrow' := Db.row_updateRow_self Db.keepsId_promoted hrow
      refine JobStatus.completed_eq_false.mpr fun hst => ?_
      have hcompleted := (agree' job _ hrow').completedAt.mp ((agree job r hrow).completedAt.mpr hst)
      simp [JobRow.promoted] at hcompleted
  | reapRequeue key id keys =>
      intro job hid r hrow
      simp only [schedule, reapDead, Option.mem_def.mp hid] at h
      split at h <;> cases h
      have hrow' := Db.row_updateRow_self Db.keepsId_requeued hrow
      refine ⟨JobStatus.completed_eq_false.mpr fun hst => ?_, fun hretry => ?_⟩
      · have hcompleted := (agree' job _ hrow').completedAt.mp
          ((agree job r hrow).completedAt.mpr hst)
        simp [JobRow.requeued] at hcompleted
      · cases (agree' job _ hrow').nextRunAt.mp ((agree job r hrow).nextRunAt.mpr hretry)
  | _ => trivial

theorem fitsColumns_of_agree (agree : s.ColumnsAgree) (agree' : s'.ColumnsAgree)
    (h : step cfg s a = some s') : FitsColumns cfg s a := by
  cases a with
  | exec => exact fits_of_effective agree agree' h rfl
  | execFail e took =>
      cases took with
      | true => exact fits_of_effective agree agree' h rfl
      | false => trivial
  | sched =>
      obtain ⟨-, h⟩ := Option.ite_none_right_eq_some.mp h
      exact fits_of_sched agree agree' h
  | _ => trivial

/-! ## Runs -/

/-- In every run whose statements clear the columns of the status they find, the columns of
every row agree with its status. From there one more step keeps them in agreement exactly if
its statement does so too. -/
theorem columns_agree (hrun : Reaches cfg (FitsColumns cfg) s) :
    s.ColumnsAgree ∧ ∀ a s', step cfg s a = some s' → (s'.ColumnsAgree ↔ FitsColumns cfg s a) := by
  have hagree : s.ColumnsAgree := by
    refine (hrun.invariant (P := fun s => LeaseWf cfg s ∧ s.ColumnsAgree) ⟨.init, nofun⟩ ?_).2
    exact fun t a u ⟨lease, agree⟩ hfits h => ⟨lease.step h, agree.step lease hfits h⟩
  have lease := leaseWf_of_reaches hrun
  exact ⟨hagree, fun a s' h => ⟨fun agree' => fitsColumns_of_agree hagree agree' h,
    fun hfits => hagree.step lease hfits h⟩⟩

end

open Script in
/-- A failed attempt is parked and promoted, and the second one succeeds. -/
theorem columns_agree_retried : ∃ s, Reaches defaults (FitsColumns defaults) s ∧
    (s.db.row (job 1)).any (fun r => r.status = .succeeded) = true ∧ s.ColumnsAgree := by
  have hrun : ∃ s, Reaches defaults (FitsColumns defaults) s ∧
      (s.db.row (job 1)).any (fun r => r.status = .succeeded) = true :=
    exists_run_of_play
      (start ['a'] ++ submit (job 1) ++ throws ['a'] 3 ++
        [.act .startSched, .act (.tick 60000000)] ++ List.replicate 5 (.sched .next) ++ takes ['a'] 8)
      (by decide +kernel)
  obtain ⟨s, hs, hrow⟩ := hrun
  exact ⟨s, hs, hrow, (columns_agree hs).1⟩

open Script in
/-- A worker is killed between its `ZADD` and its `LREM` and restarted under its id. It moves the
entry back to the pending list, and the row is claimed while it is `'retrying'`. -/
theorem running_with_next_run_at : ∃ s, Reaches defaults always s ∧
    ∃ r ∈ s.db.row (job 1), r.status = .running ∧ r.nextRunAt.isSome = true :=
  exists_run_of_play
    (start ['a'] ++ submit (job 1) ++ throws ['a'] 2 ++ dies ['a'] ++
      [.act (.spawn ['a'] 5)] ++ List.replicate 6 (.act (.recoverOwn ['a'] false)) ++ takes ['a'] 2)
    (by decide +kernel)

end QueueFlow
