-- SUMMARY: attempts counts the claims since the last replay, and stays within max_attempts while no UPDATE returns a spent row.
import QueueFlow.Rows.Holdings
import QueueFlow.Script

/-!
# The retry budget

The claim counts an attempt and does not look at the limit, so that every statement
that makes a row claimable again has to. The reaper and the catch block compare the
attempts with the limit; `recoverOwnProcessing` does not, and the UPDATEs of the
promoter and of the reaper set a row that may have been claimed since it was read.
-/

namespace QueueFlow

open Transition

/-! ## Counting claims -/

/-- The successful claims of a job. -/
def State.claimsOf (s : State) (job : Uuid) : Nat := s.claims.countP fun c => c.job = job

/-- The dead job that a replay sets back. -/
def Act.replays? (s : State) : Act → Option Uuid
  | .api (.replay id) _ => (uuidIn id).filter fun job => (s.deadRow job).isSome
  | _ => none

/-- Counts the successful claims of each job since its creation or its last replay. -/
def claimsSinceReplay (s : State) (a : Act) (s' : State) (n : Uuid → Nat) : Uuid → Nat := fun job =>
  if a.replays? s = some job then 0 else n job + (s'.claimsOf job - s.claimsOf job)

section

variable {cfg : Config} {s s' : State} {a : Act} {job : Uuid} {r r' : JobRow} {n : Uuid → Nat}

theorem replays?_eq_some : a.replays? s = some job ↔ ∃ id g, a = .api (.replay id) g ∧
    uuidIn id = some job ∧ ∃ r, s.db.row job = some r ∧ r.status = .dead := by
  constructor
  · intro h
    unfold Act.replays? at h
    split at h
    · rename_i id g
      obtain ⟨hid, hdead⟩ := Option.filter_eq_some_iff.mp h
      obtain ⟨r, hr⟩ := Option.isSome_iff_exists.mp hdead
      obtain ⟨hrow, hst⟩ := Option.filter_eq_some_iff.mp hr
      exact ⟨id, g, rfl, hid, r, hrow, by simpa using hst⟩
    · cases h
  · rintro ⟨id, g, rfl, hid, r, hrow, hst⟩
    have hdead : s.deadRow job = some r := Option.filter_eq_some_iff.mpr ⟨hrow, by simp [hst]⟩
    exact Option.filter_eq_some_iff.mpr ⟨hid, by rw [hdead]; rfl⟩

/-- A replay that finds its row dead sets it, and does nothing else to the database. -/
theorem db_of_replay (hstep : step cfg s a = some s') (ha : a.replays? s = some job) :
    s'.db = s.db.updateRow job .replayed ∧ s'.claims = s.claims := by
  obtain ⟨id, g, rfl, hid, r, hrow, hst⟩ := replays?_eq_some.mp ha
  have hdead : s.deadRow job = some r := Option.filter_eq_some_iff.mpr ⟨hrow, by simp [hst]⟩
  obtain ⟨-, hstep⟩ := Option.ite_none_right_eq_some.mp hstep
  simp only [handle, hid, hdead] at hstep
  split at hstep <;> cases hstep
  exact ⟨rfl, rfl⟩

/-- A step records a claim together with its UPDATE, or none. -/
theorem claims_of_step (hstep : step cfg s a = some s') :
    (s'.claims = s.claims ∧ s'.db.nextLease = s.db.nextLease) ∨
      ∃ job e, (s.claimableRow job).isSome = true ∧ s'.db = s.db.claim job s.now ∧
        s'.claims = ⟨job, s.db.nextLease, Exec.worker e, Exec.id e⟩ :: s.claims := by
  have hdb := db_cases hstep
  generalize s'.db = db at hdb ⊢
  generalize s'.claims = claims at hdb ⊢
  cases hdb with
  | claimed e job m r _ _ _ _ hrow => exact .inr ⟨job, e, by rw [hrow]; rfl, rfl, rfl⟩
  | same | inserted | replayed | settled | buried | parked | promoted | reapBuried | reapRequeued
  | reset => exact .inl ⟨rfl, rfl⟩

/-- The row counts the claims since its last replay. -/
structure Counted (s : State) (n : Uuid → Nat) : Prop where
  rows : ∀ job r, s.db.row job = some r → r.attempts = n job
  missing : ∀ job, s.db.row job = none → n job = 0

theorem claimsOf_cons {c : Claim} (h : s'.claims = c :: s.claims) :
    s'.claimsOf job = s.claimsOf job + if c.job = job then 1 else 0 := by
  simp [State.claimsOf, h, List.countP_cons]

theorem claimsOf_of_claims (h : s'.claims = s.claims) : s'.claimsOf job = s.claimsOf job := by
  rw [State.claimsOf, h, State.claimsOf]

/-- A statement that is neither a claim nor a replay keeps the attempts. -/
theorem RowMove.attempts_eq (hmove : RowMove cfg s a job r r') (hrow : s.db.row job = some r)
    (hstep : step cfg s a = some s') (hreplay : a.replays? s ≠ some job)
    (hclaim : s'.db.nextLease = s.db.nextLease) : r'.attempts = r.attempts := by
  cases hmove with
  | claimed e m he ha hpc hclaimable =>
      have hdb := db_of_effective hstep ha
      rw [hpc] at hdb
      rw [hdb r (Option.filter_eq_some_iff.mpr ⟨hrow, hclaimable⟩), Db.nextLease_claim] at hclaim
      omega
  | replayed id g ha hid hdead =>
      exact absurd (replays?_eq_some.mpr ⟨id, g, ha, hid, r, hrow, hdead⟩) hreplay
  | same | settled | buried | parked | promoted | reapBuried | reapRequeued | reset => rfl

namespace Counted

theorem init : Counted .init fun _ => 0 := ⟨nofun, fun _ _ => rfl⟩

theorem step (counted : Counted s n) (lease : LeaseWf cfg s)
    (hstep : QueueFlow.step cfg s a = some s') : Counted s' (claimsSinceReplay s a s' n) where
  rows job r' hrow' := by
    by_cases hreplay : a.replays? s = some job
    · obtain ⟨-, -, -, -, r, hrow, -⟩ := replays?_eq_some.mp hreplay
      rw [(db_of_replay hstep hreplay).1, Db.row_updateRow_self Db.keepsId_replayed hrow] at hrow'
      cases hrow'
      simp [claimsSinceReplay, hreplay, JobRow.replayed]
    simp only [claimsSinceReplay, hreplay, if_false]
    rcases claims_of_step hstep with ⟨hclaims, hlease⟩ | ⟨job', e, hsome, hdb, hclaims⟩
    · rw [claimsOf_of_claims hclaims, Nat.sub_self, Nat.add_zero]
      rcases row_cases lease hstep hrow' with ⟨key, g, -, hnone, rfl⟩ | ⟨r, hrow, hmove⟩
      · exact (counted.missing job hnone).symm
      · exact (hmove.attempts_eq hrow hstep hreplay hlease).trans (counted.rows job r hrow)
    · obtain ⟨r, hr⟩ := Option.isSome_iff_exists.mp hsome
      have hrow := (State.claimableRow_some hr).1
      rw [claimsOf_cons hclaims, Nat.add_sub_cancel_left]
      by_cases hjob : job' = job
      · subst hjob
        rw [hdb, Db.row_claim, Db.row_updateRow_self (Db.keepsId_claimed _ _) hrow] at hrow'
        cases hrow'
        simp [JobRow.claimed, counted.rows job' r hrow]
      · rw [hdb, Db.row_claim, Db.row_updateRow_ne (Db.keepsId_claimed _ _) (Ne.symm hjob)] at hrow'
        simpa [hjob] using counted.rows job r' hrow'
  missing job hnone' := by
    have hnone : s.db.row job = none := by
      cases hrow : s.db.row job with
      | none => rfl
      | some r =>
          obtain ⟨r', hrow'⟩ := row_of_step hstep hrow
          rw [hnone'] at hrow'
          cases hrow'
    have hreplay : a.replays? s ≠ some job := fun h => by
      obtain ⟨-, -, -, -, r, hrow, -⟩ := replays?_eq_some.mp h
      rw [hnone] at hrow
      cases hrow
    simp only [claimsSinceReplay, hreplay, if_false, counted.missing job hnone, Nat.zero_add]
    rcases claims_of_step hstep with ⟨hclaims, -⟩ | ⟨job', e, hsome, -, hclaims⟩
    · rw [claimsOf_of_claims hclaims, Nat.sub_self]
    · have hjob : job' ≠ job := by
        rintro rfl
        simp [State.claimableRow, hnone] at hsome
      simp [claimsOf_cons hclaims, hjob]

end Counted

/-! ## Statements that return a row -/

/-- The row may be claimed once more. -/
def JobRow.HasBudget (r : JobRow) : Prop := r.attempts < r.maxAttempts

instance (r : JobRow) : Decidable r.HasBudget := inferInstanceAs (Decidable (_ < _))

/-- Without the lease, a park may set a row that another worker has claimed since. -/
def ExecPc.WithinBudget (cfg : Config) (s : State) : ExecPc → Prop
  | .park h _ _ => cfg.fencing = false → ∀ r ∈ s.db.row h.job, r.HasBudget
  | _ => True

/-- The promoter and the reaper set the row of an id. -/
def Sched.WithinBudget (s : State) : Sched → Prop
  | .promoteUpdate id _ | .reapRequeue _ id _ =>
      ∀ job ∈ uuidIn id, ∀ r ∈ s.db.row job, r.HasBudget
  | _ => True

/-- A restarting worker sets the rows of its list. -/
def StartPc.WithinBudget (s : State) : StartPc → Prop
  | .reset stranded => ∀ r ∈ s.db.jobs, strandedRow stranded r = true → r.HasBudget
  | _ => True

/-- No statement makes a row claimable whose attempts are used up. -/
def WithinBudget (cfg : Config) (s : State) : Act → Prop
  | .exec e _ | .execFail e true _ _ => e.pc.WithinBudget cfg s
  | .sched σ _ => σ.WithinBudget s
  | .recoverOwn w _ =>
      match s.procs w with
      | .starting pc _ => pc.WithinBudget s
      | _ => True
  | _ => True

instance (cfg : Config) (s : State) (pc : ExecPc) : Decidable (pc.WithinBudget cfg s) := by
  induction pc using ExecPc.casesOn with
  | park => exact inferInstanceAs (Decidable (_ → _))
  | _ => exact .isTrue trivial

instance (s : State) (σ : Sched) : Decidable (σ.WithinBudget s) := by
  induction σ using Sched.casesOn with
  | promoteUpdate | reapRequeue => exact inferInstanceAs (Decidable (∀ _ ∈ uuidIn _, _))
  | _ => exact .isTrue trivial

instance (s : State) (pc : StartPc) : Decidable (pc.WithinBudget s) := by
  induction pc using StartPc.casesOn with
  | reset => exact inferInstanceAs (Decidable (∀ _ ∈ _, _))
  | _ => exact .isTrue trivial

instance (cfg : Config) (s : State) (a : Act) : Decidable (WithinBudget cfg s a) := by
  induction a using Act.casesOn with
  | exec e => exact inferInstanceAs (Decidable (e.pc.WithinBudget cfg s))
  | execFail e took =>
      induction took using Bool.casesOn with
      | true => exact inferInstanceAs (Decidable (e.pc.WithinBudget cfg s))
      | false => exact .isTrue trivial
  | sched σ => exact inferInstanceAs (Decidable (σ.WithinBudget s))
  | recoverOwn w =>
      change Decidable (match s.procs w with
        | .starting pc _ => pc.WithinBudget s
        | _ => True)
      induction s.procs w using Proc.casesOn with
      | starting pc => exact inferInstanceAs (Decidable (pc.WithinBudget s))
      | _ => exact .isTrue trivial
  | _ => exact .isTrue trivial

theorem WithinBudget.exec {e : Exec} (hok : WithinBudget cfg s a) (ha : a.effective? = some e) :
    e.pc.WithinBudget cfg s := by
  rcases Act.effective?_eq_some ha with ⟨o, rfl⟩ | ⟨message, random, rfl⟩ <;> exact hok

/-- A row is claimable only while attempts remain. -/
structure JobRow.Bounded (r : JobRow) : Prop where
  limit : 0 < r.maxAttempts
  attempts : r.attempts ≤ r.maxAttempts
  claimable : r.status.claimable = true → r.HasBudget

theorem RowMove.bounded (hmove : RowMove cfg s a job r r') (hrow : s.db.row job = some r)
    (wf : HoldingWf s) (hr : r.Bounded) (hok : WithinBudget cfg s a) : r'.Bounded := by
  obtain ⟨hlimit, hattempts, hclaimable⟩ := hr
  have hreturned (hbudget : r.HasBudget) {r' : JobRow} (hmax : r'.maxAttempts = r.maxAttempts)
      (heq : r'.attempts = r.attempts) : r'.Bounded :=
    ⟨hmax ▸ hlimit, by omega, fun _ => by unfold JobRow.HasBudget; rwa [hmax, heq]⟩
  cases hmove with
  | same => exact ⟨hlimit, hattempts, hclaimable⟩
  | replayed => exact ⟨hlimit, Nat.zero_le _, fun _ => hlimit⟩
  | claimed e m he ha hpc hclaim => exact ⟨hlimit, hclaimable hclaim, nofun⟩
  | settled | buried | reapBuried => exact ⟨hlimit, hattempts, nofun⟩
  | parked e h message runAt he ha hpc hjob hlease =>
      refine hreturned ?_ rfl rfl
      cases hfence : cfg.fencing with
      | false =>
          have hok := hok.exec ha
          rw [hpc] at hok
          exact hok hfence r (hjob ▸ hrow)
      | true =>
          -- The attempts are those that the catch block compared with the limit.
          obtain ⟨r₀, hrow₀, hmax, hle⟩ := (wf.knows e he).held h (by rw [hpc]; rfl)
          have hjudged := wf.judged e he
          rw [hpc] at hjudged
          obtain rfl := Option.some.inj ((hjob ▸ hrow₀).symm.trans hrow)
          exact lt_of_le_of_lt (hle (hlease hfence)) (hmax ▸ hjudged)
  | promoted id due pick hσ ha hid =>
      subst ha
      exact hreturned (hok job hid r hrow) rfl rfl
  | reapRequeued key id keys pick hσ ha hid =>
      subst ha
      exact hreturned (hok job hid r hrow) rfl rfl
  | reset w c stranded deadline ha hp hstranded =>
      subst ha
      simp only [WithinBudget, hp] at hok
      exact hreturned (hok r (Db.row_mem hrow) hstranded) rfl rfl

theorem bounded_of_step (lease : LeaseWf cfg s) (wf : HoldingWf s)
    (hbounded : ∀ job r, s.db.row job = some r → r.Bounded) (hok : WithinBudget cfg s a)
    (hstep : step cfg s a = some s') : ∀ job r, s'.db.row job = some r → r.Bounded := by
  intro job r' hrow'
  rcases row_cases lease hstep hrow' with ⟨key, g, -, -, rfl⟩ | ⟨r, hrow, hmove⟩
  · exact ⟨Nat.succ_pos 4, Nat.zero_le _, fun _ => Nat.succ_pos 4⟩
  · exact hmove.bounded hrow wf (hbounded job r hrow) hok

/-- In every run the attempts of a row are the successful claims since its creation or its last
replay. Where no UPDATE makes a row claimable whose attempts are used up, they never exceed the
limit; a row at the limit is not claimed again, and a reaper that finds it running buries it. -/
theorem attempts_within_budget {ok : State → Act → Prop}
    (hrun : Observed (step cfg) ok claimsSinceReplay .init (fun _ => 0) s n)
    (hrow : s.db.row job = some r) :
    r.attempts = n job ∧ ((∀ s a, ok s a → WithinBudget cfg s a) →
      n job ≤ r.maxAttempts ∧ (n job = r.maxAttempts → r.status.claimable = false ∧
        (r.status = .running → ∀ key id keys, judge key id keys (some r) = .reapBury key id keys))) := by
  have hcounted : LeaseWf cfg s ∧ Counted s n := by
    refine hrun.invariant (P := fun s n => LeaseWf cfg s ∧ Counted s n) ⟨.init, .init⟩ ?_
    exact fun t n a u ⟨lease, counted⟩ _ hstep => ⟨lease.step hstep, counted.step lease hstep⟩
  have heq := hcounted.2.rows job r hrow
  refine ⟨heq, fun hok => ?_⟩
  have hbounded : ∀ job r, s.db.row job = some r → r.Bounded := by
    refine (hrun.run.invariant (P := fun s => (LeaseWf cfg s ∧ HoldingWf s) ∧
      ∀ job r, s.db.row job = some r → r.Bounded) ⟨⟨.init, .init⟩, nofun⟩ ?_).2
    rintro t a u ⟨⟨lease, wf⟩, hbounded⟩ ha hstep
    exact ⟨⟨lease.step hstep, wf.step lease hstep⟩,
      bounded_of_step lease wf hbounded (hok t a ha) hstep⟩
  obtain ⟨-, hle, hclaimable⟩ := hbounded job r hrow
  refine ⟨heq ▸ hle, fun hspent => ⟨?_, fun hrunning key id keys => ?_⟩⟩
  · by_contra hclaim
    have hlt : r.attempts < r.maxAttempts := hclaimable (by simpa using hclaim)
    omega
  · have hge : r.attempts ≥ r.maxAttempts := by omega
    simp [judge, hrunning, JobStatus.terminal, hge]

end

/-! ## A job that kills its worker -/

open Script in
/-- A worker claims the job and is killed in its handler. -/
def killed (w : WorkerId) : List Cue := takes w 2 ++ dies w

open Script in
/-- The job kills its worker five times, and each time the reaper finds it before the worker is
started again. -/
theorem attempts_within_budget_reaped : ∃ s n,
    Observed (step defaults) (WithinBudget defaults) claimsSinceReplay .init (fun _ => 0) s n ∧
      ∃ r, s.db.row (job 1) = some r ∧ r.status = .dead ∧ r.attempts = n (job 1) ∧ n (job 1) ≤ 5 := by
  have hrun : ∃ s, Reaches defaults (WithinBudget defaults) s ∧
      (s.db.row (job 1)).any (fun r => r.status = .dead ∧ r.maxAttempts = 5) = true :=
    exists_run_of_play
      (submit (job 1) ++ [.act .startSched] ++
        (List.replicate 5 (start ['a'] ++ killed ['a'] ++ reaps ['a'] 9)).flatten)
      (by decide +kernel)
  obtain ⟨s, hs, hany⟩ := hrun
  obtain ⟨r, hrow, hst⟩ := (Option.any_eq_true _ _).mp hany
  obtain ⟨hdead, hmax⟩ := of_decide_eq_true hst
  obtain ⟨n, hn⟩ := hs.observed claimsSinceReplay fun _ => 0
  obtain ⟨heq, hle⟩ := attempts_within_budget hn hrow
  exact ⟨s, n, hn, r, hrow, hdead, heq, hmax ▸ (hle fun _ _ h => h).1⟩

open Script in
/-- The job kills its worker each time, and the worker is restarted under its id before a reaper
comes: `recoverOwnProcessing` returns the job to the pending list without end. -/
theorem six_attempts_of_five : ∃ s, Reaches defaults always s ∧
    ∃ r ∈ s.db.row (job 1), r.maxAttempts = 5 ∧ r.attempts = 6 :=
  exists_run_of_play
    (start ['a'] ++ submit (job 1) ++ (List.replicate 5 (killed ['a'] ++
      .act (.spawn ['a'] 5) :: List.replicate 6 (.act (.recoverOwn ['a'] false)))).flatten ++
      takes ['a'] 2)
    (by decide +kernel)

end QueueFlow
