-- SUMMARY: A superseded claim writes nothing more: the lease fences every write-back of an older execution.
import QueueFlow.Fencing.Lease
import QueueFlow.Script

/-!
# Stale write-backs

Once a later claim of a job has taken effect, the row no longer carries the lease
of the earlier one, and never will again. Every write-back of the earlier
execution shows that lease, so it matches no row, also when it was suspended
inside its transaction, after its handler or inside its catch block.
-/

namespace QueueFlow

open Transition

namespace LeaseWf

variable {cfg : Config} {s s' : State}

/-- The newest claim of a job took a lease no older than any claim of it. -/
theorem le_newestLease (wf : LeaseWf cfg s) {c : Claim} (hc : c ∈ s.claims) :
    ∃ l, s.newestLease c.job = some l ∧ c.lease ≤ l := by
  have hsome : (s.claims.find? fun c' => c'.job = c.job).isSome = true :=
    List.find?_isSome.mpr ⟨c, hc, by simp⟩
  obtain ⟨c', hc'⟩ := Option.isSome_iff_exists.mp hsome
  refine ⟨c'.lease, by simp [State.newestLease, hc'], ?_⟩
  -- Everything before the newest claim is about other jobs.
  obtain ⟨-, before, after, hsplit, hbefore⟩ := List.find?_eq_some_iff_append.mp hc'
  rw [hsplit] at hc
  rcases List.mem_append.mp hc with hc | hc
  · have := hbefore c hc
    simp at this
  · rcases List.mem_cons.mp hc with rfl | hc
    · exact le_rfl
    · have hpair := wf.decreasing
      rw [hsplit, List.map_append, List.map_cons] at hpair
      have := (List.pairwise_append.mp hpair).2.1
      exact ((List.pairwise_cons.mp this).1 c.lease (List.mem_map_of_mem hc)).le

/-- The lease of a superseded claim is on no row. -/
theorem leaseId_ne_of_superseded (wf : LeaseWf cfg s) {c₁ c₂ : Claim} {r : JobRow}
    (horder : [c₂, c₁].Sublist s.claims) (hjob : c₂.job = c₁.job)
    (hrow : s.db.row c₁.job = some r) : r.leaseId ≠ some c₁.lease := by
  intro hlease
  obtain ⟨l, hnewest, hle⟩ := wf.le_newestLease (horder.subset (List.mem_cons_self))
  have hlt : c₁.lease < c₂.lease := by
    have := wf.decreasing.sublist (horder.map (·.lease))
    simpa using this
  rw [wf.newest _ r hrow, ← hjob, hnewest] at hlease
  cases hlease
  omega

/-- The row of a superseded claim is not the execution's own. -/
theorem ownRow_of_superseded (wf : LeaseWf cfg s) (hfence : cfg.fencing = true) {c₁ c₂ : Claim}
    {e : Exec} {h : Holding} (horder : [c₂, c₁].Sublist s.claims) (hjob : c₂.job = c₁.job)
    (he : e ∈ s.execs) (hh : e.pc.holding? = some h) (hlease : h.lease = c₁.lease) :
    s.ownRow cfg h = none := by
  have hclaim : (⟨h.job, h.lease, e.worker, e.id⟩ : Claim) = c₁ :=
    wf.claim_eq (wf.held e he h hh) (horder.subset (by simp)) hlease
  cases hown : s.ownRow cfg h with
  | none => rfl
  | some r =>
      obtain ⟨hrow, hr⟩ := State.ownRow_some hown
      rw [show h.job = c₁.job by rw [← hclaim]] at hrow
      exact absurd (hlease ▸ hr hfence) (wf.leaseId_ne_of_superseded horder hjob hrow)

/-- An execution that does not own the row it claimed leaves the database alone. -/
theorem db_of_ownRow_eq_none (wf : LeaseWf cfg s) {e : Exec} {h : Holding} {a : Act}
    (hh : e.pc.holding? = some h) (hown : s.ownRow cfg h = none) (ha : a.exec? = some e)
    (hstep : QueueFlow.step cfg s a = some s') : s'.db = s.db := by
  -- A transaction that reached its COMMIT has locked a row it owned.
  have hcommit : ∀ h' began, e ∈ s.execs → e.pc ≠ .txCommit h' began := by
    intro h' began he hpc
    rw [hpc] at hh
    cases hh
    have := wf.locking e he h (by rw [hpc]; rfl) (by rw [hpc]; rfl)
    rw [hown] at this
    cases this
  cases a with
  | exec e' o =>
      cases ha
      obtain ⟨he, hstep⟩ := Option.ite_none_right_eq_some.mp hstep
      cases processOne_cases hstep with
      | settled h' began hpc => exact absurd hpc (hcommit h' began he)
      | claimed job m r hpc => rw [hpc] at hh; cases hh
      | buried h' message r hpc _ hrow => rw [hpc] at hh; cases hh; rw [hown] at hrow; cases hrow
      | parked h' message runAt r hpc _ hrow =>
          rw [hpc] at hh; cases hh; rw [hown] at hrow; cases hrow
      | letGo | rejected | found | missing | notClaimable | work | lock | unowned | insert | fenced
      | zadded => rfl
  | execFail e' =>
      cases ha
      obtain ⟨he, hstep⟩ := Option.ite_none_right_eq_some.mp hstep
      cases fails_cases hstep with
      | settled h' began pc _ hpc => exact absurd hpc (hcommit h' began he)
      | claimed job m r hpc => rw [hpc] at hh; cases hh
      | buried h' message r hpc _ hrow => rw [hpc] at hh; cases hh; rw [hown] at hrow; cases hrow
      | parked h' message runAt r hpc _ hrow =>
          rw [hpc] at hh; cases hh; rw [hown] at hrow; cases hrow
      | lost | released | caught | zadded => rfl
  | _ => cases ha

end LeaseWf

/-- With fencing on, after a second claim of a job no command of the execution that
made the first one, failing or not, changes a row or adds an effect. -/
theorem stale_execution_writes_nothing {cfg : Config} (hfence : cfg.fencing = true)
    {s s' : State} (hs : Reaches cfg always s) {c₁ c₂ : Claim}
    (horder : [c₂, c₁].Sublist s.claims) (hjob : c₂.job = c₁.job) {e : Exec}
    (he : e ∈ s.execs) (hholds : e.holds c₁.lease = true) {a : Act} (ha : a.exec? = some e)
    (hstep : step cfg s a = some s') : s'.db = s.db := by
  have wf := leaseWf_of_reaches hs
  obtain ⟨h, hh, hlease⟩ := Exec.holds_iff.mp hholds
  exact wf.db_of_ownRow_eq_none hh (wf.ownRow_of_superseded hfence horder hjob he hh hlease) ha hstep

open Script in
/-- Worker `a` is suspected while its handler runs, its job is reaped and claimed by
`b`, and then the handler of `a` returns and its UPDATE matches no row. -/
theorem stale_execution_writes_nothing_suspected :
    ∃ s e s', Reaches defaults always s ∧ e ∈ s.execs ∧ e.worker = ['a'] ∧
      (s.db.row (job 1)).any (·.status = .running) ∧
      step defaults s (.exec e .returned) = some s' ∧ s'.db = s.db := by
  have hrun : ∃ s, Reaches defaults always s ∧ ∃ e ∈ s.execs, ∃ c₁ ∈ s.claims, ∃ c₂ ∈ s.claims,
      [c₂, c₁].Sublist s.claims ∧ c₂.job = c₁.job ∧ e.holds c₁.lease = true ∧ e.worker = ['a'] ∧
        (s.db.row (job 1)).any (·.status = .running) = true ∧
        (step defaults s (.exec e .returned)).isSome = true :=
    exists_run_of_play
      (start ['a'] ++ start ['b'] ++ submit (job 1) ++ takes ['a'] 2 ++
        [.act .startSched, .act (.expire ['a'])] ++ reaps ['a'] 6 ++ takes ['b'] 2 ++
        [.work ['a'] .returned, .work ['a'] .returned])
      (by decide +kernel)
  obtain ⟨s, hs, e, he, c₁, -, c₂, -, horder, hjob, hholds, hw, hrow, hstep⟩ := hrun
  obtain ⟨s', hstep⟩ := Option.isSome_iff_exists.mp hstep
  exact ⟨s, e, s', hs, he, hw, hrow, hstep,
    stale_execution_writes_nothing rfl hs horder hjob he hholds rfl hstep⟩

end QueueFlow
