-- SUMMARY: A replay takes effect exactly if nobody is left who may still write the row: no owner under its lease, and no reaper about to bury it.
import QueueFlow.Rows.Attempts
import QueueFlow.Fencing.Stale

/-!
# Replays

A replay sets the row back and keeps its lease. The row may be dead although its owner still
works, because the reaper has buried it, or about to be buried once more, because a second reaper
has judged it too. Where neither is the case the row rests until its next claim, and whoever
claimed the job before the replay has nothing more to say.
-/

namespace QueueFlow

open Transition

/-- What an execution holds between its claim and its last write. -/
def ExecPc.owner? (pc : ExecPc) : Option Holding :=
  match pc.phase with
  | .owning h => some h
  | _ => none

/-- The id of the row that a reaper is about to bury. -/
def Sched.buries? : Sched → Option Text
  | .reapBury _ id _ => some id
  | _ => none

/-- Nobody is left who may write the row of the job without claiming it. -/
def State.Rests (s : State) (job : Uuid) : Prop :=
  (∀ e ∈ s.execs, ∀ h ∈ e.pc.owner?, h.job = job → ∀ r ∈ s.db.row job, r.leaseId ≠ some h.lease) ∧
    ∀ σ ∈ s.scheds, ∀ id ∈ σ.buries?, uuidIn id ≠ some job

instance (s : State) (job : Uuid) : Decidable (s.Rests job) :=
  inferInstanceAs (Decidable (_ ∧ _))

section

variable {cfg : Config} {s s' : State} {a : Act} {job : Uuid} {r r' r₁ : JobRow} {e e' : Exec}
  {h : Holding} {σ : Sched} {L K : Nat}

theorem ExecPc.owner?_eq_some {pc : ExecPc} : pc.owner? = some h ↔ pc.phase = .owning h := by
  unfold ExecPc.owner?
  split
  · rename_i h' heq
    rw [heq, Option.some.injEq, Phase.owning.injEq]
  · rename_i hno
    exact ⟨nofun, fun hpc => absurd hpc (hno h)⟩

/-! ## Where holdings and verdicts come from -/

/-- The claim that a step records, if its UPDATE matches a row. -/
theorem claims_of_effective {m : Nat} (hstep : step cfg s a = some s') (ha : a.effective? = some e)
    (hpc : e.pc = .claim job m) (hrow : s.claimableRow job = some r) :
    s'.claims = ⟨job, s.db.nextLease, e.worker, e.id⟩ :: s.claims := by
  cases a with
  | exec =>
      cases ha
      obtain ⟨-, hstep⟩ := Option.ite_none_right_eq_some.mp hstep
      simp only [processOne, hpc, hrow] at hstep
      split at hstep <;> cases hstep
      rfl
  | execFail e' took =>
      cases took <;> cases ha
      obtain ⟨-, hstep⟩ := Option.ite_none_right_eq_some.mp hstep
      simp only [fails, hpc, hrow, if_true] at hstep
      split at hstep <;> cases hstep
      rfl
  | _ => cases ha

/-- Claims are never forgotten. -/
theorem claims_of_run {c : Claim} (hrun : Run (step cfg) always s s') (hc : c ∈ s.claims) :
    c ∈ s'.claims := by
  refine hrun.invariant (P := fun t => c ∈ t.claims) hc fun t a u hc _ hstep => ?_
  rcases claims_of_step hstep with ⟨hclaims, -⟩ | ⟨job', e, -, -, hclaims⟩ <;> rw [hclaims]
  · exact hc
  · exact List.mem_cons_of_mem _ hc

theorem claimsOf_le_of_step (hstep : step cfg s a = some s') : s.claimsOf job ≤ s'.claimsOf job := by
  rcases claims_of_step hstep with ⟨hclaims, -⟩ | ⟨job', e, -, -, hclaims⟩
  · exact (claimsOf_of_claims hclaims).ge
  · rw [claimsOf_cons hclaims]
    exact Nat.le_add_right _ _

/-- An execution holds what it held before, and owns the job only if it did, or it has just
claimed the job. -/
theorem holding_origin (hstep : step cfg s a = some s') (he' : e' ∈ s'.execs)
    (hh : e'.pc.holding? = some h) :
    (∃ e ∈ s.execs, e.pc.holding? = some h ∧ (e'.pc.phase = .owning h → e.pc.phase = .owning h)) ∨
      ∃ r w id, s.claimableRow h.job = some r ∧ h.lease = s.db.nextLease ∧
        h.attempts = r.attempts + 1 ∧ s'.claims = ⟨h.job, s.db.nextLease, w, id⟩ :: s.claims := by
  have hold (hmem : e' ∈ s.execs) : ∃ e ∈ s.execs, e.pc.holding? = some h ∧
      (e'.pc.phase = .owning h → e.pc.phase = .owning h) := ⟨e', hmem, hh, id⟩
  have hswap {e : Exec} {pc : ExecPc} {h₀ : Holding} (he : e ∈ s.execs)
      (hmem : e' ∈ Bag.swap s.execs e { e with pc }) (hpc : e.pc.phase = .owning h₀)
      (hpc' : pc.phase = .owning h₀) : ∃ e ∈ s.execs, e.pc.holding? = some h ∧
        (e'.pc.phase = .owning h → e.pc.phase = .owning h) := by
    rcases Bag.mem_of_mem_swap hmem with rfl | hmem
    · rw [ExecPc.holding?_of_owning hpc'] at hh
      cases hh
      exact ⟨e, he, ExecPc.holding?_of_owning hpc, fun _ => hpc⟩
    · exact hold hmem
  have hreleased {e : Exec} {pc : ExecPc} (hmem : e' ∈ Bag.swap s.execs e { e with pc })
      (hpc : pc.holding? = none) : ∃ e ∈ s.execs, e.pc.holding? = some h ∧
        (e'.pc.phase = .owning h → e.pc.phase = .owning h) := by
    rcases Bag.mem_of_mem_swap hmem with rfl | hmem
    · rw [hpc] at hh
      cases hh
    · exact hold hmem
  rcases exec_origin hstep he' with hmem | ⟨w, rest, -, -, -, hselect⟩ |
    ⟨e, o, -, he, hstep⟩ | ⟨e, took, message, random, -, he, hstep⟩
  · exact .inl (hold hmem)
  · rw [hselect] at hh
    split at hh <;> cases hh
  · cases processOne_cases hstep with
    | letGo | rejected => exact .inl (hold (List.mem_of_mem_erase he'))
    | found | missing | notClaimable | settled | fenced | buried | zadded =>
        exact .inl (hreleased he' rfl)
    | claimed job m r hpc hfree hrow =>
        rcases Bag.mem_of_mem_swap he' with rfl | hmem
        · cases hh
          exact .inr ⟨r, e.worker, e.id, hrow, rfl, rfl, rfl⟩
        · exact .inl (hold hmem)
    | work h₀ pc hpc _ hpc' => exact .inl (hswap he he' hpc hpc')
    | lock h₀ began r hpc | unowned h₀ began hpc | insert h₀ began hpc =>
        exact .inl (hswap he he' (by rw [hpc]; rfl) rfl)
    | parked h₀ message runAt r hpc =>
        rcases Bag.mem_of_mem_swap he' with rfl | hmem
        · cases hh
          exact .inl ⟨e, he, by rw [hpc]; rfl, nofun⟩
        · exact .inl (hold hmem)
  · cases fails_cases hstep with
    | lost | released | claimed | buried | parked | zadded =>
        exact .inl (hold (List.mem_of_mem_erase he'))
    | caught h₀ pc hpc hpc' => exact .inl (hswap he he' hpc hpc')
    | settled h₀ began pc _ hpc hpc' => exact .inl (hswap he he' (by rw [hpc]; rfl) hpc')

/-- A reaper buries a row whose attempts it has found used up. -/
theorem buries_origin (hstep : step cfg s a = some s') (hσ : σ ∈ s'.scheds) {id : Text}
    (hburies : σ.buries? = some id) : σ ∈ s.scheds ∨
      ∃ job r, uuidIn id = some job ∧ s.db.row job = some r ∧ r.maxAttempts ≤ r.attempts := by
  cases sched_origin hstep hσ with
  | stays hσ => exact .inl hσ
  | rests _ hreap =>
      cases σ with
      | reapBury => cases hreap
      | _ => cases hburies
  | judges key id' keys u pick ha hid =>
      rcases judge_cases key id' keys (s.db.row u) with
        ⟨heq, -⟩ | ⟨r, hrow, -, -, ⟨heq, hspent⟩ | ⟨heq, -⟩⟩ <;> rw [heq] at hburies <;> cases hburies
      exact .inr ⟨u, r, hid, hrow, hspent⟩
  | removed | promoted | peeks | reads | rejects | buried | requeued => cases hburies

/-! ## After the replay -/

/-- What holds of a job from its replay on. `L` is the first lease that was still free then, `K`
counts the claims of the job until then, and `r₀` is the row that was dead. -/
structure ReplayWf (L K : Nat) (r₀ : JobRow) (job : Uuid) (s : State) : Prop where
  row : ∃ r, s.db.row job = some r ∧ r.maxAttempts = r₀.maxAttempts ∧
    K + r.attempts ≤ s.claimsOf job ∧ (r.status = .dead → K + r₀.maxAttempts ≤ s.claimsOf job)
  /-- Until the next claim the row is as the replay has left it. -/
  unchanged : s.claimsOf job = K → s.db.row job = some r₀.replayed
  old : L ≤ s.db.nextLease
  /-- Owners from before the replay are fenced. -/
  stale : ∀ e ∈ s.execs, ∀ h, e.pc.phase = .owning h → h.job = job → h.lease < L →
    ∀ r, s.db.row job = some r → r.leaseId ≠ some h.lease
  /-- Owners from after it count the claims since. -/
  fresh : ∀ e ∈ s.execs, ∀ h, e.pc.holding? = some h → h.job = job → L ≤ h.lease →
    K + h.attempts ≤ s.claimsOf job ∧ K < s.claimsOf job
  judged : ∀ σ ∈ s.scheds, ∀ id, σ.buries? = some id → uuidIn id = some job →
    K + r₀.maxAttempts ≤ s.claimsOf job

namespace ReplayWf

variable {r₀ : JobRow}

/-- An owner whose lease the row carries has claimed the job after the replay. -/
theorem owner (wf : ReplayWf L K r₀ job s) (he : e ∈ s.execs) (hphase : e.pc.phase = .owning h)
    (hjob : h.job = job) (hrow : s.db.row job = some r) (hlease : r.leaseId = some h.lease) :
    K + h.attempts ≤ s.claimsOf job ∧ K < s.claimsOf job := by
  refine wf.fresh e he h (ExecPc.holding?_of_owning hphase) hjob (Nat.le_of_not_lt fun hlt => ?_)
  exact wf.stale e he h hphase hjob hlt r hrow hlease

/-- Until the next claim no statement changes the row. -/
private theorem unchanged_of_move (wf : ReplayWf L K r₀ job s) (hfence : cfg.fencing = true)
    (hlimit : 0 < r₀.maxAttempts) (hstep : QueueFlow.step cfg s a = some s')
    (hsame : s.claimsOf job = K) (hsame' : s'.claimsOf job = K)
    (hrow : s.db.row job = some r) (hmove : RowMove cfg s a job r r') : r' = r₀.replayed := by
  obtain rfl := Option.some.inj ((wf.unchanged hsame).symm.trans hrow)
  have howner {e : Exec} {h : Holding} (he : e ∈ s.execs) (hphase : e.pc.phase = .owning h)
      (hjob : h.job = job) (hlease : cfg.fencing = true → r₀.replayed.leaseId = some h.lease) :
      False := by
    have := (wf.owner he hphase hjob hrow (hlease hfence)).2
    omega
  cases hmove with
  | same | promoted | reapRequeued => rfl
  | replayed id g ha hid hdead => cases hdead
  | reset w c stranded deadline ha hp hstranded => cases running_of_strandedRow hstranded
  | claimed e m he ha hpc hclaimable =>
      have hclaims := claims_of_effective hstep ha hpc
        (Option.filter_eq_some_iff.mpr ⟨hrow, hclaimable⟩)
      rw [claimsOf_cons hclaims, if_pos rfl] at hsame'
      omega
  | settled e h began he ha hpc hjob hlease => exact (howner he (by rw [hpc]; rfl) hjob hlease).elim
  | buried e h message he ha hpc hjob hlease => exact (howner he (by rw [hpc]; rfl) hjob hlease).elim
  | parked e h message runAt he ha hpc hjob hlease =>
      exact (howner he (by rw [hpc]; rfl) hjob hlease).elim
  | reapBuried key id keys pick hσ ha hid =>
      have := wf.judged _ hσ id rfl hid
      omega

/-- The row counts the claims since the replay, and is dead only when they are used up. -/
private theorem counts_of_move (wf : ReplayWf L K r₀ job s) (hfence : cfg.fencing = true)
    (holding : HoldingWf s) (hstep : QueueFlow.step cfg s a = some s')
    (hrow : s.db.row job = some r) (hmove : RowMove cfg s a job r r') :
    K + r'.attempts ≤ s'.claimsOf job ∧ (r'.status = .dead → K + r₀.maxAttempts ≤ s'.claimsOf job) := by
  have hle : s.claimsOf job ≤ s'.claimsOf job := claimsOf_le_of_step hstep
  obtain ⟨r₁, hrow₁, hmax, hattempts, hdead⟩ := wf.row
  obtain rfl := Option.some.inj (hrow₁.symm.trans hrow)
  cases hmove with
  | same => exact ⟨hattempts.trans hle, fun h => (hdead h).trans hle⟩
  | replayed => exact ⟨(Nat.le_add_right _ _).trans (hattempts.trans hle), nofun⟩
  | claimed e m he ha hpc hclaimable =>
      have hclaims := claims_of_effective hstep ha hpc
        (Option.filter_eq_some_iff.mpr ⟨hrow, hclaimable⟩)
      rw [claimsOf_cons hclaims, if_pos rfl]
      exact ⟨Nat.succ_le_succ hattempts, nofun⟩
  | settled | parked | promoted | reapRequeued | reset => exact ⟨hattempts.trans hle, nofun⟩
  | reapBuried key id keys pick hσ ha hid =>
      exact ⟨hattempts.trans hle, fun _ => (wf.judged _ hσ id rfl hid).trans hle⟩
  | buried e h message he ha hpc hjob hlease =>
      refine ⟨hattempts.trans hle, fun _ => ?_⟩
      -- The execution has compared the attempts of its claim with the limit.
      have hphase : e.pc.phase = .owning h := by rw [hpc]; rfl
      have hspent : h.maxAttempts ≤ h.attempts := by
        have := holding.judged e he
        rwa [hpc] at this
      obtain ⟨r₂, hrow₂, hlimit, -⟩ := (holding.knows e he).held h (by rw [hpc]; rfl)
      obtain rfl := Option.some.inj ((hjob ▸ hrow₂).symm.trans hrow)
      have hcount := (wf.owner he hphase hjob hrow (hlease hfence)).1
      omega

theorem step (wf : ReplayWf L K r₀ job s) (hfence : cfg.fencing = true) (hlimit : 0 < r₀.maxAttempts)
    (lease : LeaseWf cfg s) (holding : HoldingWf s) (hstep : QueueFlow.step cfg s a = some s') :
    ReplayWf L K r₀ job s' := by
  have hle : s.claimsOf job ≤ s'.claimsOf job := claimsOf_le_of_step hstep
  obtain ⟨r, hrow, hmax, hattempts, hdead⟩ := wf.row
  have hmove {r' : JobRow} (hrow' : s'.db.row job = some r') : RowMove cfg s a job r r' := by
    obtain ⟨r₁, hrow₁, hmove⟩ := rowMove_of_step lease hstep hrow
    obtain rfl := Option.some.inj (hrow'.symm.trans hrow₁)
    exact hmove
  constructor
  case row =>
    obtain ⟨r', hrow'⟩ := row_of_step hstep hrow
    obtain ⟨hattempts', hdead'⟩ := wf.counts_of_move hfence holding hstep hrow (hmove hrow')
    exact ⟨r', hrow', (hmove hrow').maxAttempts.trans hmax, hattempts', hdead'⟩
  case unchanged =>
    intro hsame'
    obtain ⟨r', hrow'⟩ := row_of_step hstep hrow
    have hsame : s.claimsOf job = K := by omega
    rw [hrow', wf.unchanged_of_move hfence hlimit hstep hsame hsame' hrow (hmove hrow')]
  case old =>
    rcases claims_of_step hstep with ⟨-, hlease⟩ | ⟨_, _, -, hdb, -⟩
    · exact hlease ▸ wf.old
    · rw [hdb, Db.nextLease_claim]
      exact wf.old.trans (Nat.le_succ _)
  case stale =>
    intro e' he' h hphase hjob hlt r' hrow' hlease
    rcases holding_origin hstep he' (ExecPc.holding?_of_owning hphase) with
      ⟨e, he, hh, howning⟩ | ⟨-, -, -, -, hnew, -⟩
    · have hbound := lease.bound _ (lease.held e he h hh)
      exact wf.stale e he h (howning hphase) hjob hlt r hrow
        ((hmove hrow').attempts_le hlease hbound).1
    · have := wf.old
      omega
  case fresh =>
    intro e' he' h hh hjob hlt
    rcases holding_origin hstep he' hh with ⟨e, he, hh, -⟩ | ⟨r₁, w, id, hclaimable, -, hcount, hclaims⟩
    · obtain ⟨hcount, hnew⟩ := wf.fresh e he h hh hjob hlt
      exact ⟨hcount.trans hle, Nat.lt_of_lt_of_le hnew hle⟩
    · subst hjob
      obtain rfl := Option.some.inj ((State.claimableRow_some hclaimable).1.symm.trans hrow)
      rw [claimsOf_cons hclaims, if_pos rfl]
      omega
  case judged =>
    intro σ hσ id hburies hid
    rcases buries_origin hstep hσ hburies with hσ | ⟨job', r₁, hid', hrow₁, hspent⟩
    · exact (wf.judged σ hσ id hburies hid).trans hle
    · obtain rfl := Option.some.inj (hid'.symm.trans hid)
      obtain rfl := Option.some.inj (hrow₁.symm.trans hrow)
      omega

/-- It holds right after a replay that finds its row at rest. -/
theorem of_replay (lease : LeaseWf cfg s) (hreplay : a.replays? s = some job) (hrests : s.Rests job)
    (hrow : s.db.row job = some r₀) (hstep : QueueFlow.step cfg s a = some s') :
    ReplayWf s.db.nextLease (s.claimsOf job) r₀ job s' := by
  obtain ⟨hdb, hclaims⟩ := db_of_replay hstep hreplay
  obtain ⟨id, g, rfl, -⟩ := replays?_eq_some.mp hreplay
  have hrow' : s'.db.row job = some r₀.replayed := by
    rw [hdb, Db.row_updateRow_self Db.keepsId_replayed hrow]
  have hexecs : s'.execs = s.execs ∧ s'.scheds = s.scheds := by
    obtain ⟨-, hstep⟩ := Option.ite_none_right_eq_some.mp hstep
    cases handle_cases hstep <;> exact ⟨rfl, rfl⟩
  have hsame : s'.claimsOf job = s.claimsOf job := claimsOf_of_claims hclaims
  refine ⟨⟨r₀.replayed, hrow', rfl, hsame.ge, nofun⟩, fun _ => hrow', ?_, ?_, ?_, ?_⟩
  · rw [hdb, Db.nextLease_updateRow]
  · intro e he h hphase hjob _ r hr hlease
    rw [hrow'] at hr
    cases hr
    exact hrests.1 e (hexecs.1 ▸ he) h (ExecPc.owner?_eq_some.mpr hphase) hjob r₀ hrow hlease
  · intro e he h hh hjob hnew
    have := lease.bound _ (lease.held e (hexecs.1 ▸ he) h hh)
    exact absurd hnew (Nat.not_le_of_lt this)
  · intro σ hσ id' hburies hid
    exact absurd hid (hrests.2 σ (hexecs.2 ▸ hσ) id' hburies)

/-- A command of an execution that claimed the job before the replay leaves the database alone. -/
theorem db_of_stale (wf : ReplayWf L K r₀ job s) (hfence : cfg.fencing = true) (lease : LeaseWf cfg s)
    (he : e ∈ s.execs) (hh : e.pc.holding? = some h) (hjob : h.job = job) (hlt : h.lease < L)
    (ha : a.exec? = some e) (hstep : QueueFlow.step cfg s a = some s') : s'.db = s.db := by
  cases hphase : e.pc.phase with
  | owning h' =>
      obtain rfl := Option.some.inj ((ExecPc.holding?_of_owning hphase).symm.trans hh)
      refine lease.db_of_ownRow_eq_none hh ?_ ha hstep
      cases hown : s.ownRow cfg h' with
      | none => rfl
      | some r =>
          obtain ⟨hrow, hlease⟩ := State.ownRow_some hown
          exact absurd (hlease hfence) (wf.stale e he h' hphase hjob hlt r (hjob ▸ hrow))
  | taken | parked | finished =>
      -- It has nothing to write any more.
      have hdb := db_cases hstep
      generalize s'.db = db at hdb ⊢
      generalize s'.claims = claims at hdb
      cases hdb with
      | same => rfl
      | claimed e' job' m r _ ha' hpc =>
          cases ha.symm.trans ha'
          rw [hpc] at hh
          cases hh
      | settled e' h' began _ ha' hpc | buried e' h' message r _ ha' hpc
      | parked e' h' message runAt r _ ha' hpc =>
          cases ha.symm.trans ha'
          rw [hpc] at hphase
          cases hphase
      | inserted _ _ _ ha' | replayed _ _ _ _ ha' | promoted _ _ _ _ _ ha' | reapBuried _ _ _ _ _ _ ha'
      | reapRequeued _ _ _ _ _ _ ha' | reset _ _ _ _ ha' =>
          subst ha'
          cases ha

end ReplayWf

/-- Every row may be claimed at least once. -/
def State.Limited (s : State) : Prop := ∀ job r, s.db.row job = some r → 0 < r.maxAttempts

theorem State.Limited.step (limited : s.Limited) (lease : LeaseWf cfg s)
    (hstep : QueueFlow.step cfg s a = some s') : s'.Limited := by
  intro job r' hrow'
  rcases row_cases lease hstep hrow' with ⟨key, g, -, -, rfl⟩ | ⟨r, hrow, hmove⟩
  · exact Nat.succ_pos 4
  · exact hmove.maxAttempts ▸ limited job r hrow

/-- With fencing on, in every run: once a replay has set back a dead row that rests, the row does not
change before its next claim; no execution that claimed before the replay changes the database;
and the row is not dead again before `max_attempts` claims. -/
theorem replay_takes_effect {s₁ t : State} (hfence : cfg.fencing = true) (hrun : Reaches cfg always s)
    (hreplay : a.replays? s = some job) (hrests : s.Rests job) (hstep : step cfg s a = some s₁)
    (hrun₁ : Run (step cfg) always s₁ t) :
    (t.claimsOf job = s.claimsOf job → t.db.row job = s₁.db.row job) ∧
      (∀ c ∈ s.claims, c.job = job → ∀ e ∈ t.execs, e.holds c.lease = true → ∀ b t',
        b.exec? = some e → step cfg t b = some t' → t'.db = t.db) ∧
      ∀ r, t.db.row job = some r → r.status = .dead →
        s.claimsOf job + r.maxAttempts ≤ t.claimsOf job := by
  have hwf : (LeaseWf cfg s ∧ HoldingWf s) ∧ s.Limited := by
    refine hrun.invariant (P := fun s => (LeaseWf cfg s ∧ HoldingWf s) ∧ s.Limited)
      ⟨⟨.init, .init⟩, nofun⟩ ?_
    rintro t a u ⟨⟨lease, holding⟩, limited⟩ _ hstep
    exact ⟨⟨lease.step hstep, holding.step lease hstep⟩, limited.step lease hstep⟩
  obtain ⟨⟨lease, holding⟩, limited⟩ := hwf
  obtain ⟨-, -, -, -, r₀, hrow, -⟩ := replays?_eq_some.mp hreplay
  have hfirst : (LeaseWf cfg s₁ ∧ HoldingWf s₁) ∧
      ReplayWf s.db.nextLease (s.claimsOf job) r₀ job s₁ :=
    ⟨⟨lease.step hstep, holding.step lease hstep⟩, .of_replay lease hreplay hrests hrow hstep⟩
  have hlater : (LeaseWf cfg t ∧ HoldingWf t) ∧
      ReplayWf s.db.nextLease (s.claimsOf job) r₀ job t := by
    refine hrun₁.invariant (P := fun t => (LeaseWf cfg t ∧ HoldingWf t) ∧
      ReplayWf s.db.nextLease (s.claimsOf job) r₀ job t) hfirst ?_
    rintro t a u ⟨⟨lease, holding⟩, wf⟩ _ hstep
    exact ⟨⟨lease.step hstep, holding.step lease hstep⟩,
      wf.step hfence (limited job r₀ hrow) lease holding hstep⟩
  obtain ⟨⟨lease', -⟩, wf⟩ := hlater
  refine ⟨fun hsame => ?_, fun c hc hjob e he hholds b t' ha hstep' => ?_, fun r hr hdead => ?_⟩
  · obtain ⟨hdb, -⟩ := db_of_replay hstep hreplay
    rw [wf.unchanged hsame, hdb, Db.row_updateRow_self Db.keepsId_replayed hrow]
  · obtain ⟨h, hh, hlease⟩ := Exec.holds_iff.mp hholds
    have hbefore : c ∈ t.claims := claims_of_run (Run.single trivial hstep |>.trans hrun₁) hc
    have heq := lease'.claim_eq (lease'.held e he h hh) hbefore hlease
    have hlt : h.lease < s.db.nextLease := hlease ▸ lease.bound c hc
    exact wf.db_of_stale hfence lease' he hh ((congrArg Claim.job heq).trans hjob) hlt ha hstep'
  · obtain ⟨r', hrow', hmax, -, hspent⟩ := wf.row
    obtain rfl := Option.some.inj (hrow'.symm.trans hr)
    exact hmax ▸ hspent hdead

end

/-! ## A slow worker -/

open Script in
/-- A job that has failed five times is replayed, and its worker takes it again. -/
theorem replay_takes_effect_failed : ∃ s s₁ t, Reaches defaults always s ∧
    step defaults s (.api (.replay (uuidOut (job 1))) (job 2)) = some s₁ ∧
    Run (step defaults) always s₁ t ∧ t.db.row (job 1) = s₁.db.row (job 1) := by
  have hrun : ∃ s s₁ t, Reaches defaults always s ∧
      step defaults s (.api (.replay (uuidOut (job 1))) (job 2)) = some s₁ ∧
      Run (step defaults) always s₁ t ∧ s.Rests (job 1) ∧
        (Act.api (.replay (uuidOut (job 1))) (job 2)).replays? s = some (job 1) ∧
          t.claimsOf (job 1) = s.claimsOf (job 1) :=
    exists_step_of_play
      (fun s t => s.Rests (job 1) ∧
        (Act.api (.replay (uuidOut (job 1))) (job 2)).replays? s = some (job 1) ∧
          t.claimsOf (job 1) = s.claimsOf (job 1))
      (start ['a'] ++ [.act .startSched] ++ submit (job 1) ++ failsOut ['a'] ++
        [.act (.request (.replay (uuidOut (job 1))))])
      ([.api (job 2)] ++ takes ['a'] 1)
      (by decide +kernel)
  obtain ⟨s, s₁, t, hs, hstep, ht, hrests, hreplay, hsame⟩ := hrun
  exact ⟨s, s₁, t, hs, hstep, ht, (replay_takes_effect rfl hs hreplay hrests hstep ht).1 hsame⟩

open Script in
/-- The heartbeat of a worker lapses during the fifth attempt, and the reaper buries the job. The job
is replayed, then the handler of the slow worker throws: the job is dead again and was never claimed. -/
theorem replay_undone : ∃ s s₁ t, Reaches defaults always s ∧
    step defaults s (.api (.replay (uuidOut (job 1))) (job 2)) = some s₁ ∧
    Run (step defaults) always s₁ t ∧
    (Act.api (.replay (uuidOut (job 1))) (job 2)).replays? s = some (job 1) ∧
    t.claimsOf (job 1) = s.claimsOf (job 1) ∧ ∃ r ∈ t.db.row (job 1), r.status = .dead :=
  exists_step_of_play
    (fun s t => (Act.api (.replay (uuidOut (job 1))) (job 2)).replays? s = some (job 1) ∧
      t.claimsOf (job 1) = s.claimsOf (job 1) ∧ ∃ r ∈ t.db.row (job 1), r.status = .dead)
    (start ['a'] ++ [.act .startSched] ++ submit (job 1) ++
      (List.replicate 4 (throws ['a'] 3 ++ .act (.tick 60000000) :: promotes)).flatten ++
      takes ['a'] 2 ++ .act (.expire ['a']) :: reaps ['a'] 5 ++
      [.act (.request (.replay (uuidOut (job 1))))])
    ([.api (job 2), .work ['a'] threw, .work ['a'] .returned])
    (by decide +kernel)

end QueueFlow
