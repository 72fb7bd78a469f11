-- SUMMARY: Where the id of a job with a recorded retry is, and how it can be left behind.
import QueueFlow.Recovery.World
import QueueFlow.Fencing.Lease

/-!
# Recorded retries

A job whose row is 'retrying' is to be promoted when its backoff is over. Its id is
on the way there (`Scheduled`), or on the way to another claim (`Offered`). It leaves
these places only when an execution ends early, and then an entry of a processing
list is left behind (`retrying_of_step`).
-/

namespace QueueFlow

/-- The job that an execution has parked and not yet added to the delayed set. -/
def ExecPc.parks : ExecPc → Option Uuid
  | .zadd h _ => some h.job
  | _ => none

/-- The id that `promoteDue` has removed from the delayed set and whose row it has not
yet set to 'queued'. -/
def Sched.promotes : Sched → Option Text
  | .promoteUpdate id _ => some id
  | _ => none

namespace State

/-- The id is in the delayed set, or `promoteDue` has it in hand. -/
def Promotable (s : State) (job : Uuid) : Prop :=
  s.redis.isDelayed (uuidOut job) = true ∨ ∃ σ ∈ s.scheds, σ.promotes = some (uuidOut job)

/-- The retry is in the delayed set, or about to be, or being promoted. -/
def Scheduled (s : State) (job : Uuid) : Prop :=
  s.redis.isDelayed (uuidOut job) = true ∨
    (∃ σ ∈ s.scheds, σ.promotes = some (uuidOut job)) ∨ ∃ e ∈ s.execs, e.pc.parks = some job

instance (s : State) (job : Uuid) : Decidable (s.Scheduled job) :=
  inferInstanceAs (Decidable (_ ∨ _ ∨ _))

/-- The id is in the pending list, or an execution has taken it and will try to claim it. -/
def Offered (s : State) (job : Uuid) : Prop :=
  (∃ id ∈ s.redis.pending, Names id job) ∨
    ∃ e ∈ s.execs, e.pc.phase = .taken ∧ uuidIn e.id = some job

instance (s : State) (job : Uuid) : Decidable (s.Offered job) :=
  inferInstanceAs (Decidable (_ ∨ _))

end State

variable {cfg : Config} {s s' : State} {a : Act} {job : Uuid} {r : JobRow}

/-- The step ends an execution of the job and leaves its entry behind. -/
def LeavesBehind (s s' : State) (a : Act) (job : Uuid) : Prop :=
  ∃ e ∈ s.execs, (a.exec? = some e ∨ a = .kill e.worker) ∧ Names e.id job ∧ s'.Spare e.key

theorem ExecPc.parks_phase {pc : ExecPc} (h : pc.parks = some job) :
    ∃ hold, pc.phase = .parked hold ∧ hold.job = job := by
  cases pc <;> simp_all [ExecPc.parks, ExecPc.phase]

/-- The entry of an execution that has parked a job names the job. -/
theorem names_of_parks (lease : LeaseWf cfg s) (world : WorldWf s) {e : Exec}
    (he : e ∈ s.execs) (hparks : e.pc.parks = some job) : Names e.id job := by
  obtain ⟨hold, hphase, rfl⟩ := ExecPc.parks_phase hparks
  refine ⟨world.accepted e he (by rw [hphase]; nofun), lease.named e he _ ?_⟩
  cases hpc : e.pc <;> simp_all [ExecPc.parks, ExecPc.job?, ExecPc.holding?]

/-- An id that is to be promoted stays so until its row is 'queued'. -/
theorem promotable_of_step (h : step cfg s a = some s')
    (hkill : ∀ σ, a = .schedKill σ → σ.promotes = none) (hrow : s'.db.row job = some r)
    (hstatus : r.status ≠ .queued) (hpromotable : s.Promotable job) : s'.Promotable job := by
  rcases hpromotable with hdelayed | ⟨σ, hσ, hpromotes⟩
  · rcases isDelayed_of_step h hdelayed with hdelayed | ⟨due, -, -, hσ⟩
    · exact .inl hdelayed
    · exact .inr ⟨_, hσ, rfl⟩
  · rcases mem_scheds_of_step h hσ with hσ' | ha
    · exact .inr ⟨σ, hσ', hpromotes⟩
    · obtain ⟨-, hmove | ⟨rfl, -⟩⟩ := sched_move_of_step h ha
      · obtain ⟨due, rfl⟩ : ∃ due, σ = .promoteUpdate (uuidOut job) due := by
          cases σ <;> simp_all [Sched.promotes]
        cases hmove with
        | quiet _ hhand => cases hhand
        | promoted id due' job' hpc hid =>
            -- The UPDATE makes the row 'queued'.
            cases hpc
            rw [uuidIn_uuidOut] at hid
            cases hid
            have hrow : (s.db.updateRow job .promoted).row job = some r := hrow
            rw [Db.row_updateRow Db.keepsId_promoted, if_pos rfl] at hrow
            obtain ⟨r₀, -, rfl⟩ := Option.map_eq_some_iff.mp hrow
            exact absurd rfl hstatus
        | crashed id due' hpc hid =>
            cases hpc
            rw [uuidIn_uuidOut] at hid
            cases hid
        | removed _ _ hpc | pushed _ _ hpc | check _ _ hpc | peek _ _ _ hpc | junk _ _ _ hpc
        | select _ _ _ _ hpc | dropped _ _ _ hpc | buried _ _ _ _ hpc | requeued _ _ _ _ hpc
        | moved _ _ _ _ hpc | emptied _ _ _ hpc | swept _ _ _ hpc => cases hpc
      · rw [hkill σ rfl] at hpromotes
        cases hpromotes

/-- A retry that is scheduled stays so until the job is claimable again in another way. -/
private theorem scheduled_of_step (lease : LeaseWf cfg s) (world : WorldWf s)
    (h : step cfg s a = some s') (hkill : ∀ σ, a = .schedKill σ → σ.promotes = none)
    (hrow : s'.db.row job = some r) (hretry : r.status = .retrying) (hsched : s.Scheduled job) :
    s'.Scheduled job ∨ LeavesBehind s s' a job := by
  have hkept (hpromotable : s.Promotable job) : s'.Scheduled job :=
    (promotable_of_step h hkill hrow (by rw [hretry]; rintro ⟨⟩) hpromotable).imp_right .inl
  rcases hsched with hdelayed | hpromotes | ⟨e, he, hparks⟩
  · exact .inl (hkept (.inl hdelayed))
  · exact .inl (hkept (.inr hpromotes))
  · have hnames := names_of_parks lease world he hparks
    obtain ⟨hold, runAt, hpc, rfl⟩ : ∃ hold runAt, e.pc = .zadd hold runAt ∧ hold.job = job := by
      cases hpc : e.pc <;> simp_all [ExecPc.parks]
    rcases mem_execs_of_step h he with he' | ha | rfl
    · exact .inl (.inr (.inr ⟨e, he', hparks⟩))
    · have hadded : (s.redis.zadd runAt (uuidOut hold.job)).isDelayed (uuidOut hold.job) = true :=
        Redis.isDelayed_iff.mpr ⟨runAt, Redis.mem_zadd.mpr (.inl rfl)⟩
      cases a with
      | exec e' o =>
          cases ha
          obtain ⟨-, h⟩ := Option.ite_none_right_eq_some.mp h
          simp only [processOne, hpc, Option.some.injEq] at h
          subst h
          exact .inl (.inl hadded)
      | execFail e' took =>
          cases ha
          obtain ⟨-, h⟩ := Option.ite_none_right_eq_some.mp h
          simp only [fails, hpc] at h
          split at h
          · cases h
            exact .inl (.inl hadded)
          · cases h
            exact .inr ⟨e, he, .inl rfl, hnames, spare_of_ended world he rfl rfl⟩
      | _ => cases ha
    · cases kill_cases h
      exact .inr ⟨e, he, .inr rfl, hnames, spare_of_killed world he⟩

/-- An id that is on its way to a claim stays so as long as the job can be claimed. -/
private theorem offered_of_step (lease : LeaseWf cfg s) (world : WorldWf s)
    (h : step cfg s a = some s') (hrow : s.db.row job = some r) (hrow' : s'.db.row job = some r)
    (hretry : r.status = .retrying) (hoffered : s.Offered job) :
    s'.Offered job ∨ LeavesBehind s s' a job := by
  rcases hoffered with ⟨id, hmem, hid, hjob⟩ | ⟨e, he, hphase, hjob⟩
  · rcases pending_of_step h hmem with hmem | ⟨w, he⟩
    · exact .inl (.inl ⟨id, hmem, hid, hjob⟩)
    · exact .inl (.inr ⟨_, he, by simp [hid, ExecPc.phase], hjob⟩)
  · have hnames : Names e.id job := ⟨world.accepted e he (by rw [hphase]; rintro ⟨⟩), hjob⟩
    rcases mem_execs_of_step h he with he' | ha | rfl
    · exact .inl (.inr ⟨e, he', hphase, hjob⟩)
    · -- A claim finds the row, and it would make it 'running'.
      have hclaimable : s.claimableRow job = some r :=
        Option.filter_eq_some_iff.mpr ⟨hrow, by rw [hretry]; rfl⟩
      have hnot_claimed {job' : Uuid} {m : Nat} (hpc : e.pc = .claim job' m)
          (hdb : s'.db = s.db.claim job' s.now) : False := by
        have hjob' := lease.named e he job' (by rw [hpc]; rfl)
        rw [hjob] at hjob'
        cases hjob'
        rw [hdb, Db.row_claim, Db.row_updateRow_self (Db.keepsId_claimed _ _) hrow] at hrow'
        have := congrArg JobRow.status (Option.some.inj hrow')
        rw [hretry] at this
        cases this
      cases a with
      | exec e' o =>
          cases ha
          obtain ⟨-, h⟩ := Option.ite_none_right_eq_some.mp h
          cases processOne_cases h with
          | found job' r' => exact .inl (.inr ⟨_, Bag.mem_swap_self, rfl, hjob⟩)
          | missing job' hpc hid hnone =>
              rw [hjob] at hid
              cases hid
              rw [hrow] at hnone
              cases hnone
          | rejected hpc hid => rw [hjob] at hid; cases hid
          | notClaimable job' m hpc hnone =>
              have hjob' := lease.named e he job' (by rw [hpc]; rfl)
              rw [hjob] at hjob'
              cases hjob'
              rw [hclaimable] at hnone
              cases hnone
          | claimed job' m r' hpc => exact (hnot_claimed hpc rfl).elim
          | letGo hpc | work _ _ hpc | fenced _ hpc => rw [hphase] at hpc; cases hpc
          | lock _ _ _ hpc | unowned _ _ hpc | insert _ _ hpc | settled _ _ hpc
          | buried _ _ _ hpc | parked _ _ _ _ hpc | zadded _ _ hpc =>
              rw [hpc] at hphase; cases hphase
      | execFail e' took =>
          cases ha
          obtain ⟨-, h⟩ := Option.ite_none_right_eq_some.mp h
          cases fails_cases h with
          | lost => exact .inr ⟨e, he, .inl rfl, hnames, spare_of_ended world he rfl rfl⟩
          | claimed job' m r' hpc => exact (hnot_claimed hpc rfl).elim
          | caught _ _ hpc => rw [hphase] at hpc; cases hpc
          | released _ hpc | settled _ _ _ _ hpc | buried _ _ _ hpc | parked _ _ _ _ hpc
          | zadded _ _ hpc => rw [hpc] at hphase; cases hphase
      | _ => cases ha
    · cases kill_cases h
      exact .inr ⟨e, he, .inr rfl, hnames, spare_of_killed world he⟩

/-- The id of a job with a recorded retry is scheduled or offered, unless a step ends an
execution of it early, or it was neither before. -/
theorem retrying_of_step (lease : LeaseWf cfg s) (world : WorldWf s) (h : step cfg s a = some s')
    (hkill : ∀ σ, a = .schedKill σ → σ.promotes = none)
    (hrow : s'.db.row job = some r) (hretry : r.status = .retrying) :
    s'.Scheduled job ∨ s'.Offered job ∨ LeavesBehind s s' a job ∨
      s.db.row job = some r ∧ ¬ s.Scheduled job ∧ ¬ s.Offered job := by
  rcases retrying_cases h hrow hretry with hold | ⟨e, hold, message, runAt, he, ha, hpc, rfl, hsome⟩
  · by_cases hsched : s.Scheduled job
    · exact (scheduled_of_step lease world h hkill hrow hretry hsched).imp_right fun h => .inr (.inl h)
    · by_cases hoffered : s.Offered job
      · exact .inr ((offered_of_step lease world h hold hrow hretry hoffered).imp_right .inl)
      · exact .inr (.inr (.inr ⟨hold, hsched, hoffered⟩))
  · -- The park: the execution goes on to the ZADD, unless its reply was lost.
    have hnames : Names e.id hold.job :=
      ⟨world.accepted e he (by rw [hpc]; nofun), lease.named e he _ (by rw [hpc]; rfl)⟩
    have hfound : s.ownRow cfg hold ≠ none := Option.isSome_iff_ne_none.mp hsome
    cases a with
    | exec e' o =>
        cases ha
        obtain ⟨-, h⟩ := Option.ite_none_right_eq_some.mp h
        simp only [processOne, hpc] at h
        split at h
        · cases h
        · split at h
          · rename_i hnone
            exact absurd hnone hfound
          · cases h
            exact .inl (.inr (.inr ⟨_, Bag.mem_swap_self, rfl⟩))
    | execFail e' took =>
        cases ha
        obtain ⟨-, h⟩ := Option.ite_none_right_eq_some.mp h
        refine .inr (.inr (.inl ⟨e, he, .inl rfl, hnames, ?_⟩))
        simp only [fails, hpc] at h
        split at h
        · split at h
          · cases h
          · split at h <;> cases h <;> exact spare_of_ended world he rfl rfl
        · cases h
          exact spare_of_ended world he rfl rfl
    | _ => cases ha

end QueueFlow
