-- SUMMARY: A failed attempt is not followed by another before its backoff is over, as long as promoters remove only what is due.
import QueueFlow.Ledger.Live
import QueueFlow.Script

/-!
# The backoff

The catch block computes when to retry and `promoteDue` asks for the ids that are due. It removes
them later, one by one and by name: between its query and a `ZREM` another scheduler may promote
the job, a worker may run it again, and the member of the delayed set is then that of the next
failure.
-/

namespace QueueFlow

open Transition

/-! ## Failures and promotions -/

/-- The commands of the `try` block that may fail, and what the execution holds there. -/
def ExecPc.tried? : ExecPc → Option Holding
  | .txBegin h | .txUpdate h _ | .txInsert h _ | .txCommit h _ | .txRollback h => some h
  | _ => none

/-- An attempt fails: what it holds, and what the catch block draws for the jitter. -/
def Act.fails? : Act → Option (Holding × Random)
  | .exec ⟨_, _, .handler h⟩ (.threw _ random) => some (h, random)
  | .execFail e _ _ random => e.pc.tried?.map fun h => (h, random)
  | _ => none

/-- A promoter removes an id from the delayed set only when the score that it has is due. -/
def DuePromotion (s : State) : Act → Prop
  | .sched (.promoting (id :: _)) _ => ∀ m ∈ s.redis.delayed, m.1 = id → m.2 ≤ s.dateNow
  | _ => True

instance (s : State) (a : Act) : Decidable (DuePromotion s a) := by
  induction a using Act.casesOn with
  | sched σ =>
      induction σ using Sched.casesOn with
      | promoting due =>
          induction due using List.casesOn with
          | nil => exact .isTrue trivial
          | cons => exact inferInstanceAs (Decidable (∀ _ ∈ _, _))
      | _ => exact .isTrue trivial
  | _ => exact .isTrue trivial

/-- An undisturbed step of promoters that remove what is due. -/
def OnTime (s : State) (a : Act) : Prop := Undisturbed s a ∧ DuePromotion s a

instance (s : State) (a : Act) : Decidable (OnTime s a) := inferInstanceAs (Decidable (_ ∧ _))

/-- The next attempt at the job waits for the time `bound`, in the catch block or in the
delayed set. -/
inductive State.Waits (s : State) (job : Uuid) (bound : Nat) : Prop where
  | parking (e : Exec) (h : Holding) (message : Text) (runAt : Nat) (he : e ∈ s.execs)
      (hpc : e.pc = .park h message runAt) (hjob : h.job = job) (hbound : bound ≤ runAt)
  | parked (e : Exec) (h : Holding) (runAt : Nat) (he : e ∈ s.execs) (hpc : e.pc = .zadd h runAt)
      (hjob : h.job = job) (hbound : bound ≤ runAt)
  | delayed (hin : s.redis.isDelayed (uuidOut job) = true)
      (hbound : ∀ score, (uuidOut job, score) ∈ s.redis.delayed → bound ≤ score)

/-- The job is not over, and nothing is left that would bring it forward. -/
def State.Stuck (s : State) (job : Uuid) : Prop := (s.ledger job).live = 0 ∧ ¬ s.Over job

section

variable {cfg : Config} {s s' : State} {a : Act} {job : Uuid} {bound : Nat} {e : Exec} {h : Holding}
  {random : Random}

theorem le_nextDelayMs (cfg : Config) (attempts : Nat) (random : Random) :
    min (2 ^ attempts * cfg.baseMs) cfg.maxMs ≤ nextDelayMs cfg attempts random := by
  simp only [nextDelayMs, mathRound]
  generalize min (2 ^ attempts * cfg.baseMs) cfg.maxMs = base
  have hbase : (0 : ℚ) ≤ base := Nat.cast_nonneg base
  have hjitter : (0 : ℚ) ≤ random.val * base * JITTER :=
    mul_nonneg (mul_nonneg random.2.1 hbase) (by norm_num [JITTER])
  have hle : (base : ℤ) ≤ ((base : ℚ) + random.val * base * JITTER + 1 / 2).floor := by
    rw [Rat.le_floor_iff]
    push_cast
    linarith
  omega

/-- Where an attempt fails that is not the last, the execution comes to the park. -/
theorem waits_of_fails (hfails : a.fails? = some (h, random)) (hattempt : h.attempts < h.maxAttempts)
    (hstep : step cfg s a = some s') :
    s'.Waits h.job (s.dateNow + min (2 ^ h.attempts * cfg.baseMs) cfg.maxMs) := by
  have hparks {t : State} {e : Exec} (message : Text) :
      (t.setExec e (caught cfg s h message random)).Waits h.job
        (s.dateNow + min (2 ^ h.attempts * cfg.baseMs) cfg.maxMs) := by
    rw [caught, if_neg (Nat.not_le_of_lt hattempt)]
    exact .parking _ h message _ Bag.mem_swap_self rfl rfl
      (Nat.add_le_add_left (le_nextDelayMs cfg h.attempts random) _)
  cases a with
  | exec e o =>
      obtain ⟨w, id, pc⟩ := e
      obtain ⟨-, hstep⟩ := Option.ite_none_right_eq_some.mp hstep
      cases pc <;> cases o <;> cases hfails
      cases hstep
      exact hparks _
  | execFail e took message =>
      obtain ⟨-, hstep⟩ := Option.ite_none_right_eq_some.mp hstep
      obtain ⟨w, id, pc⟩ := e
      obtain ⟨h', htried, heq⟩ := Option.map_eq_some_iff.mp hfails
      cases heq
      cases pc with
      | txCommit =>
          cases htried
          simp only [fails] at hstep
          split at hstep <;> cases hstep
          · exact hparks message
          · exact hparks message
      | txBegin | txUpdate | txInsert | txRollback =>
          cases htried
          cases hstep
          exact hparks message
      | _ => cases htried
  | _ => cases hfails

/-! ## Nothing brings the job forward meanwhile -/

theorem count_of_waits (lease : LeaseWf cfg s) (waits : s.Waits job bound) :
    0 < (s.ledger job).count .owning + (s.ledger job).count .parked +
      (s.ledger job).count .delayed := by
  cases waits with
  | parking e h message runAt he hpc hjob =>
      have := count_pos_of_exec (p := .owning) he
        (lease.named e he job (by rw [hpc, ← hjob]; rfl)) (by rw [hpc]; rfl)
      omega
  | parked e h runAt he hpc hjob =>
      have := count_pos_of_exec (p := .parked) he
        (lease.named e he job (by rw [hpc, ← hjob]; rfl)) (by rw [hpc]; rfl)
      omega
  | delayed hin =>
      have : 0 < (s.ledger job).count .delayed := State.count_pos
        (State.mem_tokens.mpr (.inr (.inr (.inl (by simp [State.delayedAt, hin])))))
      omega

/-- An execution that lets go of the only live copy without burying the job leaves it stuck. -/
private theorem stuck_of_dropped (wf : LiveWf s) (lease : LeaseWf cfg s) (hok : Undisturbed s a)
    (hstep : step cfg s a = some s') (ha : a.exec? = some e) (hbury : ∀ h m, e.pc ≠ .bury h m)
    (hlt : (s'.ledger job).live + 1 ≤ (s.ledger job).live) : s'.Stuck job := by
  obtain ⟨hone, hzero⟩ := wf job
  refine ⟨by omega, fun hover' => ?_⟩
  rcases over_of_step lease hok hstep hover' with hover | ⟨e', hold, message, -, ha', hpc, -⟩
  · have := hzero hover
    omega
  · have hexec : a.exec? = some e' := by
      cases a with
      | exec => exact ha'
      | execFail e₀ took => cases took <;> first | exact ha' | cases ha'
      | _ => cases ha'
    cases ha.symm.trans hexec
    exact hbury _ _ hpc

/-- A job that is stuck stays so. -/
theorem State.Stuck.step (stuck : s.Stuck job) (lease : LeaseWf cfg s) (canonical : s.Canonical)
    (hok : Undisturbed s a) (hstep : QueueFlow.step cfg s a = some s') : s'.Stuck job := by
  obtain ⟨hzero, hnot⟩ := stuck
  rcases live_of_step job lease canonical hok hstep with hle | ⟨-, hover, -⟩
  · refine ⟨by omega, fun hover' => ?_⟩
    rcases over_of_step lease hok hstep hover' with hover | ⟨e, hold, message, he, ha, hpc, rfl⟩
    · exact hnot hover
    · have := live_of_bury lease he ha hpc hstep
      omega
  · exact absurd hover hnot

/-- The park of the execution that waits. -/
private theorem waits_of_park {message : Text} {runAt : Nat} (wf : LiveWf s) (lease : LeaseWf cfg s)
    (hok : Undisturbed s a) (hstep : step cfg s a = some s') (he : e ∈ s.execs)
    (ha : a.exec? = some e) (hpc : e.pc = .park h message runAt) (hbound : bound ≤ runAt) :
    s'.Waits h.job bound ∨ s'.Stuck h.job := by
  have hone : e.liveAt h.job e.pc = 1 :=
    Exec.liveAt_eq_one (by rw [hpc]; rfl) (lease.named e he h.job (by rw [hpc]; rfl))
  have hstuck (hlt : (s'.ledger h.job).live + 1 ≤ (s.ledger h.job).live) : s'.Stuck h.job :=
    stuck_of_dropped wf lease hok hstep ha (by rw [hpc]; nofun) hlt
  have hend (t : State) (ht : e ∈ t.execs) :
      ((t.endExec e).ledger h.job).live + 1 = (t.ledger h.job).live := by
    have hend := live_endExec h.job ht
    rwa [hone] at hend
  cases a with
  | exec =>
      cases ha
      obtain ⟨-, hstep⟩ := Option.ite_none_right_eq_some.mp hstep
      simp only [processOne, hpc] at hstep
      split at hstep
      · cases hstep
      · split at hstep <;> cases hstep
        · right
          apply hstuck
          have hset := live_setExec h.job .release he
          rw [hone, show e.liveAt h.job .release = 0 from Exec.liveAt_finished rfl] at hset
          omega
        · exact .inl (.parked _ h runAt Bag.mem_swap_self rfl rfl hbound)
  | execFail e' took =>
      right
      cases ha
      obtain ⟨-, hstep⟩ := Option.ite_none_right_eq_some.mp hstep
      simp only [fails, hpc] at hstep
      split at hstep
      · split at hstep
        · cases hstep
        · split at hstep <;> cases hstep
          · exact hstuck (hend s he).le
          · exact hstuck ((hend (s.write h.job (.parked message runAt)) he).le.trans
              (live_write _ _).le)
      · cases hstep
        exact hstuck (hend s he).le
  | _ => cases ha

/-- The `ZADD` of the execution that waits. -/
private theorem waits_of_zadd {runAt : Nat} (wf : LiveWf s) (lease : LeaseWf cfg s)
    (hok : Undisturbed s a) (hstep : step cfg s a = some s') (he : e ∈ s.execs)
    (ha : a.exec? = some e) (hpc : e.pc = .zadd h runAt) (hbound : bound ≤ runAt) :
    s'.Waits h.job bound ∨ s'.Stuck h.job := by
  have hadded {t : State} (ht : t.redis = s.redis.zadd runAt (uuidOut h.job)) :
      t.Waits h.job bound := by
    refine .delayed ?_ fun score hmem => ?_
    · rw [ht]
      exact Redis.isDelayed_iff.mpr ⟨runAt, Redis.mem_zadd.mpr (.inl rfl)⟩
    · rw [ht] at hmem
      rcases Redis.mem_zadd.mp hmem with heq | ⟨-, hne⟩
      · cases heq
        exact hbound
      · exact absurd rfl hne
  cases a with
  | exec =>
      cases ha
      obtain ⟨-, hstep⟩ := Option.ite_none_right_eq_some.mp hstep
      simp only [processOne, hpc, Option.some.injEq] at hstep
      subst hstep
      exact .inl (hadded rfl)
  | execFail e' took =>
      have hdropped (hlt : (s'.ledger h.job).live + 1 ≤ (s.ledger h.job).live) : s'.Stuck h.job :=
        stuck_of_dropped wf lease hok hstep ha (by rw [hpc]; rintro _ _ ⟨⟩) hlt
      cases ha
      obtain ⟨-, hstep⟩ := Option.ite_none_right_eq_some.mp hstep
      simp only [fails, hpc] at hstep
      split at hstep <;> cases hstep
      · exact .inl (hadded rfl)
      · right
        apply hdropped
        have hend := live_endExec h.job he
        rw [Exec.liveAt_eq_one (by rw [hpc]; rfl)
          (lease.named e he h.job (by rw [hpc]; rfl))] at hend
        exact hend.le
  | _ => cases ha

/-- The next attempt goes on waiting until its time has come. -/
theorem State.Waits.step (waits : s.Waits job bound) (wf : LiveWf s) (lease : LeaseWf cfg s)
    (hok : OnTime s a) (hstep : QueueFlow.step cfg s a = some s') :
    bound ≤ s.dateNow ∨ s'.Waits job bound ∨ s'.Stuck job := by
  have hkill {e : Exec} (ha : a = .kill e.worker) : False := by
    subst ha
    exact hok.1
  have hpos := count_of_waits lease waits
  cases waits with
  | parking e h message runAt he hpc hjob hbound =>
      subst hjob
      rcases mem_execs_of_step hstep he with he' | ha | ha
      · exact .inr (.inl (.parking e h message runAt he' hpc rfl hbound))
      · exact .inr (waits_of_park wf lease hok.1 hstep he ha hpc hbound)
      · exact (hkill ha).elim
  | parked e h runAt he hpc hjob hbound =>
      subst hjob
      rcases mem_execs_of_step hstep he with he' | ha | ha
      · exact .inr (.inl (.parked e h runAt he' hpc rfl hbound))
      · exact .inr (waits_of_zadd wf lease hok.1 hstep he ha hpc hbound)
      · exact (hkill ha).elim
  | delayed hin hbound =>
      rcases isDelayed_of_step hstep hin with hin' | ⟨due, pick, rfl, -⟩
      · refine .inr (.inl (.delayed hin' fun score hmem => ?_))
        rcases delayed_of_step hstep hmem with hmem | ⟨e, hold, runAt, ha, hpc, heq⟩
        · exact hbound score hmem
        · -- Another execution about to add the id would be a second live copy.
          have hjob : job = hold.job := uuidOut_inj (congrArg Prod.fst heq)
          have he := exec_mem_of_step hstep ha
          have hparked : 0 < (s.ledger job).count .parked := count_pos_of_exec he
            (lease.named e he job (by rw [hpc, hjob]; rfl)) (by rw [hpc]; rfl)
          have hdelayed : 0 < (s.ledger job).count .delayed := State.count_pos
            (State.mem_tokens.mpr (.inr (.inr (.inl (by simp [State.delayedAt, hin])))))
          have hone := (wf job).1
          simp only [Ledger.live] at hone
          omega
      · obtain ⟨score, hmem⟩ := Redis.isDelayed_iff.mp hin
        exact .inl ((hbound score hmem).trans (hok.2 _ hmem rfl))

/-! ## Runs -/

/-- What is known of a job in an undisturbed run after an attempt has failed: its time has come,
or it waits, or it is stuck. -/
structure BackoffWf (cfg : Config) (s : State) (job : Uuid) (bound : Nat) : Prop where
  lease : LeaseWf cfg s
  canonical : s.Canonical
  live : LiveWf s
  waits : bound ≤ s.dateNow ∨ s.Waits job bound ∨ s.Stuck job

theorem State.Canonical.step (canonical : s.Canonical) (hstep : QueueFlow.step cfg s a = some s') :
    s'.Canonical := by
  intro m hm
  rcases delayed_of_step hstep hm with hm | ⟨e, hold, runAt, -, -, rfl⟩
  · exact canonical m hm
  · exact ⟨hold.job, rfl⟩

theorem BackoffWf.step (wf : BackoffWf cfg s job bound) (hok : OnTime s a)
    (hstep : QueueFlow.step cfg s a = some s') : BackoffWf cfg s' job bound where
  lease := wf.lease.step hstep
  canonical := wf.canonical.step hstep
  live := wf.live.step wf.lease wf.canonical hok.1 hstep
  waits := by
    have hclock := dateNow_le_of_step hstep
    rcases wf.waits with hnow | hwaits | hstuck
    · exact .inl (hnow.trans hclock)
    · exact (hwaits.step wf.live wf.lease hok hstep).imp_left hclock.trans'
    · exact .inr (.inr (hstuck.step wf.lease wf.canonical hok.1 hstep))

/-- Nobody tries to claim a job that waits or is stuck. -/
theorem BackoffWf.not_claimed (wf : BackoffWf cfg s job bound) (he : e ∈ s.execs) {m : Nat}
    (hpc : e.pc = .claim job m) : bound ≤ s.dateNow := by
  have htaken : 0 < (s.ledger job).count .taken := count_pos_of_exec he
    (wf.lease.named e he job (by rw [hpc]; rfl)) (by rw [hpc]; rfl)
  have hone := (wf.live job).1
  simp only [Ledger.live] at hone
  rcases wf.waits with hnow | hwaits | ⟨hzero, -⟩
  · exact hnow
  · have := count_of_waits wf.lease hwaits
    omega
  · simp only [Ledger.live] at hzero
    omega

variable {s₁ t t' : State} {b : Act}

/-- In every undisturbed run whose promoters remove what is due: where an attempt fails that is not
the last, the job is not claimed again before the time of the failure plus
`min(2^n * RETRY_BASE_MS, RETRY_MAX_MS)`. -/
theorem backoff_honoured (hrun : Reaches cfg OnTime s) (hfails : a.fails? = some (h, random))
    (hattempt : h.attempts < h.maxAttempts) (hstep : step cfg s a = some s₁)
    (hrun₁ : Run (step cfg) OnTime s₁ t) (hclaims : b.claims? t = some h.job)
    (hclaim : step cfg t b = some t') :
    s.dateNow + min (2 ^ h.attempts * cfg.baseMs) cfg.maxMs ≤ t.dateNow := by
  have hwf : LeaseWf cfg s ∧ s.Canonical ∧ LiveWf s := by
    refine hrun.invariant (P := fun s => LeaseWf cfg s ∧ s.Canonical ∧ LiveWf s)
      ⟨.init, nofun, .init⟩ ?_
    exact fun t a u ⟨lease, canonical, live⟩ hok hstep =>
      ⟨lease.step hstep, canonical.step hstep, live.step lease canonical hok.1 hstep⟩
  obtain ⟨lease, canonical, live⟩ := hwf
  have hok : Undisturbed s a := by
    cases a with
    | exec | execFail => trivial
    | _ => cases hfails
  have hfailed : BackoffWf cfg s₁ h.job (s.dateNow + min (2 ^ h.attempts * cfg.baseMs) cfg.maxMs) :=
    ⟨lease.step hstep, canonical.step hstep, live.step lease canonical hok hstep,
      .inr (.inl (waits_of_fails hfails hattempt hstep))⟩
  have hlater := hrun₁.invariant (P := fun t => BackoffWf cfg t h.job _) hfailed
    fun _ _ _ wf hok hstep => wf.step hok hstep
  unfold Act.claims? at hclaims
  split at hclaims
  · rename_i job m hpc
    obtain ⟨e, ha, hpc⟩ := Option.map_eq_some_iff.mp hpc
    split at hclaims <;> cases hclaims
    exact hlater.not_claimed (exec_mem_of_step hclaim ha) hpc
  · cases hclaims

end

/-! ## Two schedulers -/

open Script in
/-- The first attempt fails, is promoted when it is due, and is claimed again. -/
theorem backoff_honoured_once : ∃ s s₁ t t', Reaches defaults OnTime s ∧
    step defaults s (.exec ⟨['a'], uuidOut (job 1), .handler ⟨job 1, 0, 1, 5⟩⟩ threw) = some s₁ ∧
    Run (step defaults) OnTime s₁ t ∧
    step defaults t (.exec ⟨['a'], uuidOut (job 1), .claim (job 1) 5⟩ .returned) = some t' ∧
    s.dateNow + 2000 ≤ t.dateNow := by
  obtain ⟨s, s₁, t, hs, hfail, ht, hclaims, hclaim⟩ : ∃ s s₁ t, Reaches defaults OnTime s ∧
      step defaults s (.exec ⟨['a'], uuidOut (job 1), .handler ⟨job 1, 0, 1, 5⟩⟩ threw) = some s₁ ∧
      Run (step defaults) OnTime s₁ t ∧
      (Act.exec ⟨['a'], uuidOut (job 1), .claim (job 1) 5⟩ .returned).claims? t = some (job 1) ∧
      (step defaults t (.exec ⟨['a'], uuidOut (job 1), .claim (job 1) 5⟩ .returned)).isSome = true :=
    exists_step_of_play (fun _ t =>
      (Act.exec ⟨['a'], uuidOut (job 1), .claim (job 1) 5⟩ .returned).claims? t = some (job 1) ∧
        (step defaults t (.exec ⟨['a'], uuidOut (job 1), .claim (job 1) 5⟩ .returned)).isSome = true)
    (start ['a'] ++ submit (job 1) ++ takes ['a'] 2)
    (List.replicate 3 (.work ['a'] .returned) ++ [.act .startSched, .act (.tick 60000000)] ++
      promotes ++ takes ['a'] 1)
    (by decide +kernel)
  obtain ⟨t', ht'⟩ := Option.isSome_iff_exists.mp hclaim
  exact ⟨s, s₁, t, t', hs, hfail, ht, ht',
    backoff_honoured hs (h := ⟨job 1, 0, 1, 5⟩) rfl (by decide) hfail ht hclaims ht'⟩

open Script in
/-- A scheduler asks for the ids that are due and stops. Another one promotes the job, the second
attempt fails and is parked for four seconds, and then the first one removes the id. -/
theorem backoff_cut_short : ∃ s s₁ t t', Reaches defaults Undisturbed s ∧
    step defaults s (.exec ⟨['a'], uuidOut (job 1), .handler ⟨job 1, 1, 2, 5⟩⟩ threw) = some s₁ ∧
    Run (step defaults) Undisturbed s₁ t ∧
    step defaults t (.exec ⟨['a'], uuidOut (job 1), .claim (job 1) 5⟩ .returned) = some t' ∧
    (Act.exec ⟨['a'], uuidOut (job 1), .claim (job 1) 5⟩ .returned).claims? t = some (job 1) ∧
    t.dateNow < s.dateNow + min (2 ^ 2 * 1000) 60000 := by
  obtain ⟨s, s₁, t, hs, hfail, ht, hclaims, hclaim, hearly⟩ :
      ∃ s s₁ t, Reaches defaults Undisturbed s ∧
      step defaults s (.exec ⟨['a'], uuidOut (job 1), .handler ⟨job 1, 1, 2, 5⟩⟩ threw) = some s₁ ∧
      Run (step defaults) Undisturbed s₁ t ∧
      (Act.exec ⟨['a'], uuidOut (job 1), .claim (job 1) 5⟩ .returned).claims? t = some (job 1) ∧
      (step defaults t (.exec ⟨['a'], uuidOut (job 1), .claim (job 1) 5⟩ .returned)).isSome = true ∧
      t.dateNow < s.dateNow + min (2 ^ 2 * 1000) 60000 := exists_step_of_play
    (fun s t =>
      (Act.exec ⟨['a'], uuidOut (job 1), .claim (job 1) 5⟩ .returned).claims? t = some (job 1) ∧
        (step defaults t (.exec ⟨['a'], uuidOut (job 1), .claim (job 1) 5⟩ .returned)).isSome = true ∧
          t.dateNow < s.dateNow + min (2 ^ 2 * 1000) 60000)
    (start ['a'] ++ submit (job 1) ++ throws ['a'] 3 ++
      [.act .startSched, .act .startSched, .act (.tick 60000000), .sched .next, .otherSched .next] ++
      List.replicate 4 (.sched .next) ++ takes ['a'] 2)
    (List.replicate 3 (.work ['a'] .returned) ++
      [.otherSched .next, .sched .next, .sched .next] ++ takes ['a'] 1)
    (by decide +kernel)
  obtain ⟨t', ht'⟩ := Option.isSome_iff_exists.mp hclaim
  exact ⟨s, s₁, t, t', hs, hfail, ht, ht', hclaims, hearly⟩

end QueueFlow
