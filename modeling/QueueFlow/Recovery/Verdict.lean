-- SUMMARY: The entry that reapWorker moves is the one it judged, while no other actor takes that list's tail; with two schedulers it need not be.
import QueueFlow.Frame
import QueueFlow.Script

/-!
# The reaper's verdict

`reapWorker` peeks at the tail of a list, asks Postgres twice, and then moves
whatever is at the tail. `VerdictWf` says that the tail is still the entry it
peeked at. Its own commands keep that; what the others have to leave alone is
`KeepsVerdicts`.
-/

namespace QueueFlow

open Transition

/-- The entry whose row `reapWorker` has set to 'queued' and which it is about to move. -/
def Sched.moving : Sched → Option Text
  | .reapMove _ id _ => some id
  | _ => none

/-- The entry whose row `reapWorker` has found worth rescuing. -/
def Sched.rescuing : Sched → Option Text
  | .reapRequeue _ id _ => some id
  | .reapMove _ id _ => some id
  | _ => none

/-- The schedulers other than the one that acts. -/
def Act.otherScheds (s : State) : Act → List Sched
  | .sched σ _ => s.scheds.erase σ
  | .schedFail σ => s.scheds.erase σ
  | .schedKill σ => s.scheds.erase σ
  | _ => s.scheds

/-- Between the `LINDEX` and the `LMOVE` of an iteration nobody else takes the tail
off the list, and between its UPDATE and its `LMOVE` nobody claims the job. -/
def KeepsVerdicts (s : State) (a : Act) : Prop :=
  ∀ σ ∈ a.otherScheds s,
    (∀ p ∈ σ.judging, KeyedList.last? (a.trimmed s) p.1 = KeyedList.last? s.redis.processing p.1) ∧
      ∀ id ∈ σ.moving, ∀ job ∈ a.claims? s, uuidIn id ≠ some job

instance (s : State) (a : Act) : Decidable (KeepsVerdicts s a) :=
  inferInstanceAs (Decidable (∀ _ ∈ _, _))

/-- What holds of a scheduler inside an iteration of `reapWorker`. -/
structure VerdictOk (s : State) (σ : Sched) : Prop where
  /-- The entry it judges is still the tail of the list. -/
  tail : ∀ key id, σ.judging = some (key, id) → KeyedList.last? s.redis.processing key = some id
  /-- The entry it rescues names a job. -/
  named : ∀ id, σ.rescuing = some id → ∃ job r, uuidIn id = some job ∧ s.db.row job = some r
  /-- The job it is about to move is not running. -/
  idle : ∀ id, σ.moving = some id → ∀ job, uuidIn id = some job → ∀ r, s.db.row job = some r →
    r.status ≠ .running

/-- Every scheduler's iteration is in order. -/
def VerdictWf (s : State) : Prop := ∀ σ ∈ s.scheds, VerdictOk s σ

namespace VerdictOk

variable {cfg : Config} {s s' : State} {σ : Sched}

/-- Outside an iteration there is nothing to check. -/
theorem of_judging_none (hσ : σ.judging = none) : VerdictOk s σ where
  tail key id h := by rw [hσ] at h; cases h
  named id h := by cases σ <;> simp_all [Sched.judging, Sched.rescuing]
  idle id h := by cases σ <;> simp_all [Sched.judging, Sched.moving]

/-- Another actor's step leaves a verdict standing. -/
theorem frame {a : Act} (ok : VerdictOk s σ) (h : step cfg s a = some s')
    (htail : ∀ p ∈ σ.judging,
      KeyedList.last? (a.trimmed s) p.1 = KeyedList.last? s.redis.processing p.1)
    (hclaim : ∀ id ∈ σ.moving, ∀ job ∈ a.claims? s, uuidIn id ≠ some job) : VerdictOk s' σ where
  tail key id hσ := by
    have hlast := ok.tail key id hσ
    rcases step_processing h with heq | heq | ⟨w, id', -, heq⟩ <;> rw [heq]
    · exact hlast
    · rw [htail (key, id) hσ]
      exact hlast
    · exact KeyedList.last?_pushLeft hlast
  named id hσ := by
    obtain ⟨job, r, hid, hrow⟩ := ok.named id hσ
    obtain ⟨r', hrow'⟩ := row_of_step h hrow
    exact ⟨job, r', hid, hrow'⟩
  idle id hσ job hid r hrow hrun := by
    rcases row_running_of_step h hrow hrun with hrow | hclaims
    · exact ok.idle id hσ job hid r hrow hrun
    · exact hclaim id hσ job hclaims hid

/-- The scheduler's own next command keeps its iteration in order. -/
theorem own (ok : VerdictOk s σ) (h : SchedMove s σ s') :
    s'.scheds = s.scheds.erase σ ∨
      ∃ σ', s'.scheds = Bag.swap s.scheds σ σ' ∧ VerdictOk s' σ' := by
  cases h with
  | quiet σ' _ _ hreap =>
      refine .inr ⟨σ', rfl, .of_judging_none ?_⟩
      cases σ' <;> simp_all [Sched.judging, Sched.reaping]
  | crashed => exact .inl rfl
  | removed | promoted | pushed | check | dropped | moved | emptied | swept =>
      exact .inr ⟨_, rfl, .of_judging_none rfl⟩
  | peek key id keys hpc hlast | junk key id keys hpc hlast =>
      refine .inr ⟨_, rfl, ?_, nofun, nofun⟩
      rintro key' id' ⟨⟩
      exact hlast
  | select key id keys job hpc hid =>
      subst hpc
      have hlast := ok.tail key id rfl
      refine .inr ⟨_, rfl, ?_⟩
      rcases judge_cases key id keys (s.db.row job) with
        ⟨heq, -⟩ | ⟨r, hrow, -, -, ⟨heq, -⟩ | ⟨heq, -⟩⟩ <;> rw [heq]
      · exact ⟨by rintro _ _ ⟨⟩; exact hlast, nofun, nofun⟩
      · exact ⟨by rintro _ _ ⟨⟩; exact hlast, nofun, nofun⟩
      · refine ⟨by rintro _ _ ⟨⟩; exact hlast, ?_, nofun⟩
        rintro _ ⟨⟩
        exact ⟨job, r, hid, hrow⟩
  | buried key id keys job hpc =>
      subst hpc
      refine .inr ⟨_, rfl, ?_, nofun, nofun⟩
      rintro _ _ ⟨⟩
      exact ok.tail key id rfl
  | requeued key id keys job hpc hid =>
      subst hpc
      obtain ⟨job', r, hid', hrow⟩ := ok.named id rfl
      rw [hid] at hid'
      cases hid'
      have hrow' : (s.db.updateRow job .requeued).row job = some (.requeued r) :=
        Db.row_updateRow_self Db.keepsId_requeued hrow
      refine .inr ⟨_, rfl, ?_, ?_, ?_⟩
      · rintro _ _ ⟨⟩
        exact ok.tail key id rfl
      · rintro _ ⟨⟩
        exact ⟨job, _, hid, hrow'⟩
      · rintro _ ⟨⟩ job' hid' r' hr' hrun
        rw [hid] at hid'
        cases hid'
        have hr' : (s.db.updateRow job .requeued).row job = some r' := hr'
        rw [hrow'] at hr'
        cases hr'
        cases hrun

end VerdictOk

namespace VerdictWf

variable {cfg : Config} {s s' : State} {a : Act}

/-- A step of a scheduler keeps the iterations of all of them in order. -/
theorem schedStep {σ : Sched} (wf : VerdictWf s) (hσ : σ ∈ s.scheds)
    (hothers : ∀ σ' ∈ s.scheds.erase σ, VerdictOk s' σ') (h : SchedMove s σ s') :
    VerdictWf s' := by
  intro σ' hmem
  rcases (wf σ hσ).own h with heq | ⟨τ, heq, hτ⟩ <;> rw [heq] at hmem
  · exact hothers σ' hmem
  · rcases List.mem_cons.mp hmem with rfl | hmem
    · exact hτ
    · exact hothers σ' hmem

theorem step (wf : VerdictWf s) (hok : KeepsVerdicts s a) (h : QueueFlow.step cfg s a = some s') :
    VerdictWf s' := by
  have hothers : ∀ σ ∈ a.otherScheds s, σ ∈ s.scheds → VerdictOk s' σ := fun σ hσ hmem =>
    (wf σ hmem).frame h (hok σ hσ).1 (hok σ hσ).2
  have hkept : a.otherScheds s = s.scheds → s'.scheds = s.scheds → VerdictWf s' :=
    fun hall heq σ hσ => hothers σ (hall ▸ heq ▸ hσ) (heq ▸ hσ)
  cases a with
  | sched σ pick =>
      have hothers' : ∀ σ' ∈ s.scheds.erase σ, VerdictOk s' σ' := fun σ' hσ' =>
        hothers σ' hσ' (List.mem_of_mem_erase hσ')
      obtain ⟨hσ, h⟩ := Option.ite_none_right_eq_some.mp h
      exact wf.schedStep hσ hothers' (schedule_cases h)
  | schedFail σ =>
      have hothers' : ∀ σ' ∈ s.scheds.erase σ, VerdictOk s' σ' := fun σ' hσ' =>
        hothers σ' hσ' (List.mem_of_mem_erase hσ')
      obtain ⟨hσ, h⟩ := Option.ite_none_right_eq_some.mp h
      exact wf.schedStep hσ hothers' (abandonPass_cases h)
  | schedKill σ =>
      have hothers' : ∀ σ' ∈ s.scheds.erase σ, VerdictOk s' σ' := fun σ' hσ' =>
        hothers σ' hσ' (List.mem_of_mem_erase hσ')
      obtain ⟨hσ, h⟩ := Option.ite_none_right_eq_some.mp h
      cases h
      exact hothers'
  | startSched =>
      intro σ hσ
      have hmem : σ = .idle ∨ σ ∈ s.scheds := by
        cases h
        exact List.mem_cons.mp hσ
      rcases hmem with rfl | hmem
      · exact .of_judging_none rfl
      · exact hothers σ hmem hmem
  | tick | request =>
      refine hkept rfl ?_
      cases h
      rfl
  | api =>
      refine hkept rfl ?_
      obtain ⟨-, h⟩ := Option.ite_none_right_eq_some.mp h
      cases handle_cases h <;> rfl
  | apiCrash =>
      refine hkept rfl ?_
      obtain ⟨-, h⟩ := Option.ite_none_right_eq_some.mp h
      cases h
      rfl
  | spawn =>
      refine hkept rfl ?_
      obtain ⟨-, -, rfl⟩ := spawn_cases h
      rfl
  | recoverOwn =>
      refine hkept rfl ?_
      cases recoverOwnProcessing_cases h <;> rfl
  | beat =>
      refine hkept rfl ?_
      obtain ⟨-, rfl⟩ := beat_cases h
      rfl
  | expire =>
      refine hkept rfl ?_
      cases expire_cases h
      rfl
  | take =>
      refine hkept rfl ?_
      obtain ⟨c, rest, id, -, -, rfl⟩ := take_cases h
      rfl
  | exec =>
      refine hkept rfl ?_
      obtain ⟨-, h⟩ := Option.ite_none_right_eq_some.mp h
      cases processOne_cases h <;> rfl
  | execFail =>
      refine hkept rfl ?_
      obtain ⟨-, h⟩ := Option.ite_none_right_eq_some.mp h
      cases fails_cases h <;> rfl
  | kill =>
      refine hkept rfl ?_
      cases kill_cases h
      rfl

end VerdictWf

/-- In every run in which nobody else takes the tail of a list that is being judged
or claims the job that is being rescued, the `LMOVE` of `reapWorker` puts on
`pending` the id it judged, and the row of that job is not running. -/
theorem reapMove_moves_judged {cfg : Config} {s s' : State} (hs : Reaches cfg KeepsVerdicts s)
    {key : WorkerId} {id : Text} {keys : List WorkerId} {pick : Pick}
    (h : step cfg s (.sched (.reapMove key id keys) pick) = some s') :
    s'.redis.pending = s.redis.pending ++ [id] ∧
      ∃ job r, uuidIn id = some job ∧ s'.db.row job = some r ∧ r.status ≠ .running := by
  have wf : VerdictWf s := hs.invariant nofun fun _ _ _ wf hok hstep => wf.step hok hstep
  obtain ⟨hσ, h⟩ := Option.ite_none_right_eq_some.mp h
  have ok := wf _ hσ
  have hlast := ok.tail key id rfl
  obtain ⟨job, r, hid, hrow⟩ := ok.named id rfl
  have hmoved : s' = (s.withRedis
      { s.redis with pending := s.redis.pending ++ [id],
                     processing := KeyedList.removeRight s.redis.processing key id }).setSched
        (.reapMove key id keys) (.reapPeek key keys) := by
    simpa [schedule, reapDead, Redis.lmove, hlast] using h.symm
  rw [hmoved]
  exact ⟨rfl, job, r, hid, hrow, ok.idle id rfl job hid r hrow⟩

open Script in
/-- One reaper rescues the job of a killed worker. -/
theorem reapMove_moves_judged_killed :
    ∃ s s', step defaults s (.sched (.reapMove ['a'] (uuidOut (job 1)) []) .next) = some s' ∧
      s'.redis.pending = s.redis.pending ++ [uuidOut (job 1)] ∧
      ∃ j r, uuidIn (uuidOut (job 1)) = some j ∧ s'.db.row j = some r ∧ r.status ≠ .running := by
  have hrun : ∃ s, Reaches defaults KeepsVerdicts s ∧
      (step defaults s (.sched (.reapMove ['a'] (uuidOut (job 1)) []) .next)).isSome = true :=
    exists_run_of_play
      (start ['a'] ++ submit (job 1) ++ takes ['a'] 2 ++
        [.act (.kill ['a']), .act (.expire ['a']), .act .startSched] ++ reaps ['a'] 5)
      (by decide +kernel)
  obtain ⟨s, hs, hstep⟩ := hrun
  obtain ⟨s', hstep⟩ := Option.isSome_iff_exists.mp hstep
  exact ⟨s, s', hstep, reapMove_moves_judged hs hstep⟩

open Script in
/-- Two schedulers reap the same list of a suspected worker that runs two jobs. Both
judge the older job; the first `LMOVE` takes it, and the second takes the other job,
whose row is running. -/
theorem two_reapers_move_running :
    ∃ s s', Reaches defaults (fun _ a => a.isFault = false) s ∧
      step defaults s (.sched (.reapMove ['a'] (uuidOut (job 1)) []) .next) = some s' ∧
      s'.redis.pending = s.redis.pending ++ [uuidOut (job 2)] ∧
      (s'.db.row (job 2)).any (·.status = .running) = true := by
  have hrun : ∃ s, Reaches defaults (fun _ a => a.isFault = false) s ∧
      (step defaults s (.sched (.reapMove ['a'] (uuidOut (job 1)) []) .next)).any (fun s' =>
        s'.redis.pending = s.redis.pending ++ [uuidOut (job 2)] ∧
          (s'.db.row (job 2)).any (·.status = .running) = true) = true :=
    exists_run_of_play
      (start ['a'] ++ submit (job 1) ++ submit (job 2) ++ takes ['a'] 2 ++ takes ['a'] 2 ++
        [.act (.expire ['a']), .act .startSched] ++ reaps ['a'] 5 ++ [.act .startSched] ++
        reaps ['a'] 5 ++ [.otherSched .next])
      (by decide +kernel)
  obtain ⟨s, hs, hstep⟩ := hrun
  obtain ⟨s', hstep, hs'⟩ := (Option.any_eq_true _ _).mp hstep
  simp only [decide_eq_true_eq] at hs'
  exact ⟨s, s', hs, hstep, hs'⟩

end QueueFlow
