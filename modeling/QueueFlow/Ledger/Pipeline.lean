-- SUMMARY: Without faults and recoveries a job is in one place, until a replay pushes an id that the worker does not accept.
import QueueFlow.Ledger.Refines
import QueueFlow.Ids.Canonical
import QueueFlow.Recovery.Fresh
import QueueFlow.Script

/-!
# The pipeline

In a run without faults every ledger has one live copy while its job is to be done and none when it
is over, and a processing list holds the entries of its worker's executions and no others. The
guards of `Careful` follow from that: nothing is ever left behind.
-/

namespace QueueFlow

open Transition

/-! ## One place -/

/-- The job is to be done, now or later. -/
def JobStatus.unfinished : JobStatus → Bool
  | .queued | .running | .retrying => true
  | _ => false

namespace Ledger

variable {c c' : Ledger}

/-- One live copy of a job that is to be done, and none of any other. -/
def Exact (c : Ledger) : Prop := c.live = if c.status.any JobStatus.unfinished then 1 else 0

/-- Without faults the rules keep the number of live copies. -/
theorem Exact.step (exact : c.Exact) (ok : c.Ok) (h : Step False c c') : c'.Exact := by
  have hrunning := ok.running_of_owning
  have hretrying := ok.retrying_of_waiting
  obtain ⟨-, hok⟩ := ok
  unfold Exact at exact ⊢
  cases h with
  | idle h | submit h | take h | delay h | postpone _ h | release h | remove h | push h =>
    have hc := h.counts
    simp at hc
    rw [h.status]
    rcases hs : c.status with _ | (_ | _ | _ | _ | _ | _) <;>
      simp [hs, JobStatus.unfinished, live] at exact ⊢ <;> omega
  | insert hs h | replay hs _ h =>
    have hc := h.counts
    simp at hc
    rw [h.status]
    simp [hs, JobStatus.unfinished, live] at exact ⊢
    omega
  | claim hs h =>
    have hc := h.counts
    simp at hc
    rw [h.status]
    rcases hs with hs | hs <;> simp [hs, JobStatus.unfinished, live] at exact ⊢ <;> omega
  | skip hs h =>
    -- An execution that has not claimed its job finds it claimable.
    have hc := h.counts
    simp at hc
    rcases hs' : c.status with _ | (_ | _ | _ | _ | _ | _) <;>
      simp [hs', JobStatus.unfinished, live] at hs hok exact <;> omega
  | settle h | bury h | park h =>
    have hc := h.counts
    simp at hc
    have hs := hrunning (by omega)
    rw [h.status]
    simp [hs, JobStatus.unfinished, live] at exact ⊢
    omega
  | promote _ h =>
    have hc := h.counts
    simp at hc
    have hs := hretrying (by omega)
    rw [h.status]
    simp [hs, JobStatus.unfinished, live] at exact ⊢
    omega
  | abandon hf | discard hf | die hf | judge hf | reapBury hf | requeue hf | rescue hf | giveUp hf
  | drop hf | reset hf | recover hf | sweep hf => exact hf.elim

end Ledger

/-! ## Runs without faults -/

/-- No process dies, no command fails, and no recovery pass starts. -/
def FaultFree (a : Act) : Prop := a.isFault = false ∧ a ≠ .sched .idle .recover

/-- A replay that finds its row dead spells the id so that the worker accepts it. -/
def AcceptedReplay (s : State) : Act → Prop
  | .api (.replay id) g => (Act.replays? s (.api (.replay id) g)).isSome = true → isUuid id = true
  | _ => True

/-- Runs without faults whose replays the worker accepts. -/
def Unhindered (s : State) (a : Act) : Prop := FaultFree a ∧ AcceptedReplay s a

instance (a : Act) : Decidable (FaultFree a) := inferInstanceAs (Decidable (_ ∧ _))

instance (s : State) (a : Act) : Decidable (AcceptedReplay s a) := by
  induction a using Act.casesOn with
  | api a =>
      induction a using Api.casesOn with
      | replay => exact inferInstanceAs (Decidable (_ → _))
      | _ => exact .isTrue trivial
  | _ => exact .isTrue trivial

instance (s : State) (a : Act) : Decidable (Unhindered s a) := inferInstanceAs (Decidable (_ ∧ _))

/-- The processing lists hold the entries of the executions and no others. -/
def State.Paired (s : State) : Prop := s.redis.processing.Perm (s.execs.map Exec.key)

section

variable {cfg : Config} {s s' : State} {a : Act} {e : Exec} {job : Uuid}

namespace State.Paired

/-- An execution moves, and keeps its entry. -/
theorem setExec {t : State} {pc : ExecPc} (paired : s.Paired) (he : e ∈ s.execs)
    (hprocessing : t.redis.processing = s.redis.processing) (hexecs : t.execs = s.execs) :
    (t.setExec e pc).Paired := by
  have hold : (s.execs.map Exec.key).Perm (e.key :: (s.execs.erase e).map Exec.key) :=
    (List.perm_cons_erase he).map Exec.key
  unfold State.Paired
  rw [State.setExec_redis, State.setExec_execs, hprocessing, hexecs]
  exact paired.trans hold

/-- An execution ends together with its entry. -/
theorem letGo (paired : s.Paired) (he : e ∈ s.execs) (hmem : e.key ∈ s.redis.processing) :
    ((s.withRedis (s.redis.lrem e.worker e.id)).endExec e).Paired := by
  have hlist : s.redis.processing.Perm (e.key :: KeyedList.removeLeft s.redis.processing e.worker e.id) :=
    KeyedList.perm_cons_removeLeft hmem
  have hexecs : (s.execs.map Exec.key).Perm (e.key :: (s.execs.erase e).map Exec.key) :=
    (List.perm_cons_erase he).map Exec.key
  exact List.Perm.cons_inv (hlist.symm.trans (paired.trans hexecs))

/-- There are as many entries as executions, whatever they are counted by. -/
theorem countP_eq (paired : s.Paired) (p : WorkerId × Text → Bool) :
    s.redis.processing.countP p = s.execs.countP fun e => p e.key := by
  rw [List.Perm.countP_eq p paired, List.countP_map]
  rfl

/-- No entry is left behind. -/
theorem listed_eq (paired : s.Paired) (job : Uuid) :
    (s.ledger job).count .listed = (s.ledger job).execs := by
  rw [State.count_listed, State.count_execs]
  exact paired.countP_eq fun k => uuidIn k.2 = some job

theorem not_left (paired : s.Paired) (job : Uuid) : ¬ (s.ledger job).Left := by
  have := paired.listed_eq job
  simp only [Ledger.Left]
  omega

end State.Paired

/-- What holds in a run without faults. -/
structure PipelineWf (cfg : Config) (s : State) : Prop where
  ledger : LedgerWf cfg s
  holding : HoldingWf s
  sweep : SweepWf s
  newborn : NewbornWf s
  remain : ∀ w, s.procs w ≠ .gone
  resting : ∀ σ ∈ s.scheds, σ.recovering = false
  /-- Whatever text reaches a worker, it accepts it. -/
  accepted : ∀ t, s.Circulates t → isUuid t = true
  random : ∀ job, s.Known job → job.isRandom = true
  paired : s.Paired
  exact : ∀ job, (s.ledger job).Exact

namespace PipelineWf

theorem init : PipelineWf cfg .init where
  ledger := .init
  holding := .init
  sweep := .init
  newborn := .init
  remain _ h := by cases h
  resting := by rintro σ ⟨⟩
  accepted t ht := by
    cases ht with
    | pending h | listed w h | delayed score h | promoting σ h | pushing x h => cases h
  random job known := by
    obtain ⟨r, hrow⟩ := known
    cases hrow
  paired := .nil
  exact _ := rfl

/-! ### What the step may rely on -/

/-- A process that is starting has nothing to recover. -/
theorem no_recovery (wf : PipelineWf cfg s) {w : WorkerId} {c : Nat} :
    (∀ ids, s.procs w ≠ .starting (.reset ids) c) ∧ s.procs w ≠ .starting .moveAll c :=
  ⟨fun ids hp => (wf.newborn.starting w _ c hp).1 ids rfl,
    fun hp => (wf.newborn.starting w _ c hp).2 rfl⟩

/-- A scheduler that takes a step is running `promoteDue`. -/
theorem not_recovering (wf : PipelineWf cfg s) {σ : Sched} {pick : Pick}
    (h : QueueFlow.step cfg s (.sched σ pick) = some s') : σ.recovering = false :=
  wf.resting σ (Option.ite_none_right_eq_some.mp h).1

theorem steady (wf : PipelineWf cfg s) (hok : FaultFree a) (h : QueueFlow.step cfg s a = some s') :
    Steady s a := by
  cases a with
  | spawn w c =>
      obtain ⟨hfresh | hgone, -, -⟩ := spawn_cases h
      · exact .inl hfresh
      · exact absurd hgone (wf.remain w)
  | recoverOwn w deadline =>
      intro _ halive
      have hnew : (s.procs w).isNewborn = true := by
        cases hp : s.procs w with
        | starting => rfl
        | fresh => rfl
        | running | gone => simp [QueueFlow.step, recoverOwnProcessing, hp] at h
      exact (wf.newborn.newborn w hnew).2 halive
  | sched σ pick =>
      have hrest := wf.not_recovering h
      cases σ with
      | idle =>
          cases pick with
          | recover => exact absurd rfl hok.2
          | next | visit => trivial
      | promoting | promoteUpdate | promotePush => trivial
      | _ => cases hrest
  | tick | request | api | apiCrash | beat | expire | take | exec | execFail | kill | startSched
  | schedFail | schedKill => trivial

theorem careful (wf : PipelineWf cfg s) (hok : FaultFree a) (h : QueueFlow.step cfg s a = some s') :
    Careful s a := by
  cases a with
  | kill => cases hok.1
  | recoverOwn w deadline =>
      intro k hk
      simp only [Act.recovers] at hk
      split at hk
      · rename_i hp
        exact absurd hp wf.no_recovery.2
      · cases hk
  | api x =>
      cases x with
      | replay id =>
          -- The dead job has no live copy, and an entry of it would belong to an execution.
          intro job hid hdead
          have hlive := wf.exact job
          have hlisted := wf.paired.listed_eq job
          simp only [Ledger.Exact, hdead, Option.any_some, JobStatus.unfinished] at hlive
          simp [Ledger.live, Ledger.execs] at hlive hlisted
          simp only [Ledger.Clear, Ledger.live]
          omega
      | insert | lookup | refuse | push => trivial
  | sched σ pick =>
      have hrest := wf.not_recovering h
      cases σ with
      | promoteUpdate id due => exact fun job _ => wf.paired.not_left job
      | idle | promoting | promotePush => trivial
      | _ => cases hrest
  | tick | request | apiCrash | spawn | beat | expire | take | exec | execFail | startSched
  | schedFail | schedKill => trivial

theorem not_disrupts (wf : PipelineWf cfg s) (hok : FaultFree a)
    (h : QueueFlow.step cfg s a = some s') : a.disrupts s = false := by
  cases a with
  | apiCrash | kill | schedFail | schedKill => cases hok.1
  | recoverOwn w deadline =>
      simp only [Act.disrupts]
      split
      · rename_i hp
        exact absurd hp (wf.no_recovery.1 _)
      · rename_i hp
        exact absurd hp wf.no_recovery.2
      · rfl
  | take w =>
      simp only [Act.disrupts]
      cases hlast : s.redis.pending.getLast? with
      | none => rfl
      | some id => simp [wf.accepted id (.pending (List.mem_of_getLast? hlast))]
  | sched σ pick => exact wf.not_recovering h
  | tick | request | api | spawn | beat | expire | exec | execFail | startSched => rfl

/-! ### What a step keeps -/

theorem remain_of_step (wf : PipelineWf cfg s) (hok : FaultFree a)
    (h : QueueFlow.step cfg s a = some s') (w : WorkerId) : s'.procs w ≠ .gone := by
  intro hgone
  have hupdate {w' : WorkerId} {p : Proc} (hp : p ≠ .gone)
      (heq : s'.procs = Function.update s.procs w' p) : False := by
    rw [heq, Function.update_apply] at hgone
    split at hgone
    · exact hp hgone
    · exact wf.remain w hgone
  rcases procs_of_step h with heq | ⟨w', c, -, -, heq⟩ | ⟨w', rfl, -⟩ | ⟨w', deadline, -, hmove⟩
  · exact wf.remain w (heq ▸ hgone)
  · exact hupdate (by rintro ⟨⟩) heq
  · cases hok.1
  · cases hmove with
    | wait | moved => exact wf.remain w hgone
    | refrain | proceed | nothing | read | reset | done | beat => exact hupdate (by rintro ⟨⟩) rfl

theorem resting_of_step (wf : PipelineWf cfg s) (hok : FaultFree a)
    (h : QueueFlow.step cfg s a = some s') : ∀ τ ∈ s'.scheds, τ.recovering = false := by
  intro τ hτ
  cases ha : a.sched? with
  | none =>
      rcases scheds_of_step h ha with heq | ⟨-, heq⟩ <;> rw [heq] at hτ
      · exact wf.resting τ hτ
      · rcases List.mem_cons.mp hτ with rfl | hτ
        · rfl
        · exact wf.resting τ hτ
  | some σ =>
      cases a with
      | sched σ' pick =>
          have hrest := wf.not_recovering h
          obtain ⟨-, h⟩ := Option.ite_none_right_eq_some.mp h
          have hnot : σ' = .idle → pick ≠ .recover := by
            rintro rfl rfl
            exact hok.2 rfl
          rcases rests_of_schedule hrest h hnot with heq | ⟨τ', heq, hrest'⟩ <;> rw [heq] at hτ
          · exact wf.resting τ (List.mem_of_mem_erase hτ)
          · rcases Bag.mem_of_mem_swap hτ with rfl | hτ
            · exact hrest'
            · exact wf.resting τ hτ
      | schedFail | schedKill => cases hok.1
      | _ => cases ha

theorem accepted_of_step (wf : PipelineWf cfg s) (hok : AcceptedReplay s a)
    (h : QueueFlow.step cfg s a = some s') {t : Text} (ht : s'.Circulates t) : isUuid t = true := by
  rcases circulates_of_step wf.holding wf.sweep h ht with ht | ⟨job, rfl, known⟩ |
    ⟨g, job, rfl, hreplay⟩
  · exact wf.accepted t ht
  · refine isUuid_of_isRandom ?_
    exact (random_of_step wf.ledger.lease h known).elim (wf.random job) id
  · exact hok (by rw [hreplay]; rfl)

/-- A command of an execution. -/
theorem paired_of_execMove (wf : PipelineWf cfg s) (he : e ∈ s.execs) (h : ExecMove cfg s e s') :
    s'.Paired := by
  have hmem := wf.ledger.world.entry_mem he
  cases h with
  | letGo => exact wf.paired.letGo he hmem
  | rejected hpc hid =>
      obtain ⟨u, hu⟩ := uuidIn_of_isUuid (wf.accepted e.id (.listed e.worker hmem))
      rw [hid] at hu
      cases hu
  | found | missing | notClaimable | claimed | work | lock | unowned | insert | settled | fenced
  | buried | parked | zadded => exact wf.paired.setExec he rfl rfl

theorem paired_of_step (wf : PipelineWf cfg s) (hok : FaultFree a)
    (h : QueueFlow.step cfg s a = some s') : s'.Paired := by
  have hpaired := wf.paired
  cases a with
  | tick | request | startSched => cases h; exact hpaired
  | api =>
      obtain ⟨-, h⟩ := Option.ite_none_right_eq_some.mp h
      cases handle_cases h <;> exact hpaired
  | spawn =>
      obtain ⟨-, -, rfl⟩ := spawn_cases h
      exact hpaired
  | recoverOwn =>
      cases recoverOwnProcessing_cases h with
      | moved c id hp => exact absurd hp wf.no_recovery.2
      | wait | refrain | proceed | nothing | read | reset | done | beat => exact hpaired
  | beat =>
      obtain ⟨-, rfl⟩ := beat_cases h
      exact hpaired
  | expire =>
      cases expire_cases h
      exact hpaired
  | take =>
      obtain ⟨c, rest, id, -, -, rfl⟩ := take_cases h
      exact hpaired.cons _
  | exec =>
      obtain ⟨he, h⟩ := Option.ite_none_right_eq_some.mp h
      exact wf.paired_of_execMove he (processOne_cases h)
  | sched σ pick =>
      have hrest := wf.not_recovering h
      obtain ⟨-, h⟩ := Option.ite_none_right_eq_some.mp h
      cases schedule_cases h with
      | dropped key id keys hpc | moved key id last keys hpc => subst hpc; cases hrest
      | quiet | removed | promoted | crashed | pushed | check | peek | junk | select | buried
      | requeued | emptied | swept => exact hpaired
  | apiCrash | execFail | kill | schedFail | schedKill => cases hok.1

theorem step (wf : PipelineWf cfg s) (hok : Unhindered s a)
    (h : QueueFlow.step cfg s a = some s') : PipelineWf cfg s' := by
  obtain ⟨hfree, hreplay⟩ := hok
  have hsteady := wf.steady hfree h
  have hcareful := wf.careful hfree h
  have hfail : a.isFailure = false := by
    cases a with
    | execFail => cases hfree.1
    | _ => rfl
  have hfaults : a.disrupts s = true → False := by
    rw [wf.not_disrupts hfree h]
    rintro ⟨⟩
  exact {
    ledger := wf.ledger.step hsteady hfail hcareful h
    holding := wf.holding.step wf.ledger.lease h
    sweep := wf.sweep.step h
    newborn := wf.newborn.step
      (by
        rintro w c rfl
        obtain ⟨hfresh | hgone, -, -⟩ := spawn_cases h
        · exact hfresh
        · exact absurd hgone (wf.remain w))
      h
    remain := wf.remain_of_step hfree h
    resting := wf.resting_of_step hfree h
    accepted := fun t ht => wf.accepted_of_step hreplay h ht
    random := fun job known => (random_of_step wf.ledger.lease h known).elim (wf.random job) id
    paired := wf.paired_of_step hfree h
    exact := fun job => (wf.exact job).step (wf.ledger.ok job)
      (ledger_of_step wf.ledger hfail hcareful hfaults h) }

end PipelineWf

theorem pipelineWf_of_reaches (hrun : Reaches cfg Unhindered s) : PipelineWf cfg s :=
  hrun.invariant PipelineWf.init fun _ _ _ wf hok h => wf.step hok h

namespace PipelineWf

variable {h : Holding}

/-- An execution that is about to claim its job finds it claimable. -/
theorem claimable (wf : PipelineWf cfg s) (he : e ∈ s.execs) {m : Nat} (hpc : e.pc = .claim job m) :
    (s.claimableRow job).isSome = true := by
  have hid : uuidIn e.id = some job := wf.ledger.lease.named e he job (by rw [hpc]; rfl)
  have htaken : 0 < (s.ledger job).count .taken := count_pos_of_exec he hid (by rw [hpc]; rfl)
  have hlive := wf.exact job
  obtain ⟨-, hok⟩ := wf.ledger.ok job
  cases hrow : s.db.row job with
  | none =>
      have hnone : (s.ledger job).status = none := by simp [State.ledger, hrow]
      simp only [hnone] at hok
      omega
  | some r =>
      -- A job that is over has no live copy, and one that is running has none that was just taken.
      have hstatus := State.status_of_row hrow
      have hclaimable : r.status.claimable = true := by
        cases hr : r.status <;>
          simp only [Ledger.Exact, hstatus, hr, Option.any_some, JobStatus.unfinished, Ledger.live,
            JobStatus.claimable] at hok hlive ⊢ <;> simp at hlive <;> omega
      exact Option.isSome_iff_exists.mpr ⟨r, Option.filter_eq_some_iff.mpr ⟨hrow, hclaimable⟩⟩

/-- The write-back of an owner finds its row, and has not failed to find it. -/
theorem not_fenced (wf : PipelineWf cfg s) (he : e ∈ s.execs) (hphase : e.pc.phase = .owning h) :
    (s.ownRow cfg h).isSome = true ∧ e.pc ≠ .txRollback h := by
  refine ⟨wf.ledger.ownRow_of_owning he hphase, fun hroll => ?_⟩
  obtain ⟨r, hrow, -, hlease⟩ := wf.ledger.runsFor he hphase
  exact wf.ledger.lease.superseded e he h hroll r hrow hlease

end PipelineWf

/-! ## The pipeline -/

/-- In every run without faults whose replays the worker accepts, a job is in one place while it is
to be done and in none when it is over; it has its effect if it has succeeded; every claim finds its
job claimable and every write-back its row; and the list of a worker holds an entry for each of its
executions. -/
theorem job_in_one_place (hrun : Reaches cfg Unhindered s) :
    (∀ job r, s.db.row job = some r →
      (s.ledger job).live = (if r.status.unfinished then 1 else 0) ∧
        s.db.effectsFor job = if r.status = .succeeded then 1 else 0) ∧
    (∀ e ∈ s.execs, ∀ job m, e.pc = .claim job m → (s.claimableRow job).isSome = true) ∧
    (∀ e ∈ s.execs, ∀ h, e.pc.phase = .owning h →
      (s.ownRow cfg h).isSome = true ∧ e.pc ≠ .txRollback h) ∧
    ∀ w id, (s.redis.lrange w).count id = s.execs.countP fun e => e.key = (w, id) := by
  have wf := pipelineWf_of_reaches hrun
  refine ⟨fun job r hrow => ⟨?_, ?_⟩, fun e he job m => wf.claimable he,
    fun e he h => wf.not_fenced he, fun w id => ?_⟩
  · have hexact := wf.exact job
    rw [Ledger.Exact, State.status_of_row hrow] at hexact
    exact hexact
  · have heffects := (wf.ledger.ok job).1
    simp only [State.status_of_row hrow, Option.some.injEq] at heffects
    exact heffects
  · rw [← entries_eq_count (k := (w, id)), State.entries]
    exact wf.paired.countP_eq fun k => k = (w, id)

end

/-! ## Two runs -/

open Script in
/-- A worker takes a job again before its first execution has let go of the entry. -/
theorem job_in_one_place_retaken : ∃ s, Reaches defaults Unhindered s ∧
    (s.ledger (job 1)).live = 1 ∧ (s.redis.lrange ['a']).count (uuidOut (job 1)) = 2 := by
  have hplay : ∃ s, Reaches defaults Unhindered s ∧
      (s.db.row (job 1)).any (fun r => r.status = .running) = true ∧
        (s.execs.countP fun e => e.key = (['a'], uuidOut (job 1))) = 2 :=
    exists_run_of_play
      (start ['a'] ++ [.act .startSched] ++ submit (job 1) ++ throws ['a'] 2 ++
        .act (.tick 60000000) :: promotes ++ takes ['a'] 2)
      (by decide +kernel)
  obtain ⟨s, hrun, hrow, hexecs⟩ := hplay
  obtain ⟨r, hr, hrunning⟩ := (Option.any_eq_true _ _).mp hrow
  have hlive := ((job_in_one_place hrun).1 (job 1) r hr).1
  rw [of_decide_eq_true hrunning] at hlive
  exact ⟨s, hrun, hlive, ((job_in_one_place hrun).2.2.2 ['a'] _).trans hexecs⟩

open Script in
/-- A dead job is replayed under its id without hyphens; the worker takes the entry and does not
accept it, and no copy of the queued job is left. -/
theorem job_in_no_place : ∃ s, Reaches defaults (fun _ a => FaultFree a) s ∧
    (s.ledger (job 1)).status = some .queued ∧ (s.ledger (job 1)).live = 0 :=
  exists_run_of_play (start ['a'] ++ [.act .startSched] ++ submit (job 1) ++ failsOut ['a'] ++
    replay ((uuidOut (job 1)).filter (· ≠ '-')) (job 2) ++ takes ['a'] 0) (by decide +kernel)

end QueueFlow
