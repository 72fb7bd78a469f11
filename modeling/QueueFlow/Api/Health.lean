-- SUMMARY: GET /health of api/index.ts with its awaits while the system goes on, and how far its numbers agree in runs without faults.
import QueueFlow.Ledger.Pipeline
import QueueFlow.Lib.Tally
import QueueFlow.Migration.Tables
import QueueFlow.Scheduler.Loop

/-!
# Health

`GET /health` asks Redis for the lengths of the pending list and of the delayed set, and then Postgres for the number
of jobs by status, one command after the other; one part may fail without the other. No transaction spans the two
stores, and the system goes on between the commands. Without faults the handler never counts more waiting ids than
there are jobs to be done, apart from what has been finished or postponed meanwhile, and at rest the numbers agree.
-/

namespace QueueFlow

open Transition

/-! ## The handler -/

/-- The column `status` of the table. -/
def Db.statuses (db : Db) : List Text := db.jobs.map fun r => r.status.text

/-- The object that the handler fills in. -/
structure Health where
  degraded : Bool
  redis : Option Text
  pending : Option Nat
  delayed : Option Nat
  postgres : Option Text
  jobs : Option (List (Text × Nat))
  deriving DecidableEq

def Health.code (h : Health) : Nat := if h.degraded then 503 else 200

/-- The command whose reply the handler awaits. -/
inductive Awaited where
  | ping
  | llen
  | zcard
  /-- `SELECT status, COUNT(*) FROM jobs GROUP BY status` -/
  | select
  | nothing
  deriving DecidableEq

structure Checkup where
  awaits : Awaited
  health : Health
  deriving DecidableEq

inductive Probe where
  /-- The rest of the system takes a step, or time passes. -/
  | other (a : Act)
  /-- Redis answers. -/
  | reply
  /-- Postgres answers with the groups, in some order. -/
  | groups (counts : List (Text × Nat))
  /-- The command fails, with this message. -/
  | fail (message : Text)

namespace Checkup

variable (cfg : Config)

def start : Checkup := ⟨.ping, ⟨false, none, none, none, none, none⟩⟩

/-- One step of the handler. -/
def run (s : State) (c : Checkup) (p : Probe) : Option Checkup :=
  match c.awaits, p with
  | .ping, .reply => some ⟨.llen, { c.health with redis := some "PONG".toList }⟩
  | .llen, .reply => some ⟨.zcard, { c.health with pending := some s.redis.pending.length }⟩
  | .zcard, .reply => some ⟨.select, { c.health with delayed := some s.redis.delayed.length }⟩
  | .ping, .fail message => some ⟨.select, { c.health with degraded := true, redis := some message }⟩
  | .llen, .fail message => some ⟨.select, { c.health with degraded := true, redis := some message }⟩
  | .zcard, .fail message => some ⟨.select, { c.health with degraded := true, redis := some message }⟩
  | .select, .groups counts =>
      if Tally.Counts counts s.db.statuses then
        some ⟨.nothing, { c.health with postgres := some "ok".toList, jobs := some counts }⟩
      else none
  | .select, .fail message => some ⟨.nothing, { c.health with degraded := true, postgres := some message }⟩
  | _, _ => none

def step (q : State × Checkup) (p : Probe) : Option (State × Checkup) :=
  match p with
  | .other a => (QueueFlow.step cfg q.1 a).map fun t => (t, q.2)
  | p => (run q.1 q.2 p).map fun c => (q.1, c)

/-- Nothing fails, neither in the system nor for the handler. -/
def Smooth (q : State × Checkup) : Probe → Prop
  | .other a => Unhindered q.1 a
  | .fail _ => False
  | _ => True

instance (q : State × Checkup) (p : Probe) : Decidable (Smooth q p) := by
  induction p using Probe.casesOn with
  | other a => exact inferInstanceAs (Decidable (Unhindered q.1 a))
  | fail => exact .isFalse id
  | reply | groups => exact .isTrue trivial

variable {cfg} {s : State} {c c' : Checkup} {q q' : State × Checkup} {p : Probe}

/-- One step of the handler, if its commands do not fail. -/
inductive Move (s : State) (c : Checkup) : Checkup → Prop where
  | pinged (h : c.awaits = .ping) : Move s c ⟨.llen, { c.health with redis := some "PONG".toList }⟩
  | llen (h : c.awaits = .llen) : Move s c ⟨.zcard, { c.health with pending := some s.redis.pending.length }⟩
  | zcard (h : c.awaits = .zcard) : Move s c ⟨.select, { c.health with delayed := some s.redis.delayed.length }⟩
  | answers (counts : List (Text × Nat)) (h : c.awaits = .select)
      (hcounts : Tally.Counts counts s.db.statuses) :
      Move s c ⟨.nothing, { c.health with postgres := some "ok".toList, jobs := some counts }⟩

theorem run_cases (h : run s c p = some c') (hok : ∀ message, p ≠ .fail message) : Move s c c' := by
  unfold run at h
  split at h
  case h_1 hawaits => cases h; exact .pinged hawaits
  case h_2 hawaits => cases h; exact .llen hawaits
  case h_3 hawaits => cases h; exact .zcard hawaits
  case h_7 counts hawaits =>
    obtain ⟨hcounts, h⟩ := Option.ite_none_right_eq_some.mp h
    cases h
    exact .answers counts hawaits hcounts
  case h_4 | h_5 | h_6 | h_8 => exact absurd rfl (hok _)
  case h_9 => cases h

/-- The handler takes a step, or the rest of the system does. -/
theorem step_cases (h : step cfg q p = some q') (hok : Smooth q p) :
    (∃ a, Unhindered q.1 a ∧ QueueFlow.step cfg q.1 a = some q'.1 ∧ q'.2 = q.2) ∨
      q'.1 = q.1 ∧ Move q.1 q.2 q'.2 := by
  unfold step at h
  split at h
  case h_1 a =>
    obtain ⟨t, ht, rfl⟩ := Option.map_eq_some_iff.mp h
    exact .inl ⟨a, hok, ht, rfl⟩
  case h_2 =>
    obtain ⟨c, hrun, rfl⟩ := Option.map_eq_some_iff.mp h
    refine .inr ⟨rfl, run_cases hrun ?_⟩
    rintro message rfl
    exact hok

end Checkup

/-! ## Jobs that wait for a retry -/

namespace Ledger

variable {c c' : Ledger}

/-- A job that waits for its retry is on nobody's list. -/
def Patient (c : Ledger) : Prop := c.status = some .retrying → c.count .pending + c.count .taken = 0

theorem Patient.step (patient : c.Patient) (ok : c.Ok) (h : Step False c c') : c'.Patient := by
  intro hs'
  have hrunning := ok.running_of_owning
  have hpushing := ok.queued_of_pushing
  obtain ⟨-, hok⟩ := ok
  unfold Patient at patient
  cases h with
  | idle h | take h | delay h | postpone _ h | release h | remove h | skip _ h =>
      have hc := h.counts
      simp at hc
      have hstays := patient (h.status.symm.trans hs')
      omega
  | submit h | push h =>
      -- What is pushed is queued.
      have hc := h.counts
      simp at hc
      have hqueued := hpushing (by omega)
      rw [h.status, hqueued] at hs'
      cases hs'
  | insert _ h | replay _ _ h | claim _ h | settle h | bury h | promote _ h =>
      rw [h.status] at hs'
      cases hs'
  | park h =>
      have hc := h.counts
      simp at hc
      have hs := hrunning (by omega)
      rw [hs] at hok
      dsimp only at hok
      omega
  | abandon hf | discard hf | die hf | judge hf | reapBury hf | requeue hf | rescue hf | giveUp hf
  | drop hf | reset hf | recover hf | sweep hf => exact hf.elim

end Ledger

variable {cfg : Config} {s s' : State} {a : Act} {job : Uuid} {p : JobRow → Bool}

theorem PipelineWf.ledger_step (wf : PipelineWf cfg s) (hok : Unhindered s a)
    (h : QueueFlow.step cfg s a = some s') : Ledger.Step False (s.ledger job) (s'.ledger job) := by
  have hfail : a.isFailure = false := by
    cases a with
    | execFail => cases hok.1.1
    | _ => rfl
  refine ledger_of_step wf.ledger hfail (wf.careful hok.1 h) (fun hdisrupts => ?_) h
  rw [wf.not_disrupts hok.1 h] at hdisrupts
  cases hdisrupts

/-- What the numbers rest on. -/
structure HealthWf (cfg : Config) (s : State) : Prop where
  pipeline : PipelineWf cfg s
  patient : ∀ job, (s.ledger job).Patient
  /-- An id is in the delayed set once. -/
  members : (s.redis.delayed.map (·.1)).Nodup

namespace HealthWf

theorem init : HealthWf cfg .init where
  pipeline := .init
  patient _ := by rintro ⟨⟩
  members := List.nodup_nil

private theorem zrem_nodup {r : Redis} {id : Text} (h : (r.delayed.map (·.1)).Nodup) :
    ((r.zrem id).delayed.map (·.1)).Nodup :=
  h.sublist (List.filter_sublist.map _)

theorem step (wf : HealthWf cfg s) (hok : Unhindered s a) (h : QueueFlow.step cfg s a = some s') : HealthWf cfg s' where
  pipeline := wf.pipeline.step hok h
  patient job := (wf.patient job).step (wf.pipeline.ledger.ok job) (wf.pipeline.ledger_step hok h)
  members := by
    rcases SchedulerProcess.delayed_cases h with heq | ⟨id, heq⟩ | ⟨score, id, heq⟩ <;> rw [heq]
    · exact wf.members
    · exact zrem_nodup wf.members
    · have hperm : ((s.redis.zadd score id).delayed.map (·.1)).Perm (id :: (s.redis.zrem id).delayed.map (·.1)) :=
        (List.perm_orderedInsert Redis.zle (id, score) _).map _
      refine hperm.nodup_iff.mpr (List.nodup_cons.mpr ⟨fun hmem => ?_, zrem_nodup wf.members⟩)
      obtain ⟨m, hm, heq⟩ := List.mem_map.mp hmem
      exact absurd heq (by simpa using (List.mem_filter.mp hm).2)

end HealthWf

theorem healthWf_of_reaches (hrun : Reaches cfg Unhindered s) : HealthWf cfg s :=
  hrun.invariant HealthWf.init fun _ _ _ wf hok h => wf.step hok h

/-! ## Ids in Redis and rows -/

/-- The jobs with such rows. -/
def State.jobsWith (s : State) (p : JobRow → Bool) : List (Option Uuid) := (s.db.jobs.filter p).map fun r => some r.id

private theorem row_of_mem {r : JobRow} (hids : (s.db.jobs.map (·.id)).Nodup) (hr : r ∈ s.db.jobs) :
    s.db.row r.id = some r := by
  obtain ⟨r', hrow⟩ := Db.row_isSome_of_mem hr
  rw [hrow, List.inj_on_of_nodup_map hids (Db.row_mem hrow) hr (Db.id_of_row hrow)]

private theorem count_jobsWith (hids : (s.db.jobs.map (·.id)).Nodup) :
    (s.jobsWith p).count (some job) = if (s.db.row job).any p then 1 else 0 := by
  have hnodup : (s.jobsWith p).Nodup := by
    have hfilter : ((s.db.jobs.filter p).map (·.id)).Nodup := hids.sublist (List.filter_sublist.map _)
    have hmap := hfilter.map (Option.some_injective Uuid)
    rwa [List.map_map] at hmap
  rw [hnodup.count]
  refine if_congr ?_ rfl rfl
  constructor
  · intro hmem
    obtain ⟨r, hr, heq⟩ := List.mem_map.mp hmem
    obtain ⟨hjobs, hp⟩ := List.mem_filter.mp hr
    obtain rfl : r.id = job := Option.some.inj heq
    rw [row_of_mem hids hjobs]
    exact hp
  · intro hany
    obtain ⟨r, hrow, hp⟩ := (Option.any_eq_true _ _).mp hany
    exact List.mem_map.mpr ⟨r, List.mem_filter.mpr ⟨Db.row_mem hrow, hp⟩, congrArg some (Db.id_of_row hrow)⟩

/-- The jobs on the pending list, and those in the delayed set. -/
def State.waiting (s : State) : List (Option Uuid) := s.redis.pending.map uuidIn

def State.postponed (s : State) : List (Option Uuid) := s.redis.delayed.map fun m => uuidIn m.1

private theorem count_waiting : s.waiting.count (some job) = (s.ledger job).count .pending := by
  rw [State.count_pending, State.waiting, List.count, List.countP_map]
  exact List.countP_congr fun id _ => by simp

private theorem count_postponed (wf : HealthWf cfg s) :
    s.postponed.count (some job) = (s.ledger job).count .delayed := by
  have hcount : s.postponed.count (some job) = (s.redis.delayed.map (·.1)).count (uuidOut job) := by
    rw [State.postponed, List.count, List.count, List.countP_map, List.countP_map]
    refine List.countP_congr fun m hm => ?_
    obtain ⟨u, hu⟩ := wf.pipeline.ledger.canonical m hm
    simp only [Function.comp_apply, hu, uuidIn_uuidOut, beq_iff_eq, Option.some.injEq]
    exact ⟨congrArg uuidOut, uuidOut_inj⟩
  rw [hcount, wf.members.count, State.count_delayed]
  refine if_congr ?_ rfl rfl
  simp [Redis.isDelayed]

/-- Every id in Redis names a job. -/
private theorem none_not_mem (wf : HealthWf cfg s) : none ∉ s.waiting ++ s.postponed := by
  intro hmem
  have hnames {id : Text} (hid : s.Circulates id) : uuidIn id ≠ none := by
    obtain ⟨u, hu⟩ := uuidIn_of_isUuid (wf.pipeline.accepted id hid)
    rw [hu]
    rintro ⟨⟩
  rcases List.mem_append.mp hmem with hmem | hmem
  · obtain ⟨id, hid, heq⟩ := List.mem_map.mp hmem
    exact hnames (.pending hid) heq
  · obtain ⟨⟨id, score⟩, hid, heq⟩ := List.mem_map.mp hmem
    exact hnames (.delayed score hid) heq

/-- No execution, no request and no promotion is under way. -/
structure State.Calm (s : State) : Prop where
  execs : s.execs = []
  apis : ∀ x ∈ s.apis, x.hand = none
  scheds : ∀ σ ∈ s.scheds, σ.hand = none

/-- At rest the copy of a job that is to be done is on the pending list or in the delayed set. -/
private theorem State.Calm.mem_tokens (rest : s.Calm) (wf : PipelineWf cfg s) {q : Place} (hq : q ∈ s.tokens job) :
    q = .pending ∨ q = .listed ∨ q = .delayed := by
  rcases State.mem_tokens.mp hq with ⟨id, -, hq⟩ | ⟨k, -, hq⟩ | hq | ⟨e, he, -⟩ | ⟨σ, hσ, hq⟩ | ⟨x, hx, hq⟩
  · exact .inl (mem_idAt.mp hq).1
  · exact .inr (.inl (mem_idAt.mp hq).1)
  · exact .inr (.inr (State.delayed_of_mem_delayedAt hq))
  · rw [rest.execs] at he
    cases he
  · have hhand := rest.scheds σ hσ
    have hresting := wf.resting σ hσ
    cases σ with
    | promoteUpdate | promotePush => cases hhand
    | reapBury | reapRequeue | reapMove => cases hresting
    | _ => cases hq
  · have hhand := rest.apis x hx
    cases x with
    | push => cases hhand
    | _ => cases hq

private theorem State.Calm.count_eq_zero (rest : s.Calm) (wf : PipelineWf cfg s) (job : Uuid) {q : Place}
    (hq : ¬ (q = .pending ∨ q = .listed ∨ q = .delayed)) : (s.ledger job).count q = 0 :=
  List.count_eq_zero.mpr fun hmem => hq (rest.mem_tokens wf hmem)

private theorem State.Calm.counts (rest : s.Calm) (wf : HealthWf cfg s) (job : Uuid) :
    (s.ledger job).count .pending = (if (s.ledger job).status = some .queued then 1 else 0) ∧
      (s.ledger job).count .delayed = (if (s.ledger job).status = some .retrying then 1 else 0) ∧
        (s.ledger job).status ≠ some .running := by
  have hzero {q : Place} (hq : ¬ (q = .pending ∨ q = .listed ∨ q = .delayed)) :=
    rest.count_eq_zero wf.pipeline job hq
  have hsubmitting := hzero (q := .submitting) (by decide)
  have hupdating := hzero (q := .updating) (by decide)
  have hpromoting := hzero (q := .promoting) (by decide)
  have htaken := hzero (q := .taken) (by decide)
  have howning := hzero (q := .owning) (by decide)
  have hparked := hzero (q := .parked) (by decide)
  have hexact := wf.pipeline.exact job
  have hpatient := wf.patient job
  obtain ⟨-, hok⟩ := wf.pipeline.ledger.ok job
  unfold Ledger.Exact Ledger.live at hexact
  unfold Ledger.Patient at hpatient
  rcases hs : (s.ledger job).status with _ | (_ | _ | _ | _ | _ | _) <;>
    simp [hs, JobStatus.unfinished] at hexact hpatient hok ⊢ <;> omega

/-- A step from rest to rest leaves every job in its status. -/
private theorem State.Calm.status_eq (rest : s.Calm) (rest' : s'.Calm) (wf : PipelineWf cfg s) (hok : Unhindered s a)
    (h : QueueFlow.step cfg s a = some s') (job : Uuid) : (s'.ledger job).status = (s.ledger job).status := by
  have hzero {q : Place} (hq : ¬ (q = .pending ∨ q = .listed ∨ q = .delayed)) := rest.count_eq_zero wf job hq
  have hzero' {q : Place} (hq : ¬ (q = .pending ∨ q = .listed ∨ q = .delayed)) :=
    rest'.count_eq_zero (wf.step hok h) job hq
  have hsubmitting := hzero' (q := .submitting) (by decide)
  have hupdating := hzero (q := .updating) (by decide)
  have htaken := hzero (q := .taken) (by decide)
  have howning := hzero (q := .owning) (by decide)
  have hledger : Ledger.Step False (s.ledger job) (s'.ledger job) := wf.ledger_step hok h
  cases hledger with
  | idle h | submit h | take h | delay h | postpone _ h | release h | remove h | push h | skip _ h => exact h.status
  | insert _ h | replay _ _ h | claim _ h | settle h | bury h | park h | promote _ h =>
      -- Each of these finds a copy in hand, or leaves one there.
      have hc := h.counts
      simp at hc
      omega
  | abandon hf | discard hf | die hf | judge hf | reapBury hf | requeue hf | rescue hf | giveUp hf
  | drop hf | reset hf | recover hf | sweep hf => exact hf.elim

/-- What Redis holds are copies of jobs that are to be done. -/
private theorem count_waiting_postponed (wf : HealthWf cfg s) (hids : (s.db.jobs.map (·.id)).Nodup) (job : Uuid) :
    s.waiting.count (some job) + s.postponed.count (some job) ≤
      (s.jobsWith fun r => r.status.unfinished).count (some job) := by
  rw [count_waiting, count_postponed wf, count_jobsWith hids]
  have hexact := wf.pipeline.exact job
  have hstatus : (s.ledger job).status.any JobStatus.unfinished =
      (s.db.row job).any fun r => r.status.unfinished := by
    rw [State.ledger, Option.any_map]
  rw [Ledger.Exact, Ledger.live, hstatus] at hexact
  rw [← hexact]
  omega

private theorem perm_of_counts {l : List (Option Uuid)} {st : JobStatus} (hids : (s.db.jobs.map (·.id)).Nodup)
    (hnone : none ∉ l) (hcount : ∀ job, l.count (some job) = if (s.ledger job).status = some st then 1 else 0) :
    l.Perm (s.jobsWith fun r => r.status = st) := by
  refine List.perm_iff_count.mpr fun x => ?_
  cases x with
  | none =>
      have hjobs : none ∉ s.jobsWith fun r => r.status = st := by
        intro hmem
        obtain ⟨r, -, heq⟩ := List.mem_map.mp hmem
        cases heq
      rw [List.count_eq_zero.mpr hnone, List.count_eq_zero.mpr hjobs]
  | some job =>
      rw [hcount, count_jobsWith hids]
      refine if_congr ?_ rfl rfl
      cases hrow : s.db.row job <;> simp [State.ledger, hrow]

/-! ## What the system does meanwhile -/

/-- The jobs that a step finishes. -/
def State.finishes (s s' : State) : List (Option Uuid) :=
  s.jobsWith fun r => r.status.unfinished && !(s'.db.row r.id).any fun r' => r'.status.unfinished

/-- The ids that a step puts into the delayed set. -/
def State.postpones (s s' : State) : List Text := (s'.redis.delayed.map (·.1)).filter fun id => !s.redis.isDelayed id

/-- What the steps have done that lead from state to state of a log. -/
def along {α : Type} (f : State → State → List α) : List State → List α
  | s' :: s :: log => f s s' ++ along f (s :: log)
  | _ => []

/-- The handler takes a step, or the system does. -/
structure Meanwhile (cfg : Config) (s s' : State) : Prop where
  reaches : Reaches cfg Unhindered s
  goes : s' = s ∨ ∃ a, Unhindered s a ∧ QueueFlow.step cfg s a = some s'

namespace Meanwhile

theorem reaches' (h : Meanwhile cfg s s') : Reaches cfg Unhindered s' := by
  rcases h.goes with rfl | ⟨a, hok, hstep⟩
  · exact h.reaches
  · exact h.reaches.tail a hok hstep

/-- A job that is to be done still is, or is finished by the step. -/
theorem unfinished_le (h : Meanwhile cfg s s') (job : Uuid) :
    (s.jobsWith fun r => r.status.unfinished).count (some job) ≤
      (s'.jobsWith fun r => r.status.unfinished).count (some job) + (s.finishes s').count (some job) := by
  rw [State.finishes, count_jobsWith (keysWf_of_reaches h.reaches).ids,
    count_jobsWith (keysWf_of_reaches h.reaches').ids, count_jobsWith (keysWf_of_reaches h.reaches).ids]
  cases hrow : s.db.row job with
  | none => exact Nat.zero_le _
  | some r =>
      have hid := Db.id_of_row hrow
      simp only [Option.any_some, hid, Bool.and_eq_true, Bool.not_eq_true']
      by_cases hopen : (s'.db.row job).any (fun r' => r'.status.unfinished) = true
      · rw [if_pos hopen]
        split <;> omega
      · simp [hopen]

/-- An id is in the delayed set already, or is put there by the step. -/
theorem postponed_le (h : Meanwhile cfg s s') (job : Uuid) : s'.postponed.count (some job) ≤
    s.postponed.count (some job) + ((s.postpones s').map uuidIn).count (some job) := by
  rw [count_postponed (healthWf_of_reaches h.reaches), count_postponed (healthWf_of_reaches h.reaches'),
    State.count_delayed, State.count_delayed]
  by_cases hold : s.redis.isDelayed (uuidOut job) = true
  · rw [if_pos hold]
    split <;> omega
  · by_cases hnew : s'.redis.isDelayed (uuidOut job) = true
    · obtain ⟨m, hm, heq⟩ := List.any_eq_true.mp hnew
      have hmem : uuidOut job ∈ s.postpones s' :=
        List.mem_filter.mpr ⟨List.mem_map.mpr ⟨m, hm, of_decide_eq_true heq⟩, by simpa using hold⟩
      have hcount : 0 < ((s.postpones s').map uuidIn).count (some job) :=
        List.count_pos_iff.mpr (List.mem_map.mpr ⟨_, hmem, uuidIn_uuidOut job⟩)
      split <;> omega
    · rw [if_neg hnew]
      exact Nat.zero_le _

theorem status_eq (h : Meanwhile cfg s s') (rest : s.Calm) (rest' : s'.Calm) (job : Uuid) :
    (s'.ledger job).status = (s.ledger job).status := by
  rcases h.goes with rfl | ⟨a, hok, hstep⟩
  · rfl
  · exact rest.status_eq rest' (healthWf_of_reaches h.reaches).pipeline hok hstep job

end Meanwhile

/-! ## What has been counted -/

variable {log : List State} {l l' : List (Option Uuid)}

/-- These jobs were on the pending list when it was asked for its length. -/
structure CountedPending (log : List State) (s : State) (l : List (Option Uuid)) : Prop where
  jobs : none ∉ l
  unfinished : ∀ job, l.count (some job) ≤
    (s.jobsWith fun r => r.status.unfinished).count (some job) + (along State.finishes log).count (some job)
  /-- Whichever has come into the delayed set has been put there since. -/
  postponed : ∀ job, l.count (some job) + s.postponed.count (some job) ≤
    1 + ((along State.postpones log).map uuidIn).count (some job)
  rest : (∀ u ∈ log, u.Calm) → ∀ job, l.count (some job) = if (s.ledger job).status = some .queued then 1 else 0

/-- And these were in the delayed set. -/
structure CountedBoth (log : List State) (s : State) (l l' : List (Option Uuid)) : Prop where
  jobs : none ∉ l ++ l'
  unfinished : ∀ job, l.count (some job) + l'.count (some job) ≤
    (s.jobsWith fun r => r.status.unfinished).count (some job) + (along State.finishes log).count (some job) +
      ((along State.postpones log).map uuidIn).count (some job)
  rest : (∀ u ∈ log, u.Calm) → ∀ job, l.count (some job) = (if (s.ledger job).status = some .queued then 1 else 0) ∧
    l'.count (some job) = if (s.ledger job).status = some .retrying then 1 else 0

private theorem count_finishes (job : Uuid) : (along State.finishes (s' :: s :: log)).count (some job) =
    (s.finishes s').count (some job) + (along State.finishes (s :: log)).count (some job) :=
  List.count_append

private theorem count_postpones (job : Uuid) :
    ((along State.postpones (s' :: s :: log)).map uuidIn).count (some job) =
      ((s.postpones s').map uuidIn).count (some job) +
        ((along State.postpones (s :: log)).map uuidIn).count (some job) := by
  rw [along, List.map_append, List.count_append]

theorem CountedPending.waiting (hrun : Reaches cfg Unhindered s) : CountedPending (s :: log) s s.waiting := by
  have wf := healthWf_of_reaches hrun
  have hids := (keysWf_of_reaches hrun).ids
  refine ⟨fun hmem => none_not_mem wf (List.mem_append_left _ hmem), fun job => ?_, fun job => ?_, fun rest job => ?_⟩
  · have hle := count_waiting_postponed wf hids job
    omega
  · have hle := count_waiting_postponed wf hids job
    rw [count_jobsWith hids] at hle
    split at hle <;> omega
  · exact count_waiting.trans ((rest s List.mem_cons_self).counts wf job).1

theorem CountedPending.step (pended : CountedPending (s :: log) s l) (h : Meanwhile cfg s s') :
    CountedPending (s' :: s :: log) s' l where
  jobs := pended.jobs
  unfinished job := by
    have hle := pended.unfinished job
    have hstep := h.unfinished_le job
    rw [count_finishes]
    omega
  postponed job := by
    have hle := pended.postponed job
    have hstep := h.postponed_le job
    rw [count_postpones]
    omega
  rest hrest job := by
    have hs : s.Calm := hrest s (List.mem_cons_of_mem _ List.mem_cons_self)
    rw [h.status_eq hs (hrest s' List.mem_cons_self) job]
    exact pended.rest (fun u hu => hrest u (List.mem_cons_of_mem _ hu)) job

/-- The delayed set is asked for its length. -/
theorem CountedPending.counted (pended : CountedPending (s :: log) s l) (hrun : Reaches cfg Unhindered s) :
    CountedBoth (s :: log) s l s.postponed := by
  have wf := healthWf_of_reaches hrun
  have hids := (keysWf_of_reaches hrun).ids
  refine ⟨fun hmem => ?_, fun job => ?_, fun rest job => ⟨pended.rest rest job, ?_⟩⟩
  · rcases List.mem_append.mp hmem with hmem | hmem
    · exact pended.jobs hmem
    · exact none_not_mem wf (List.mem_append_right _ hmem)
  · -- Either the job is to be done, or nothing of it is in the delayed set.
    have hone := pended.postponed job
    have hopen := pended.unfinished job
    have hle := count_waiting_postponed wf hids job
    have honce : (s.jobsWith fun r => r.status.unfinished).count (some job) ≤ 1 := by
      rw [count_jobsWith hids]
      split <;> omega
    omega
  · exact (count_postponed wf).trans ((rest s List.mem_cons_self).counts wf job).2.1

theorem CountedBoth.step (counted : CountedBoth (s :: log) s l l') (h : Meanwhile cfg s s') :
    CountedBoth (s' :: s :: log) s' l l' where
  jobs := counted.jobs
  unfinished job := by
    have hle := counted.unfinished job
    have hstep := h.unfinished_le job
    rw [count_finishes, count_postpones]
    omega
  rest hrest job := by
    have hs : s.Calm := hrest s (List.mem_cons_of_mem _ List.mem_cons_self)
    rw [h.status_eq hs (hrest s' List.mem_cons_self) job]
    exact counted.rest (fun u hu => hrest u (List.mem_cons_of_mem _ hu)) job

theorem CountedBoth.length_le (counted : CountedBoth log s l l') : l.length + l'.length ≤
    (s.jobsWith fun r => r.status.unfinished).length + (along State.finishes log).length +
      (along State.postpones log).length := by
  have hsub : (l ++ l').Subperm ((s.jobsWith fun r => r.status.unfinished) ++ (along State.finishes log ++
      (along State.postpones log).map uuidIn)) := by
    refine List.subperm_ext_iff.mpr fun x hx => ?_
    cases x with
    | none => exact absurd hx counted.jobs
    | some job =>
        have hle := counted.unfinished job
        simp only [List.count_append]
        omega
  have hlen := hsub.length_le
  simp only [List.length_append, List.length_map] at hlen
  omega

/-! ## The numbers -/

private theorem text_inj {st st' : JobStatus} (h : st.text = st'.text) : st = st' := by
  revert h
  cases st <;> cases st' <;> decide

private theorem countP_unfinished (l : List JobRow) : (l.countP fun r => r.status.unfinished) =
    (l.countP fun r => r.status = .queued) + (l.countP fun r => r.status = .running) +
      l.countP fun r => r.status = .retrying := by
  induction l with
  | nil => rfl
  | cons r l ih =>
      simp only [List.countP_cons, ih]
      cases r.status <;> simp [JobStatus.unfinished] <;> omega

variable {counts : List (Text × Nat)}

private theorem length_jobsWith {st : JobStatus}
    (hcounts : Tally.Counts counts s.db.statuses) :
    (s.jobsWith fun r => r.status = st).length = Tally.get counts st.text := by
  rw [State.jobsWith, List.length_map, ← List.countP_eq_length_filter, hcounts.get, Db.statuses, List.countP_map]
  refine List.countP_congr fun r _ => ?_
  rw [Function.comp_apply, decide_eq_true_eq, decide_eq_true_eq]
  exact ⟨congrArg JobStatus.text, text_inj⟩

/-- The numbers of the answer: `pending` and `delayed` come to no more than the jobs that are 'queued', 'running' or
'retrying', the jobs that have been finished and the ids that have been put into the delayed set. If the system is at
rest, `pending` is the number of jobs that are 'queued', `delayed` of those that are 'retrying', and none is
'running'. -/
def Health.Agrees (log : List State) (h : Health) : Prop :=
  ∃ pending delayed counts, h.pending = some pending ∧ h.delayed = some delayed ∧ h.jobs = some counts ∧
    pending + delayed ≤ Tally.get counts "queued".toList + Tally.get counts "running".toList +
      Tally.get counts "retrying".toList + (along State.finishes log).length + (along State.postpones log).length ∧
    ((∀ u ∈ log, u.Calm) → pending = Tally.get counts "queued".toList ∧ delayed = Tally.get counts "retrying".toList ∧
      Tally.get counts "running".toList = 0)

theorem Health.Agrees.cons {h : Health} (agrees : h.Agrees (s :: log)) (s' : State) : h.Agrees (s' :: s :: log) := by
  obtain ⟨pending, delayed, counts, hpending, hdelayed, hjobs, hle, hrest⟩ := agrees
  refine ⟨pending, delayed, counts, hpending, hdelayed, hjobs, hle.trans ?_, fun rest => ?_⟩
  · simp only [along, List.length_append]
    omega
  · exact hrest fun u hu => rest u (List.mem_cons_of_mem _ hu)

/-- The groups are counted. -/
theorem CountedBoth.agrees (counted : CountedBoth (s :: log) s l l') (hrun : Reaches cfg Unhindered s)
    (hcounts : Tally.Counts counts s.db.statuses) {h : Health}
    (hpending : h.pending = some l.length) (hdelayed : h.delayed = some l'.length) (hjobs : h.jobs = some counts) :
    h.Agrees (s :: log) := by
  have wf := healthWf_of_reaches hrun
  have hids := (keysWf_of_reaches hrun).ids
  refine ⟨l.length, l'.length, counts, hpending, hdelayed, hjobs, ?_, fun rest => ⟨?_, ?_, ?_⟩⟩
  · have hle := counted.length_le
    have hunfinished : (s.jobsWith fun r => r.status.unfinished).length =
        (s.jobsWith fun r => r.status = .queued).length + (s.jobsWith fun r => r.status = .running).length +
          (s.jobsWith fun r => r.status = .retrying).length := by
      simp only [State.jobsWith, List.length_map, ← List.countP_eq_length_filter]
      exact countP_unfinished s.db.jobs
    rw [hunfinished, length_jobsWith hcounts, length_jobsWith hcounts, length_jobsWith hcounts] at hle
    exact hle
  · have hperm := perm_of_counts hids (fun hmem => counted.jobs (List.mem_append_left _ hmem)) fun job =>
      (counted.rest rest job).1
    exact hperm.length_eq.trans (length_jobsWith hcounts)
  · have hperm := perm_of_counts hids (fun hmem => counted.jobs (List.mem_append_right _ hmem)) fun job =>
      (counted.rest rest job).2
    exact hperm.length_eq.trans (length_jobsWith hcounts)
  · have hperm : List.Perm [] (s.jobsWith fun r => r.status = .running) := perm_of_counts hids (by rintro ⟨⟩)
      fun job => (if_neg ((rest s List.mem_cons_self).counts wf job).2.2).symm
    exact (hperm.length_eq.trans (length_jobsWith hcounts)).symm

/-! ## A request -/

namespace Checkup

variable {c c' : Checkup} {q : State × Checkup}

/-- What the handler has counted so far. -/
def Accounts (log : List State) (s : State) (c : Checkup) : Prop :=
  match c.awaits with
  | .ping | .llen => True
  | .zcard => ∃ l, c.health.pending = some l.length ∧ CountedPending log s l
  | .select => ∃ l l', c.health.pending = some l.length ∧ c.health.delayed = some l'.length ∧ CountedBoth log s l l'
  | .nothing => c.health.Agrees log

/-- The system goes on, or the log repeats its state. -/
theorem Accounts.goOn (accounts : c.Accounts (s :: log) s) (h : Meanwhile cfg s s') :
    c.Accounts (s' :: s :: log) s' := by
  obtain ⟨awaits, health⟩ := c
  cases awaits with
  | ping | llen => trivial
  | zcard =>
      obtain ⟨l, hl, pended⟩ := accounts
      exact ⟨l, hl, pended.step h⟩
  | select =>
      obtain ⟨l, l', hl, hl', counted⟩ := accounts
      exact ⟨l, l', hl, hl', counted.step h⟩
  | nothing => exact Health.Agrees.cons accounts s'

theorem Accounts.move (accounts : c.Accounts (s :: log) s) (hrun : Reaches cfg Unhindered s) (h : Move s c c') :
    c'.Accounts (s :: log) s := by
  cases h with
  | pinged => trivial
  | llen => exact ⟨s.waiting, congrArg some (List.length_map _).symm, .waiting hrun⟩
  | zcard hawaits =>
      unfold Accounts at accounts
      rw [hawaits] at accounts
      obtain ⟨l, hl, pended⟩ := accounts
      exact ⟨l, s.postponed, hl, congrArg some (List.length_map _).symm, pended.counted hrun⟩
  | answers counts hawaits hcounts =>
      unfold Accounts at accounts
      rw [hawaits] at accounts
      obtain ⟨l, l', hl, hl', counted⟩ := accounts
      exact counted.agrees hrun hcounts hl hl' rfl

theorem Move.degraded (h : Move s c c') : c'.health.degraded = c.health.degraded := by
  cases h <;> rfl

/-- What holds all along a request without faults, while an observer logs the states of the system. -/
structure Wf (cfg : Config) (q : State × Checkup) (log : List State) : Prop where
  reaches : Reaches cfg Unhindered q.1
  logged : ∃ rest, log = q.1 :: rest
  ok : q.2.health.degraded = false
  accounts : q.2.Accounts log q.1

theorem Wf.step {p : Probe} {q' : State × Checkup} (wf : Wf cfg q log) (hok : Smooth q p)
    (h : step cfg q p = some q') : Wf cfg q' (q'.1 :: log) := by
  obtain ⟨hreaches, ⟨rest, rfl⟩, hdegraded, haccounts⟩ := wf
  rcases step_cases h hok with ⟨a, hgoes, hstep, heq⟩ | ⟨heq, hmove⟩
  · have hmeanwhile : Meanwhile cfg q.1 q'.1 := ⟨hreaches, .inr ⟨a, hgoes, hstep⟩⟩
    refine ⟨hmeanwhile.reaches', ⟨_, rfl⟩, ?_, ?_⟩
    · rw [heq]
      exact hdegraded
    · rw [heq]
      exact haccounts.goOn hmeanwhile
  · rw [heq]
    have hmeanwhile : Meanwhile cfg q.1 q.1 := ⟨hreaches, .inl rfl⟩
    refine ⟨by rw [heq]; exact hreaches, ⟨_, by rw [heq]⟩, hmove.degraded.trans hdegraded, ?_⟩
    rw [heq]
    exact (haccounts.move hreaches hmove).goOn hmeanwhile

/-- A request that is answered during a run without faults, with the rest of the system going on between its
commands: the answer is 200, and its numbers agree, whatever states the system has passed through meanwhile. -/
theorem health_agrees {t : State} {h : Health} (hs : Reaches cfg Unhindered s)
    (hrun : Observed (step cfg) Smooth (logging Prod.fst) (s, start) [s] (t, ⟨.nothing, h⟩) log) :
    h.code = 200 ∧ h.Agrees log := by
  have wf : Wf cfg (t, ⟨.nothing, h⟩) log :=
    Observed.invariant (P := fun q log => Wf cfg q log) hrun ⟨hs, ⟨_, rfl⟩, rfl, trivial⟩
      fun _ _ _ _ wf hok hstep => wf.step hok hstep
  exact ⟨by rw [Health.code, wf.ok]; rfl, wf.accounts⟩

/-- The answer to a request during which nothing else happens. -/
def alone (s : State) (counts : List (Text × Nat)) : Health :=
  ⟨false, some "PONG".toList, some s.redis.pending.length, some s.redis.delayed.length, some "ok".toList, some counts⟩

theorem observed_alone {counts : List (Text × Nat)} (hcounts : Tally.Counts counts s.db.statuses) :
    Observed (step cfg) Smooth (logging Prod.fst) (s, start) [s] (s, ⟨.nothing, alone s counts⟩) [s, s, s, s, s] := by
  have hanswer (h : Health) : step cfg (s, ⟨.select, h⟩) (.groups counts) =
      some (s, ⟨.nothing, { h with postgres := some "ok".toList, jobs := some counts }⟩) := by
    change Option.map _ (if Tally.Counts counts s.db.statuses then _ else none) = _
    rw [if_pos hcounts]
    rfl
  refine .tail (.groups counts) (.tail .reply (.tail .reply (.tail .reply .refl trivial rfl) trivial rfl) trivial rfl)
    trivial ?_
  rw [observe, hanswer]
  rfl

/-! ## Concrete requests -/

/-- A cue for the rest of the system, or a step of the handler. -/
private def resolveProbe (q : State × Checkup) (c : Cue ⊕ Probe) : Option Probe :=
  c.elim (fun cue => (resolve q.1 cue).map .other) some

/-- A job is counted as pending, and a worker does it before the groups are counted. -/
private def overtaken : List (Cue ⊕ Probe) :=
  (Script.start ['a'] ++ Script.submit (Script.job 1)).map .inl ++ [.inr .reply, .inr .reply] ++
    (Script.takes ['a'] 8).map .inl ++ [.inr .reply, .inr (.groups [("succeeded".toList, 1)])]

/-- A request during which one job is done; and one at rest, with a job that waits for its retry, one that has
succeeded and one that is queued. -/
theorem health_agrees_requests :
    (∃ t h log, Observed (step Script.defaults) Smooth (logging Prod.fst) (.init, start) [.init]
      (t, ⟨.nothing, h⟩) log ∧ h.pending = some 1 ∧ h.jobs = some [("succeeded".toList, 1)] ∧ h.code = 200 ∧
        1 ≤ (along State.finishes log).length + (along State.postpones log).length) ∧
    ∃ s h, Observed (step Script.defaults) Smooth (logging Prod.fst) (s, start) [s] (s, ⟨.nothing, h⟩)
      [s, s, s, s, s] ∧ h.jobs = some [("retrying".toList, 1), ("succeeded".toList, 1), ("queued".toList, 1)] ∧
        h.code = 200 ∧ h.pending = some 1 ∧ h.delayed = some 1 := by
  constructor
  · have hplay : ∃ q, Run (step Script.defaults) Smooth (State.init, start) q ∧
        q.2 = ⟨.nothing, ⟨false, some "PONG".toList, some 1, some 0, some "ok".toList,
          some [("succeeded".toList, 1)]⟩⟩ :=
      exists_run_of_perform (f := resolveProbe) overtaken (by decide +kernel)
    obtain ⟨⟨t, c⟩, hrun, hc⟩ := hplay
    obtain rfl : c = _ := hc
    obtain ⟨log, hobs⟩ := hrun.observed (logging Prod.fst) [State.init]
    obtain ⟨hcode, pending, delayed, counts, hpending, hdelayed, hjobs, hle, -⟩ := health_agrees .refl hobs
    cases hpending
    cases hdelayed
    cases hjobs
    refine ⟨t, _, log, hobs, rfl, rfl, hcode, hle.trans (Nat.le_of_eq ?_)⟩
    rw [Nat.add_assoc]
    exact Nat.zero_add _
  · have hplay : ∃ s, Reaches Script.defaults Unhindered s ∧
        s.db.statuses = ["retrying".toList, "succeeded".toList, "queued".toList] ∧
          s.execs = [] ∧ s.apis = [] ∧ s.scheds = [.idle] :=
      exists_run_of_play (Script.start ['a'] ++ [.act .startSched] ++ Script.submit (Script.job 1) ++
        Script.throws ['a'] 3 ++ Script.submit (Script.job 2) ++ Script.takes ['a'] 8 ++ Script.submit (Script.job 3))
        (by decide +kernel)
    obtain ⟨s, hreach, hstatuses, hexecs, hapis, hscheds⟩ := hplay
    have hcounts : Tally.Counts [("retrying".toList, 1), ("succeeded".toList, 1), ("queued".toList, 1)]
        s.db.statuses := hstatuses ▸ by decide +kernel
    have rest : s.Calm := by
      refine ⟨hexecs, fun x hx => ?_, fun σ hσ => ?_⟩
      · rw [hapis] at hx
        cases hx
      · rw [hscheds] at hσ
        obtain rfl := List.mem_singleton.mp hσ
        rfl
    have hrun : Observed (step Script.defaults) Smooth _ _ _ _ _ := observed_alone hcounts
    obtain ⟨hcode, pending, delayed, counts, hpending, hdelayed, hjobs, -, hrest⟩ := health_agrees hreach hrun
    have hcalm : ∀ u ∈ [s, s, s, s, s], u.Calm := by
      intro u hu
      obtain rfl : u = s := by simpa using hu
      exact rest
    cases hjobs
    obtain ⟨rfl, rfl, -⟩ := hrest hcalm
    exact ⟨s, _, hrun, rfl, hcode, hpending, hdelayed⟩

end Checkup

end QueueFlow
