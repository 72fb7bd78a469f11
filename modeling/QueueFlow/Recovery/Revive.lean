-- SUMMARY: From any state that a run can reach, every recoverable job can still succeed: what a scheduler adds to the restarted workers.
import QueueFlow.Api.Repeats
import QueueFlow.Recovery.Lost
import QueueFlow.Recovery.Reap
import QueueFlow.Recovery.Restart
import QueueFlow.Script
import QueueFlow.Sweep.Reach
import QueueFlow.Worker.Failure

/-!
# Reviving jobs

Restarted workers bring every job to its end whose id is in `pending` or in a processing list. A scheduler
brings ids there: `promoteDue` from the delayed set, and `sweepOrphans` from the table. A sweep asks for
the `BATCH` oldest queued rows only, so that a job behind them waits until those have succeeded.
-/

namespace QueueFlow

open Transition

section

variable {cfg : Config} {can : Uuid → Outcome → Prop} {s t u : State} {w : WorkerId} {id : Text} {job : Uuid}
  {r : JobRow}

/-! ## A scheduler runs by itself -/

/-- Nothing runs but one scheduler. -/
structure State.Alone (s : State) (σ : Sched) : Prop where
  scheds : s.scheds = [σ]
  execs : s.execs = []
  apis : s.apis = []
  procs : ∀ w, (s.procs w).isDown = true

namespace State.Alone

variable {σ σ' : Sched}

variable (cfg can) in
theorem of_cold (cold : s.Cold) : Tends cfg can s (s.addSched .idle) ∧ (s.addSched .idle).Alone .idle := by
  refine ⟨Tends.of_step (a := .startSched) rfl trivial, ?_, cold.execs, cold.apis, cold.procs⟩
  rw [State.addSched_scheds, cold.scheds]

variable (cfg can) in
theorem exists_cold (alone : s.Alone σ) :
    ∃ t, Tends cfg can s t ∧ t.Cold ∧ t.db = s.db ∧ t.redis = s.redis := by
  have hstep : step cfg s (.schedKill σ) = some (s.endSched σ) := by
    simp [step, alone.scheds]
  refine ⟨_, Tends.of_step hstep trivial, ⟨alone.execs, ?_, alone.apis, alone.procs⟩, rfl, rfl⟩
  rw [State.endSched_scheds, alone.scheds, List.erase_cons_head]

theorem continues (alone : s.Alone σ) (pick : Pick) (h : schedule cfg s σ pick = some t) :
    Tends cfg can s t := by
  refine Tends.of_step (a := .sched σ pick) ?_ trivial
  simp only [step, alone.scheds, List.mem_singleton, if_true, h]

theorem atPoint (alone : s.Alone σ) : (s.atPoint σ').Alone σ' :=
  ⟨rfl, alone.execs, alone.apis, alone.procs⟩

theorem not_locked (alone : s.Alone σ) (job : Uuid) : s.locked job = false := by
  rw [State.locked, alone.execs]
  rfl

end State.Alone

/-! ## The delayed set -/

/-- The job has a row and is in the delayed set, or it is queued and its id is pending. -/
def State.Nearing (s : State) (job : Uuid) : Prop :=
  ∃ r, s.db.row job = some r ∧ (s.redis.isDelayed (uuidOut job) = true ∨
    r.status = .queued ∧ uuidOut job ∈ s.redis.pending)

/-- `promoteDue` has promoted one id. -/
private def State.promoted (s : State) (u : Uuid) : State :=
  (s.write u .promoted).withRedis ((s.redis.zrem (uuidOut u)).lpush (uuidOut u))

private theorem nearing_promoted (h : s.Nearing job) (u : Uuid) : (s.promoted u).Nearing job := by
  obtain ⟨r, hrow, h⟩ := h
  by_cases hu : job = u
  · subst hu
    exact ⟨r.promoted, Db.row_updateRow_self Db.keepsId_promoted hrow, .inr ⟨rfl, List.mem_cons_self⟩⟩
  · refine ⟨r, (Db.row_updateRow_ne Db.keepsId_promoted hu).trans hrow, h.imp (fun h => ?_) fun h => ?_⟩
    · obtain ⟨score, hmem⟩ := Redis.isDelayed_iff.mp h
      refine Redis.isDelayed_iff.mpr ⟨score, Redis.mem_zrem.mpr ⟨hmem, fun heq => hu (uuidOut_inj heq)⟩⟩
    · exact ⟨h.1, List.mem_cons_of_mem _ h.2⟩

/-- `ZREM`, the UPDATE and `LPUSH` of the first id that is due. -/
private theorem promotes_first {u : Uuid} {due : List Text} (alone : s.Alone (.promoting (uuidOut u :: due)))
    (hin : s.redis.isDelayed (uuidOut u) = true) :
    Tends cfg can s ((s.promoted u).atPoint (.promoting due)) := by
  have hremoved : schedule cfg s (.promoting (uuidOut u :: due)) .next =
      some ((s.withRedis (s.redis.zrem (uuidOut u))).atPoint (.promoteUpdate (uuidOut u) due)) := by
    simp only [schedule, promoteDue, hin, if_true]
    exact congrArg some (setSched_single alone.scheds)
  have alone₁ : ((s.withRedis (s.redis.zrem (uuidOut u))).atPoint (.promoteUpdate (uuidOut u) due)).Alone
      (.promoteUpdate (uuidOut u) due) := ⟨rfl, alone.execs, alone.apis, alone.procs⟩
  have hupdated : schedule cfg
      ((s.withRedis (s.redis.zrem (uuidOut u))).atPoint (.promoteUpdate (uuidOut u) due))
      (.promoteUpdate (uuidOut u) due) .next = some ((((s.withRedis (s.redis.zrem (uuidOut u))).atPoint
        (.promoteUpdate (uuidOut u) due)).write u .promoted).atPoint (.promotePush (uuidOut u) due)) := by
    simp only [schedule, promoteDue, uuidIn_uuidOut, alone₁.not_locked, Bool.false_eq_true, if_false]
    exact congrArg some (setSched_single alone₁.scheds)
  have alone₂ : ((((s.withRedis (s.redis.zrem (uuidOut u))).atPoint
      (.promoteUpdate (uuidOut u) due)).write u .promoted).atPoint (.promotePush (uuidOut u) due)).Alone
        (.promotePush (uuidOut u) due) := ⟨rfl, alone.execs, alone.apis, alone.procs⟩
  have hpushed : schedule cfg ((((s.withRedis (s.redis.zrem (uuidOut u))).atPoint
      (.promoteUpdate (uuidOut u) due)).write u .promoted).atPoint (.promotePush (uuidOut u) due))
        (.promotePush (uuidOut u) due) .next = some ((s.promoted u).atPoint (.promoting due)) :=
    congrArg some (setSched_single alone₂.scheds)
  exact ((alone.continues .next hremoved).trans (alone₁.continues .next hupdated)).trans
    (alone₂.continues .next hpushed)

/-- `promoteDue` comes to the end of its list. -/
private theorem promotes_due (cfg : Config) (can : Uuid → Outcome → Prop) :
    ∀ (due : List Text) (s : State), s.Alone (.promoting due) →
    s.Canonical → s.Nearing job → ∃ t, Tends cfg can s t ∧ t.Alone .idle ∧ t.Nearing job ∧ t.now = s.now ∧
      t.redis.delayed = s.redis.delayed.filter fun m => decide (m.1 ∉ due) := by
  intro due
  induction due with
  | nil =>
      intro s alone canonical hnear
      refine ⟨s.atPoint .idle, alone.continues .next ?_, alone.atPoint, hnear, rfl, ?_⟩
      · exact congrArg some (setSched_single alone.scheds)
      · simp [State.atPoint]
  | cons id due ih =>
      intro s alone canonical hnear
      by_cases hin : s.redis.isDelayed id = true
      · obtain ⟨score, hmem⟩ := Redis.isDelayed_iff.mp hin
        obtain ⟨u, hu⟩ := canonical _ hmem
        obtain rfl : id = uuidOut u := hu
        have hcanonical : (s.promoted u).Canonical := fun m hm => canonical m (Redis.mem_zrem.mp hm).1
        obtain ⟨t, hrun, hidle, hnear', hnow, hdelayed⟩ :=
          ih ((s.promoted u).atPoint (.promoting due)) ⟨rfl, alone.execs, alone.apis, alone.procs⟩
            hcanonical (nearing_promoted hnear u)
        refine ⟨t, (promotes_first alone hin).trans hrun, hidle, hnear', hnow, ?_⟩
        rw [hdelayed]
        show (s.redis.delayed.filter _).filter _ = _
        rw [List.filter_filter]
        refine List.filter_congr fun m _ => ?_
        rw [Bool.eq_iff_iff]
        simp [and_comm]
      · have hskipped : schedule cfg s (.promoting (id :: due)) .next =
            some (s.atPoint (.promoting due)) := by
          simp only [schedule, promoteDue, hin]
          exact congrArg some (setSched_single alone.scheds)
        obtain ⟨t, hrun, hidle, hnear', hnow, hdelayed⟩ :=
          ih (s.atPoint (.promoting due)) alone.atPoint canonical hnear
        refine ⟨t, (alone.continues .next hskipped).trans hrun, hidle, hnear', hnow, ?_⟩
        rw [hdelayed]
        refine List.filter_congr fun m hm => ?_
        have hne : m.1 ≠ id := by
          rintro rfl
          exact hin (Redis.isDelayed_iff.mpr ⟨m.2, hm⟩)
        simp [hne]

/-- `promoteDue` runs until the job is promoted. -/
private theorem promotes_all (cfg : Config) (can : Uuid → Outcome → Prop) :
    ∀ (n : Nat) (s : State), s.redis.delayed.length = n →
    s.Alone .idle → s.Canonical → s.Nearing job → (∀ m ∈ s.redis.delayed, m.2 ≤ s.dateNow) →
      ∃ t, Tends cfg can s t ∧ t.Alone .idle ∧ ∃ r, t.db.row job = some r ∧ r.status = .queued ∧
        uuidOut job ∈ t.redis.pending := by
  intro n
  induction n using Nat.strongRecOn with
  | ind n ih =>
      intro s hn alone canonical hnear hdue
      obtain ⟨r, hrow, hdelayed | ⟨hqueued, hpending⟩⟩ := hnear
      · obtain ⟨score, hmem⟩ := Redis.isDelayed_iff.mp hdelayed
        obtain ⟨due, heq⟩ : ∃ due, due = s.redis.zrangebyscore s.dateNow BATCH := ⟨_, rfl⟩
        have hstarted : schedule cfg s .idle .next = some (s.atPoint (.promoting due)) := by
          rw [heq]
          exact congrArg some (setSched_single alone.scheds)
        obtain ⟨t, hrun, hidle, hnear, hnow, hrest⟩ := promotes_due cfg can due (s.atPoint (.promoting due))
          alone.atPoint canonical ⟨r, hrow, .inl hdelayed⟩
        have hrest : t.redis.delayed = s.redis.delayed.filter fun m => decide (m.1 ∉ due) := hrest
        have hrun := (alone.continues .next hstarted).trans hrun
        -- The first of them is due, so that fewer are left.
        have hfewer : t.redis.delayed.length < n := by
          obtain ⟨m, rest, hcons⟩ : ∃ m rest, s.redis.delayed = m :: rest :=
            List.exists_cons_of_ne_nil (List.ne_nil_of_mem hmem)
          have hfirst : m.1 ∈ due := by
            have hle := hdue m (by rw [hcons]; exact List.mem_cons_self)
            simp [heq, Redis.zrangebyscore, hcons, hle, BATCH]
          rw [hrest, ← hn, hcons, List.filter_cons_of_neg (by simpa using hfirst)]
          exact Nat.lt_succ_of_le (List.length_filter_le ..)
        have hcanonical : t.Canonical := fun m hm => by
          rw [hrest] at hm
          exact canonical m (List.mem_filter.mp hm).1
        have hdue' : ∀ m ∈ t.redis.delayed, m.2 ≤ t.dateNow := fun m hm => by
          rw [hrest] at hm
          rw [State.dateNow, hnow]
          exact hdue m (List.mem_filter.mp hm).1
        obtain ⟨u, hrun', hidle', hend⟩ := ih _ hfewer t rfl hidle hcanonical hnear hdue'
        exact ⟨u, hrun.trans hrun', hidle', hend⟩
      · exact ⟨s, .refl, alone, r, hrow, hqueued, hpending⟩

private theorem exists_le_dateNow (s : State) (l : List (Text × Nat)) :
    ∃ d, ∀ m ∈ l, m.2 ≤ ({ s with now := s.now + d } : State).dateNow := by
  refine ⟨1000 * (l.map (·.2)).sum, fun m hm => ?_⟩
  have hle : m.2 ≤ (l.map (·.2)).sum := List.le_sum_of_mem (List.mem_map_of_mem hm)
  show m.2 ≤ (s.now + 1000 * (l.map (·.2)).sum) / 1000
  omega

variable (cfg can) in
/-- A scheduler promotes a delayed job, once its time has come. -/
theorem State.Cold.exists_promoted (cold : s.Cold) (canonical : s.Canonical) (hrow : s.db.row job = some r)
    (hdelayed : s.redis.isDelayed (uuidOut job) = true) :
    ∃ t r', Tends cfg can s t ∧ t.Cold ∧ t.db.row job = some r' ∧ r'.status = .queued ∧
      uuidOut job ∈ t.redis.pending := by
  obtain ⟨d, hd⟩ := exists_le_dateNow s s.redis.delayed
  have hlater : Tends cfg can s { s with now := s.now + d } :=
    Tends.of_step (a := .tick d) rfl trivial
  have hcold : ({ s with now := s.now + d } : State).Cold := ⟨cold.execs, cold.scheds, cold.apis, cold.procs⟩
  obtain ⟨hstart, alone⟩ := State.Alone.of_cold cfg can hcold
  obtain ⟨t, hrun, halone, r', hrow', hqueued, hpending⟩ :=
    promotes_all cfg can _ _ rfl alone canonical ⟨r, hrow, .inl hdelayed⟩ hd
  obtain ⟨u, hkill, hcold', hdb, hredis⟩ := halone.exists_cold cfg can
  exact ⟨u, r', ((hlater.trans hstart).trans hrun).trans hkill, hcold', by rw [hdb]; exact hrow', hqueued,
    by rw [hredis]; exact hpending⟩

/-! ## A recovery pass -/

/-- Every worker whose list has an entry has a heartbeat. -/
def State.Vouched (s : State) : Prop := ∀ k ∈ s.redis.processing, k.1 ∈ s.redis.alive

/-- Workers with these ids start and are killed at once. -/
private theorem vouch (cfg : Config) (can : Uuid → Outcome → Prop) :
    ∀ (ws : List WorkerId) (s : State), (∀ w ∈ ws, w ≠ []) → s.Cold →
    ∃ t, Tends cfg can s t ∧ t.Cold ∧ SetBack s t ∧ (∀ k ∈ t.redis.processing, k ∈ s.redis.processing) ∧
      (∀ w ∈ ws, w ∈ t.redis.alive) ∧ ∀ w ∈ s.redis.alive, w ∈ t.redis.alive := by
  intro ws
  induction ws with
  | nil =>
      intro s _ cold
      exact ⟨s, .refl, cold, .refl, fun _ => id, by rintro w ⟨⟩, fun _ => id⟩
  | cons w ws ih =>
      intro s hws cold
      obtain ⟨u, hstart, hstaffed, -, hu⟩ :=
        cold.exists_started cfg can (hws w List.mem_cons_self)
      obtain ⟨v, hkill, hcold, hdb, hredis⟩ := hstaffed.exists_killed cfg can
      obtain ⟨t, hrun, hcold', hback, hlisted, halive, hkeep⟩ :=
        ih v (fun w' hw' => hws w' (List.mem_cons_of_mem _ hw')) hcold
      refine ⟨t, (hstart.trans hkill).trans hrun, hcold', (hu.setBack.of_db hdb).trans hback,
        fun k hk => hu.listed k (hredis ▸ hlisted k hk), fun w' hw' => ?_,
        fun w' hw' => hkeep w' (hredis ▸ hu.alive.2 w' hw')⟩
      rcases List.mem_cons.mp hw' with rfl | hw'
      · exact hkeep _ (hredis ▸ hu.alive.1)
      · exact halive w' hw'

variable (cfg can) in
theorem State.Cold.exists_vouched (cold : s.Cold) (wf : StaffWf s) :
    ∃ t, Tends cfg can s t ∧ t.Cold ∧ SetBack s t ∧ t.Vouched := by
  obtain ⟨t, hrun, hcold, hback, hlisted, halive, -⟩ :=
    vouch cfg can (s.redis.processing.map (·.1)) s (fun w hw => by
      obtain ⟨k, hk, rfl⟩ := List.mem_map.mp hw
      exact wf.listed k hk) cold
  exact ⟨t, hrun, hcold, hback, fun k hk => halive _ (List.mem_map_of_mem (hlisted k hk))⟩

/-- The `SCAN` of `reapDead` comes to its end. -/
private theorem scans (cfg : Config) (can : Uuid → Outcome → Prop) : ∀ (todo found : List WorkerId) (s : State),
    s.Alone (.reapScan todo found) → (∀ w ∈ found, s.redis.lrange w ≠ []) →
      ∃ found', Tends cfg can s (s.atPoint (.reapCheck found')) ∧ ∀ w ∈ found', s.redis.lrange w ≠ [] := by
  intro todo
  induction todo with
  | nil =>
      intro found s alone hfound
      exact ⟨found, alone.continues .next (congrArg some (setSched_single alone.scheds)), hfound⟩
  | cons w todo ih =>
      intro found s alone hfound
      obtain ⟨found₁, heq⟩ : ∃ found₁, found₁ = if s.redis.lrange w = [] then found else found ++ [w] :=
        ⟨_, rfl⟩
      have hfound₁ : ∀ w ∈ found₁, s.redis.lrange w ≠ [] := fun w' hw' => by
        rw [heq] at hw'
        split at hw'
        · exact hfound w' hw'
        · rename_i hne
          rcases List.mem_append.mp hw' with hw' | hw'
          · exact hfound w' hw'
          · rwa [List.mem_singleton.mp hw']
      have hvisit : schedule cfg s (.reapScan (w :: todo) found) (.visit w) =
          some (s.atPoint (.reapScan todo found₁)) := by
        simp only [schedule, reapDead, scanStep, List.mem_cons_self, if_true, List.erase_cons_head,
          Option.map_some, heq]
        exact congrArg some (setSched_single alone.scheds)
      obtain ⟨found', hrun, hfound'⟩ := ih found₁ (s.atPoint (.reapScan todo found₁)) alone.atPoint hfound₁
      exact ⟨found', (alone.continues _ hvisit).trans hrun, hfound'⟩

/-- The reaper goes past the lists of workers that are alive. -/
private theorem passes_alive (cfg : Config) (can : Uuid → Outcome → Prop) :
    ∀ (keys : List WorkerId) (s : State), s.Alone (.reapCheck keys) →
    (∀ w ∈ keys, w ∈ s.redis.alive) → Tends cfg can s (s.atPoint .sweepSelect) := by
  intro keys
  induction keys with
  | nil =>
      intro s alone _
      exact alone.continues .next (congrArg some (setSched_single alone.scheds))
  | cons key keys ih =>
      intro s alone halive
      have hskipped : schedule cfg s (.reapCheck (key :: keys)) .next =
          some (s.atPoint (.reapCheck keys)) := by
        simp only [schedule, reapDead, halive key List.mem_cons_self, or_true, if_true]
        exact congrArg some (setSched_single alone.scheds)
      exact (alone.continues _ hskipped).trans
        (ih (s.atPoint (.reapCheck keys)) alone.atPoint fun w hw => halive w (List.mem_cons_of_mem _ hw))

private theorem continues_of_sweeping (h : Run (step cfg) SweepingOnly s t) : Tends cfg can s t := by
  refine h.mono fun s a ha => ?_
  cases a with
  | request | api | exec | execFail | schedFail => cases ha
  | _ => trivial

variable (cfg can) in
/-- When no worker is taken for dead, a recovery pass does nothing but sweep. -/
theorem State.Cold.exists_swept (cold : s.Cold) (wf : StaffWf s) (vouched : s.Vouched) (d : Nat) :
    ∃ t u : State, Tends cfg can s t ∧ t.Cold ∧ t.db = s.db ∧ t.redis = u.swept cfg ∧ u.db = s.db ∧
      u.redis = s.redis ∧ d ≤ u.now := by
  have hlater : Tends cfg can s { s with now := s.now + d } :=
    Tends.of_step (a := .tick d) rfl trivial
  have hcold : ({ s with now := s.now + d } : State).Cold := ⟨cold.execs, cold.scheds, cold.apis, cold.procs⟩
  obtain ⟨hstart, alone⟩ := State.Alone.of_cold cfg can hcold
  obtain ⟨v, hv⟩ : ∃ v, v = ({ s with now := s.now + d } : State).addSched .idle := ⟨_, rfl⟩
  rw [← hv] at hstart alone
  have hredis : v.redis = s.redis := by rw [hv]; rfl
  have hrecover : schedule cfg v .idle .recover = some (v.atPoint (.reapScan v.processingKeys [])) :=
    congrArg some (setSched_single alone.scheds)
  obtain ⟨found, hscan, hfound⟩ := scans cfg can v.processingKeys [] (v.atPoint (.reapScan v.processingKeys []))
    alone.atPoint (by rintro w ⟨⟩)
  have halive : ∀ w ∈ found, w ∈ v.redis.alive := fun w hw => by
    obtain ⟨id, hid⟩ := List.exists_mem_of_ne_nil _ (hfound w hw)
    rw [hredis]
    exact vouched (w, id) (hredis ▸ KeyedList.mem_get.mp hid)
  have hpass := passes_alive cfg can found (v.atPoint (.reapCheck found)) alone.atPoint halive
  obtain ⟨x, hsweep⟩ : ∃ x, Sweeps cfg (v.atPoint .sweepSelect) x := exists_sweeps rfl
  obtain ⟨y, hselect, hrest⟩ := hsweep.runs
  obtain ⟨hdb, hswept, -⟩ := hsweep.spec
  have hrun : Tends cfg can s x := ((((hlater.trans hstart).trans (alone.continues _ hrecover)).trans
    hscan).trans hpass).trans ((Tends.of_step hselect trivial).trans (continues_of_sweeping hrest))
  obtain ⟨t, hkill, hcold', hdb', hredis'⟩ := (wf.of_run hrun).exists_cold cfg can
  have hvdb : v.db = s.db := by rw [hv]; rfl
  refine ⟨t, v.atPoint .sweepSelect, hrun.trans hkill, hcold', (hdb'.trans hdb).trans hvdb,
    hredis'.trans hswept, hvdb, hredis, ?_⟩
  show d ≤ v.now
  rw [hv]
  exact Nat.le_add_left ..

/-! ## Every recoverable job can succeed -/

/-- What every run, whatever fails in it, says that a restart relies on. -/
structure RestartWf (cfg : Config) (s : State) : Prop where
  lease : LeaseWf cfg s
  staff : StaffWf s
  canonical : s.Canonical
  /-- The ids of rows are random uuids, and no two rows have the same. -/
  ids : ∀ job, s.Known job → job.isRandom = true
  key : (s.db.jobs.map (·.id)).Nodup

namespace RestartWf

theorem init : RestartWf cfg .init where
  lease := .init
  staff := .init
  canonical := by rintro m ⟨⟩
  ids := by rintro job ⟨r, ⟨⟩⟩
  key := List.nodup_nil

theorem step {a : Act} (wf : RestartWf cfg s) (h : QueueFlow.step cfg s a = some t) : RestartWf cfg t where
  lease := wf.lease.step h
  staff := wf.staff.step h
  canonical := wf.canonical.step h
  ids job known := (random_of_step wf.lease h known).elim (wf.ids job) id
  key := (changes_of_step h).nodup wf.key

theorem of_run {ok : State → Act → Prop} (wf : RestartWf cfg s) (h : Run (QueueFlow.step cfg) ok s t) :
    RestartWf cfg t :=
  h.invariant wf fun _ _ _ wf _ h => wf.step h

theorem names (wf : RestartWf cfg s) (hrow : s.db.row job = some r) : Names (uuidOut job) job :=
  ⟨isUuid_of_isRandom (wf.ids job ⟨r, hrow⟩), uuidIn_uuidOut job⟩

end RestartWf

theorem RestartWf.row_of_mem (wf : RestartWf cfg s) (hr : r ∈ s.db.jobs) : s.db.row r.id = some r := by
  obtain ⟨r', hrow⟩ := Db.row_isSome_of_mem hr
  rw [hrow, List.inj_on_of_nodup_map wf.key (Db.row_mem hrow) hr (Db.id_of_row hrow)]

theorem Redis.Holds.listed (h : s.redis.Holds (uuidOut job)) (hnames : Names (uuidOut job) job) :
    s.Listed job := by
  refine ⟨_, hnames, h.imp_right ?_⟩
  rintro ⟨⟨w, id⟩, hmem, rfl⟩
  exact ⟨w, hmem⟩

/-- A sweep of a table with an old queued row lists some queued row. -/
private theorem exists_candidate (hr : r ∈ s.db.jobs) (hold : isOrphanCandidate cfg s.now r = true) :
    ∃ r' ∈ s.db.jobs, r'.status = .queued ∧ r'.id ∈ orphanCandidates cfg s := by
  have hmem : r ∈ (s.db.jobs.filter (isOrphanCandidate cfg s.now)).insertionSort olderFirst :=
    (List.mem_insertionSort _).mpr (List.mem_filter.mpr ⟨hr, hold⟩)
  obtain ⟨r', rest, hcons⟩ := List.exists_cons_of_ne_nil (List.ne_nil_of_mem hmem)
  have hr' : r' ∈ (s.db.jobs.filter (isOrphanCandidate cfg s.now)).insertionSort olderFirst := by
    rw [hcons]
    exact List.mem_cons_self
  obtain ⟨hmem', hold'⟩ := List.mem_filter.mp ((List.mem_insertionSort _).mp hr')
  refine ⟨r', hmem', ?_, ?_⟩
  · simp only [isOrphanCandidate, Bool.and_eq_true, decide_eq_true_eq] at hold'
    exact hold'.1
  · rw [orphanCandidates, hcons, BATCH, List.take_succ_cons, List.map_cons]
    exact List.mem_cons_self

/-- A recovery pass brings a queued job into a list, though it need not be the one that is looked for. -/
private theorem State.Cold.exists_relisted_queued (cold : s.Cold) (wf : RestartWf cfg s)
    (hrow : s.db.row job = some r) (hqueued : r.status = .queued) :
    ∃ t job' r' r'', Tends cfg can s t ∧ t.Cold ∧ t.db.unfinished = s.db.unfinished ∧
      t.db.row job = some r'' ∧ r''.status = .queued ∧
        t.Listed job' ∧ t.db.row job' = some r' ∧ r'.status = .queued := by
  obtain ⟨v, hvouch, hcold, hback, vouched⟩ := cold.exists_vouched cfg can wf.staff
  obtain ⟨r'', hrow'', hqueued''⟩ := hback.queued hrow hqueued
  have wf' := wf.of_run hvouch
  obtain ⟨t, x, hrun, hcold', hdb, hredis, hxdb, hxredis, hnow⟩ := hcold.exists_swept cfg can
    wf'.staff vouched (r''.createdAt + cfg.orphanAgeS * 1000000 + 1)
  have hold : isOrphanCandidate cfg x.now r'' = true := by
    simp only [isOrphanCandidate, hqueued'', decide_true, Bool.true_and, decide_eq_true_eq]
    omega
  obtain ⟨r', hr', hqueued', hcandidate⟩ :=
    exists_candidate (hxdb ▸ Db.row_mem hrow'') hold
  have hkey : t.db.row r'.id = some r' := by
    rw [hdb]
    exact wf'.row_of_mem (hxdb ▸ hr')
  have hholds : t.redis.Holds (uuidOut r'.id) := by
    rw [hredis, holds_swept_iff]
    exact .inr ⟨_, hcandidate, rfl⟩
  exact ⟨t, r'.id, r', r'', hvouch.trans hrun, hcold', by rw [hdb, hback.unfinished_eq],
    by rw [hdb]; exact hrow'', hqueued'', hholds.listed ((wf'.of_run hrun).names hkey), hkey, hqueued'⟩

variable (cfg) in
/-- However its handler ends, a listed queued job is queued and running no more. -/
private theorem State.Cold.exists_unqueued (cold : s.Cold) (wf : StaffWf s) (hends : ∃ o, can job o)
    (hlisted : s.Listed job) (hrow : s.db.row job = some r) (hqueued : r.status = .queued) :
    ∃ t P, Tends cfg can s t ∧ t.Cold ∧ Brings P job s t ∧ ∀ st, P st → st ≠ .queued ∧ st ≠ .running := by
  have hterm : r.status.terminal = false := by rw [hqueued]; rfl
  obtain ⟨o, ho⟩ := hends
  cases o with
  | returned =>
      obtain ⟨t, hrun, hcold, hbrings, -⟩ := cold.exists_succeeds cfg wf ho hlisted hrow hterm
      refine ⟨t, _, hrun, hcold, hbrings, ?_⟩
      rintro st rfl
      exact ⟨by rintro ⟨⟩, by rintro ⟨⟩⟩
  | threw message random =>
      obtain ⟨t, hrun, hcold, hbrings⟩ := cold.exists_fails cfg wf ho hlisted hrow hterm
      refine ⟨t, _, hrun, hcold, hbrings, ?_⟩
      rintro st (rfl | rfl)
      · exact ⟨by rintro ⟨⟩, by rintro ⟨⟩⟩
      · exact ⟨by rintro ⟨⟩, by rintro ⟨⟩⟩

/-- A queued job whose handler can return succeeds in the end: a sweep lists it, once enough older jobs
have come to their end or wait for a retry. -/
private theorem exists_succeeds_queued (cfg : Config) (hreturns : can job .returned)
    (hends : ∀ job', ∃ o, can job' o) : ∀ (n : Nat) (s : State)
    (r : JobRow), s.db.unfinished = n → s.Cold → RestartWf cfg s → s.db.row job = some r → r.status = .queued →
      ∃ t, Tends cfg can s t ∧ t.HasStatus job .succeeded ∧ 0 < t.db.effectsFor job := by
  intro n
  induction n using Nat.strongRecOn with
  | ind n ih =>
      intro s r hn cold wf hrow hqueued
      obtain ⟨u, job', r', r'', hrun, hcold, hunfinished, hrow'', hqueued'', hlisted, hrow', hqueued'⟩ :=
        cold.exists_relisted_queued wf hrow hqueued
      have wf' := wf.of_run hrun
      by_cases hjob : job = job'
      · subst hjob
        obtain ⟨v, hrun', -, hbrings, heffects⟩ := hcold.exists_succeeds cfg wf'.staff hreturns hlisted hrow'
          (by rw [hqueued']; rfl)
        obtain ⟨x, hx, hstatus, -⟩ := hbrings.row hrow''
        exact ⟨v, hrun.trans hrun', by rw [State.HasStatus, hx, Option.map_some, hstatus rfl], heffects⟩
      · -- The other job makes way, whether its handler returns or throws.
        obtain ⟨v, P, hrun', hcold', hbrings, hP⟩ :=
          hcold.exists_unqueued cfg wf'.staff (hends job') hlisted hrow' hqueued'
        have hfewer := hbrings.unfinished_lt hP hrow' hqueued'
        obtain ⟨x, hx, -, hstill⟩ := hbrings.row hrow''
        obtain ⟨y, hrest, hend⟩ := ih _ (by omega) v x rfl hcold' (wf'.of_run hrun') hx
          (hstill hjob hqueued'')
        exact ⟨y, (hrun.trans hrun').trans hrest, hend⟩

variable (can) in
/-- A recoverable job that is not over and whose handler can return succeeds after everything has been
stopped and started again. -/
theorem RestartWf.exists_succeeds (wf : RestartWf cfg s) (hreturns : can job .returned)
    (hends : ∀ job', ∃ o, can job' o) (hrow : s.db.row job = some r) (hterm : r.status.terminal = false)
    (hrec : s.Recoverable job) :
    ∃ t, Tends cfg can s t ∧ t.HasStatus job .succeeded ∧ 0 < t.db.effectsFor job := by
  obtain ⟨u, hstop, cold, hdb, hredis⟩ := wf.staff.exists_cold cfg can
  have wfᵤ := wf.of_run hstop
  rw [← hdb] at hrow
  -- A job with its id in a list succeeds, and so does a queued one.
  have hlist {v : State} {r' : JobRow} (hrunᵥ : Tends cfg can s v) (coldᵥ : v.Cold) (hlisted : v.Listed job)
      (hrow' : v.db.row job = some r') (hterm' : r'.status.terminal = false) :
      ∃ t, Tends cfg can s t ∧ t.HasStatus job .succeeded ∧ 0 < t.db.effectsFor job := by
    obtain ⟨t, hrunₜ, -, hbrings, heffects⟩ := coldᵥ.exists_succeeds cfg (wf.of_run hrunᵥ).staff hreturns
      hlisted hrow' hterm'
    obtain ⟨r'', hrow'', hstatus, -⟩ := hbrings.row hrow'
    exact ⟨t, hrunᵥ.trans hrunₜ, by rw [State.HasStatus, hrow'', Option.map_some, hstatus rfl], heffects⟩
  rcases hrec with (⟨id, hid, hnames⟩ | ⟨⟨w, id⟩, hid, hnames⟩ | hdelayed) | ⟨r', hr', hqueued⟩
  · exact hlist hstop cold ⟨id, hnames, .inl (hredis ▸ hid)⟩ hrow hterm
  · exact hlist hstop cold ⟨id, hnames, .inr ⟨w, hredis ▸ hid⟩⟩ hrow hterm
  · obtain ⟨v, r', hrunᵥ, coldᵥ, hrow', hqueued, hpending⟩ :=
      cold.exists_promoted cfg can wfᵤ.canonical hrow (by rw [hredis]; exact hdelayed)
    exact hlist (hstop.trans hrunᵥ) coldᵥ ⟨_, wfᵤ.names hrow, .inl hpending⟩ hrow' (by rw [hqueued]; rfl)
  · obtain ⟨t, hrunₜ, hend⟩ := exists_succeeds_queued cfg hreturns hends _ u r' rfl cold wfᵤ
      (by rw [hdb]; exact hr') hqueued
    exact ⟨t, hstop.trans hrunₜ, hend⟩

variable (can) in
/-- In whatever state a run has come to, and whatever has failed in it: a recoverable job that is not over
and whose handler can return can still succeed without a request. -/
theorem recoverable_can_succeed {ok : State → Act → Prop} (hrun : Reaches cfg ok s)
    (hreturns : can job .returned) (hends : ∀ job', ∃ o, can job' o) (hrow : s.db.row job = some r)
    (hterm : r.status.terminal = false) (hrec : s.Recoverable job) :
    ∃ t, Tends cfg can s t ∧ t.HasStatus job .succeeded ∧ 0 < t.db.effectsFor job :=
  (RestartWf.init.of_run hrun).exists_succeeds can hreturns hends hrow hterm hrec

end

open Script in
/-- A worker dies in the handler, and no process is left. The handler of the other job always throws. -/
theorem recoverable_can_succeed_died : ∃ s t, Reaches defaults (fun _ _ => True) s ∧
    s.HasStatus (job 1) .running ∧ s.HasStatus (job 2) .queued ∧
    Tends defaults (fun u o => o = if u = job 1 then .returned else threw) s t ∧
      t.HasStatus (job 1) .succeeded := by
  have hplay : ∃ s, Reaches defaults (fun _ _ => True) s ∧
      ((s.db.row (job 1)).any (·.status = .running) = true ∧ s.HasStatus (job 2) .queued ∧
        s.Recoverable (job 1)) :=
    exists_run_of_play (start ['a'] ++ submit (job 1) ++ takes ['a'] 2 ++ submit (job 2) ++ dies ['a'])
      (by decide +kernel)
  obtain ⟨s, hrun, hany, hother, hrec⟩ := hplay
  obtain ⟨r, hrow, hstatus⟩ := (Option.any_eq_true _ _).mp hany
  have hrunning : r.status = .running := of_decide_eq_true hstatus
  obtain ⟨t, htends, hend, -⟩ :=
    recoverable_can_succeed (fun u o => o = if u = job 1 then .returned else threw) hrun
      (if_pos rfl).symm (fun _ => ⟨_, rfl⟩) hrow (by rw [hrunning]; rfl) hrec
  exact ⟨s, t, hrun, by rw [State.HasStatus, hrow, Option.map_some, hrunning], hother, htends, hend⟩

end QueueFlow
