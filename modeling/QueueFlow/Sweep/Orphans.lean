-- SUMMARY: A pass of sweepOrphans beside workers, promotions and the API: when what it pushes is in no other place.
import QueueFlow.Api.Repeats
import QueueFlow.Ids.Circulation
import QueueFlow.Sweep.Reach
import QueueFlow.Worker.Entry

/-!
# A sweep beside the rest of the system

`sweepOrphans` asks Postgres for old `'queued'` rows, reads `pending`, then the processing lists one
after the other, and pushes what it has not seen. Between any two of these commands the others go on.
An id that moves from `pending` to a list that is still to be read is seen; one whose last entry is
removed before that, or that is in no list because a process is about to push it, is not.
-/

namespace QueueFlow

open Transition

/-! ## Orphans -/

/-- No entry has the job, in whatever spelling, and no process is about to push it. -/
def State.NoCopy (s : State) (job : Uuid) : Prop := ∀ t, s.Circulates t → uuidIn t ≠ some job

/-- The row is waiting for an id that is nowhere, and no execution is at work on the job. -/
structure State.Orphan (s : State) (job : Uuid) : Prop where
  queued : s.HasStatus job .queued
  noCopy : s.NoCopy job
  idle : ∀ e ∈ s.execs, e.pc.phase ≠ .finished → uuidIn e.id ≠ some job

/-- Whatever the sweep is about to push has a row that is 'queued' and no other copy. -/
def State.PushesOrphans (s : State) : Prop := ∀ job candidates held,
  Sched.sweepPush (job :: candidates) held ∈ s.scheds → uuidOut job ∉ held →
    s.HasStatus job .queued ∧ s.NoCopy job

/-! ## What happens beside the pass -/

/-- Nobody else recovers: no other recovery pass begins, and no entry is taken off a list but by the
worker that it belongs to. -/
def BesideSweep (s : State) (a : Act) : Prop :=
  a.recovers s = none ∧ a ≠ .sched .idle .recover

instance (s : State) (a : Act) : Decidable (BesideSweep s a) :=
  inferInstanceAs (Decidable (a.recovers s = none ∧ a ≠ .sched .idle .recover))

/-- What the pass has seen in Redis so far. -/
def Sched.held : Sched → List Text
  | .sweepScan _ held _ _ => held
  | .sweepRead _ held _ => held
  | .sweepPush _ held => held
  | _ => []

/-- The lists that the pass has still to read. -/
def Sched.toRead : Sched → List WorkerId
  | .sweepScan _ _ todo found => todo ++ found
  | .sweepRead _ _ keys => keys
  | _ => []

/-- The candidates of a pass that reads `pending`. -/
def Act.readsPending : Act → Option (List Uuid)
  | .sched (.sweepPending candidates) _ => some candidates
  | _ => none

/-- When the pass reads `pending`, every candidate is in `pending` or in a processing list, or is an
orphan. -/
def FindsCandidates (s : State) (a : Act) : Prop :=
  ∀ candidates, a.readsPending = some candidates →
    ∀ job ∈ candidates, s.redis.Holds (uuidOut job) ∨ s.Orphan job

/-- When a worker lets go of a candidate that the pass has not seen, in a list that the pass has
still to read, another entry of it is left in such a list. -/
def LeavesEntry (s : State) (a : Act) : Prop :=
  ∀ e, a.letsGo = some e → ∀ σ ∈ s.scheds, ∀ job ∈ σ.candidates, e.id = uuidOut job →
    e.worker ∈ σ.toRead → e.id ∈ s.redis.lrange e.worker →
      e.id ∈ σ.held ∨ ∃ w ∈ σ.toRead, e.id ∈ (s.redis.lrem e.worker e.id).lrange w

/-- A step beside the pass that leaves it what it has to find. -/
structure SparesSweep (s : State) (a : Act) : Prop where
  beside : BesideSweep s a
  finds : FindsCandidates s a
  leaves : LeavesEntry s a

section

variable {cfg : Config} {s s' : State} {a : Act} {job : Uuid} {σ : Sched} {pick : Pick}

theorem noCopy_iff : s.NoCopy job ↔ (∀ id ∈ s.redis.pending, uuidIn id ≠ some job) ∧
    (∀ p ∈ s.redis.processing, uuidIn p.2 ≠ some job) ∧
    (∀ m ∈ s.redis.delayed, uuidIn m.1 ≠ some job) ∧
    (∀ σ ∈ s.scheds, ∀ id ∈ σ.hand, uuidIn id ≠ some job) ∧
    ∀ x ∈ s.apis, ∀ id ∈ x.hand, uuidIn id ≠ some job := by
  constructor
  · intro h
    exact ⟨fun id hid => h id (.pending hid), fun p hp => h p.2 (.listed p.1 hp),
      fun m hm => h m.1 (.delayed m.2 hm), fun σ hσ id hid => h id (.promoting σ hσ hid),
      fun x hx id hid => h id (.pushing x hx hid)⟩
  · rintro ⟨hpending, hlisted, hdelayed, hscheds, hapis⟩ t ht
    cases ht with
    | pending h => exact hpending t h
    | listed w h => exact hlisted (w, t) h
    | delayed score h => exact hdelayed (t, score) h
    | promoting σ h hhand => exact hscheds σ h t hhand
    | pushing x h hhand => exact hapis x h t hhand

instance : Decidable (s.NoCopy job) := decidable_of_iff _ noCopy_iff.symm

instance : Decidable (s.Orphan job) :=
  decidable_of_iff (s.HasStatus job .queued ∧ s.NoCopy job ∧
    ∀ e ∈ s.execs, e.pc.phase ≠ .finished → uuidIn e.id ≠ some job)
    ⟨fun h => ⟨h.1, h.2.1, h.2.2⟩, fun h => ⟨h.queued, h.noCopy, h.idle⟩⟩

instance : Decidable (FindsCandidates s a) :=
  inferInstanceAs (Decidable (∀ candidates ∈ a.readsPending, ∀ job ∈ candidates,
    s.redis.Holds (uuidOut job) ∨ s.Orphan job))

instance : Decidable (LeavesEntry s a) :=
  inferInstanceAs (Decidable (∀ e ∈ a.letsGo, ∀ σ ∈ s.scheds, ∀ job ∈ σ.candidates,
    e.id = uuidOut job → e.worker ∈ σ.toRead → e.id ∈ s.redis.lrange e.worker →
      e.id ∈ σ.held ∨ ∃ w ∈ σ.toRead, e.id ∈ (s.redis.lrem e.worker e.id).lrange w))

instance : Decidable (SparesSweep s a) :=
  decidable_of_iff (BesideSweep s a ∧ FindsCandidates s a ∧ LeavesEntry s a)
    ⟨fun h => ⟨h.1, h.2.1, h.2.2⟩, fun h => ⟨h.beside, h.finds, h.leaves⟩⟩

/-! ## An orphan stays one -/

theorem hasStatus_iff {st : JobStatus} :
    s.HasStatus job st ↔ ∃ r, s.db.row job = some r ∧ r.status = st := by
  unfold State.HasStatus
  rw [Option.map_eq_some_iff]

/-- Nothing but a reap pass or an execution of its own makes a 'queued' row another. -/
private theorem queued_of_step (lease : LeaseWf cfg s) (ho : s.Orphan job)
    (hreap : ∀ σ ∈ s.scheds, ∀ k, σ.judging = some k → uuidIn k.2 ≠ some job)
    (hstep : step cfg s a = some s') :
    s'.HasStatus job .queued := by
  obtain ⟨r, hrow, hqueued⟩ := hasStatus_iff.mp ho.queued
  obtain ⟨r', hrow', hmove⟩ := rowMove_of_step lease hstep hrow
  refine hasStatus_iff.mpr ⟨r', hrow', ?_⟩
  have hbusy {e : Exec} (he : e ∈ s.execs) (hjob : e.pc.job? = some job)
      (hphase : e.pc.phase ≠ .finished) : False :=
    ho.idle e he hphase (lease.named e he job hjob)
  cases hmove with
  | same => exact hqueued
  | replayed id g ha hid hdead =>
    rw [hqueued] at hdead
    cases hdead
  | claimed e m he ha hpc =>
    exact (hbusy he (by rw [hpc]; rfl) (by rw [hpc]; rintro ⟨⟩)).elim
  | settled e h began he ha hpc hjob | buried e h message he ha hpc hjob
  | parked e h message runAt he ha hpc hjob =>
    subst hjob
    exact (hbusy he (by rw [hpc]; rfl) (by rw [hpc]; rintro ⟨⟩)).elim
  | promoted id due pick hσ ha hid => exact (ho.noCopy id (.promoting _ hσ rfl) hid).elim
  | reapBuried key id keys pick hσ ha hid => exact absurd hid (hreap _ hσ _ rfl)
  | reapRequeued => rfl
  | reset w c stranded deadline ha hp hstranded =>
    have hrunning := running_of_strandedRow hstranded
    rw [hqueued] at hrunning
    cases hrunning

private theorem noCopy_of_step (lease : LeaseWf cfg s) (ho : s.Orphan job)
    (hpush : ∀ candidates held pick, a ≠ .sched (.sweepPush (job :: candidates) held) pick)
    (hstep : step cfg s a = some s') : s'.NoCopy job := by
  intro t ht hid
  rcases circulates_cases hstep ht with ht | ht
  · exact ho.noCopy t ht hid
  obtain ⟨r, hrow, hqueued⟩ := hasStatus_iff.mp ho.queued
  cases ht with
  | swept job' candidates held pick ha _ heq =>
    rw [heq, uuidIn_uuidOut] at hid
    obtain rfl := Option.some.inj hid
    exact hpush candidates held pick ha
  | parked e hold runAt ha hpc heq =>
    rw [heq, uuidIn_uuidOut] at hid
    obtain rfl := Option.some.inj hid
    have he := exec_mem_of_step hstep ha
    exact ho.idle e he (by rw [hpc]; rintro ⟨⟩) (lease.named e he hold.job (by rw [hpc]; rfl))
  | inserted job' hnew _ heq =>
    rw [heq, uuidIn_uuidOut] at hid
    obtain rfl := Option.some.inj hid
    rw [hrow] at hnew
    cases hnew
  | replayed g job' ha hreplay =>
    obtain ⟨id, g', ha', hid', r', hrow', hdead⟩ := replays?_eq_some.mp hreplay
    cases ha.symm.trans ha'
    obtain rfl := Option.some.inj (hid.symm.trans hid')
    obtain rfl := Option.some.inj (hrow.symm.trans hrow')
    rw [hqueued] at hdead
    cases hdead

private theorem idle_of_step (ho : s.Orphan job) (hstep : step cfg s a = some s') :
    ∀ e ∈ s'.execs, e.pc.phase ≠ .finished → uuidIn e.id ≠ some job := by
  intro e he hphase hid
  rcases exec_origin hstep he with he | ⟨w, rest, -, hpending, -⟩ | hmoved
  · exact ho.idle e he hphase hid
  · exact ho.noCopy e.id (.pending (by rw [hpending]; simp)) hid
  have hexec : ∃ e₀, a.exec? = some e₀ := by
    rcases hmoved with ⟨e₀, o, rfl, -⟩ | ⟨e₀, took, message, random, rfl, -⟩
    · exact ⟨e₀, rfl⟩
    · exact ⟨e₀, rfl⟩
  obtain ⟨e₀, ha⟩ := hexec
  obtain ⟨he₀, -, ⟨hexecs, -⟩ | ⟨pc, hphase₀, hexecs, -⟩⟩ := execs_of_exec hstep ha
  · rw [hexecs] at he
    exact ho.idle e (List.mem_of_mem_erase he) hphase hid
  · rw [hexecs] at he
    rcases Bag.mem_of_mem_swap he with rfl | he
    · exact ho.idle e₀ he₀ hphase₀ hid
    · exact ho.idle e he hphase hid

theorem State.Orphan.step (ho : s.Orphan job) (lease : LeaseWf cfg s)
    (hreap : ∀ σ ∈ s.scheds, ∀ k, σ.judging = some k → uuidIn k.2 ≠ some job)
    (hpush : ∀ candidates held pick, a ≠ .sched (.sweepPush (job :: candidates) held) pick)
    (hstep : QueueFlow.step cfg s a = some s') : s'.Orphan job where
  queued := queued_of_step lease ho hreap hstep
  noCopy := noCopy_of_step lease ho hpush hstep
  idle := idle_of_step ho hstep

/-! ## What the pass has still to read -/

/-- Beside the pass only an execution takes an entry off a list. -/
theorem trimmed_cases (hrec : a.recovers s = none) : a.trimmed s = s.redis.processing ∨
    ∃ e, a.letsGo = some e ∧ a.trimmed s = (s.redis.lrem e.worker e.id).processing := by
  have htail {w : WorkerId} (hlast : (KeyedList.last? s.redis.processing w).map (fun id => (w, id)) = none) :
      s.tailTaken w = s.redis.processing := by
    unfold State.tailTaken
    rw [Option.map_eq_none_iff.mp hlast]
  cases a with
  | exec e o =>
    by_cases hpc : e.pc.phase = .finished
    · exact .inr ⟨e, if_pos hpc, if_pos hpc⟩
    · exact .inl (if_neg hpc)
  | execFail e took message random =>
    by_cases hpc : took = true ∧ e.pc = .release
    · exact .inr ⟨e, if_pos hpc, if_pos hpc⟩
    · exact .inl (if_neg hpc)
  | recoverOwn w deadline =>
    unfold Act.recovers at hrec
    unfold Act.trimmed
    dsimp only at hrec ⊢
    split
    case h_1 hp =>
      rw [hp] at hrec
      exact .inl (htail hrec)
    case h_2 => exact .inl rfl
  | sched σ pick =>
    cases σ with
    | reapDrop => cases hrec
    | reapMove key id keys => exact .inl (htail hrec)
    | _ => exact .inl rfl
  | _ => exact .inl rfl

/-- Beside the pass an entry goes only with the execution that lets go of it. -/
theorem entry_of_step (hrec : a.recovers s = none) (hstep : step cfg s a = some s')
    {k : WorkerId × Text} (hmem : k ∈ s.redis.processing) : k ∈ s'.redis.processing ∨
      ∃ e, a.letsGo = some e ∧ k = e.key ∧
        s'.redis.processing = (s.redis.lrem e.worker e.id).processing := by
  rcases step_processing hstep with heq | heq | ⟨w, id, -, heq⟩
  · exact .inl (by rwa [heq])
  · rcases trimmed_cases hrec with htrim | ⟨e, hgo, htrim⟩
    · exact .inl (by rwa [heq, htrim])
    rw [htrim] at heq
    by_cases hsame : k = e.key
    · exact .inr ⟨e, hgo, hsame, heq⟩
    · rw [heq]
      exact .inl (KeyedList.mem_removeLeft_of_ne hmem hsame)
  · rw [heq]
    exact .inl (List.mem_cons_of_mem _ hmem)

/-- A candidate that the pass has still to read is read, or still to be read. -/
theorem toRead_of_step (hok : SparesSweep s a) (hstep : step cfg s a = some s') (hσ : σ ∈ s.scheds)
    (hjob : job ∈ σ.candidates) {w : WorkerId} (hw : w ∈ σ.toRead)
    (hlist : uuidOut job ∈ s.redis.lrange w) :
    uuidOut job ∈ σ.held ∨ ∃ w ∈ σ.toRead, uuidOut job ∈ s'.redis.lrange w := by
  have hmem : (w, uuidOut job) ∈ s.redis.processing := KeyedList.mem_get.mp hlist
  rcases entry_of_step hok.beside.1 hstep hmem with hmem | ⟨e, hgo, hkey, heq⟩
  · exact .inr ⟨w, hw, KeyedList.mem_get.mpr hmem⟩
  · obtain ⟨rfl, hid⟩ := Prod.ext_iff.mp hkey
    have hid : e.id = uuidOut job := hid.symm
    rcases hok.leaves e hgo σ hσ job hjob hid hw (by rw [hid]; exact hlist) with hheld | hleft
    · exact .inl (hid ▸ hheld)
    · obtain ⟨w', hw', hleft⟩ := hleft
      refine .inr ⟨w', hw', ?_⟩
      rw [hid] at hleft
      rw [Redis.lrange, heq, hid]
      exact hleft

/-! ## The pass -/

/-- Every candidate of a pass that has read `pending` is seen, still to be read, or one of the rest. -/
def Sched.Covers (σ : Sched) (s : State) (rest : Uuid → Prop) : Prop :=
  (∀ candidates, σ ≠ .sweepPending candidates) → ∀ job ∈ σ.candidates,
    uuidOut job ∈ σ.held ∨ (∃ w ∈ σ.toRead, uuidOut job ∈ s.redis.lrange w) ∨ rest job

/-- Every candidate of a pass that has read `pending` is seen, still to be read, or an orphan. -/
structure PassWf (s : State) (σ : Sched) : Prop where
  distinct : σ.candidates.Nodup
  covered : (∀ candidates, σ ≠ .sweepPending candidates) → ∀ job ∈ σ.candidates,
    uuidOut job ∈ σ.held ∨ (∃ w ∈ σ.toRead, uuidOut job ∈ s.redis.lrange w) ∨ s.Orphan job

/-- A run with one pass of `sweepOrphans`. -/
structure SweepRun (cfg : Config) (s : State) : Prop where
  lease : LeaseWf cfg s
  key : (s.db.jobs.map (·.id)).Nodup
  single : s.scheds.countP Sched.recovering ≤ 1
  inPass : ∀ σ ∈ s.scheds, σ.recovering = true → σ = .sweepSelect ∨ σ.sweeping = true
  pass : ∀ σ ∈ s.scheds, PassWf s σ

theorem Sched.recovering_of_candidates (h : job ∈ σ.candidates) : σ.recovering = true := by
  cases σ <;> first | rfl | cases h

theorem PassWf.of_rests (h : σ.recovering = false) : PassWf s σ := by
  have hnil : σ.candidates = [] := by
    refine List.eq_nil_iff_forall_not_mem.mpr fun job hjob => ?_
    rw [Sched.recovering_of_candidates hjob] at h
    cases h
  refine ⟨by rw [hnil]; exact List.nodup_nil, fun _ job hjob => ?_⟩
  rw [hnil] at hjob
  cases hjob

/-- The pass takes a step: what it has still to read is read or still to be read, and the rest is
what it was, apart from the candidate that the pass is done with. -/
theorem covers_of_sweep {P Q : Uuid → Prop} (h : sweepOrphans cfg s σ pick = some s')
    (hkey : (s.db.jobs.map (·.id)).Nodup) (hdistinct : σ.candidates.Nodup)
    (hfinds : ∀ candidates, σ = .sweepPending candidates → ∀ job ∈ candidates,
      s.redis.Holds (uuidOut job) ∨ P job)
    (hcovered : σ.Covers s P)
    (hrest : ∀ job, P job → (∀ candidates held, σ ≠ .sweepPush (job :: candidates) held) → Q job) :
    ∃ σ', s'.scheds = Bag.swap s.scheds σ σ' ∧ σ'.candidates.Nodup ∧ σ'.Covers s' Q ∧
      (σ'.recovering = true → σ' = .sweepSelect ∨ σ'.sweeping = true) ∧
      ∀ candidates, σ' = .sweepPending candidates →
        σ = .sweepSelect ∧ candidates = orphanCandidates cfg s := by
  unfold sweepOrphans at h
  split at h
  case h_1 =>
    split at h
    case h_1 =>
      cases h
      exact ⟨_, rfl, List.nodup_nil, fun _ job hjob => absurd hjob List.not_mem_nil, by rintro ⟨⟩,
        by rintro _ ⟨⟩⟩
    case h_2 =>
      cases h
      exact ⟨_, rfl, nodup_orphanCandidates hkey, fun hpc => absurd rfl (hpc _), fun _ => .inr rfl,
        by rintro _ ⟨⟩; exact ⟨rfl, rfl⟩⟩
  case h_2 candidates =>
    cases h
    refine ⟨_, rfl, hdistinct, fun _ job hjob => ?_, fun _ => .inr rfl, by rintro _ ⟨⟩⟩
    rcases hfinds candidates rfl job hjob with hholds | ho
    · rcases Redis.holds_iff.mp hholds with hpending | ⟨w, hlist⟩
      · exact .inl hpending
      · have hkey : w ∈ s.processingKeys := KeyedList.mem_keys.mpr (List.ne_nil_of_mem hlist)
        exact .inr (.inl ⟨w, List.mem_append_left _ hkey, hlist⟩)
    · exact .inr (.inr (hrest job ho (by rintro _ _ ⟨⟩)))
  case h_3 candidates held todo found =>
    have hcovered := hcovered (by rintro _ ⟨⟩)
    split at h
    case h_1 w =>
      obtain ⟨⟨todo', found'⟩, hscan, rfl⟩ := Option.map_eq_some_iff.mp h
      refine ⟨_, rfl, hdistinct, fun _ job hjob => ?_, fun _ => .inr rfl, by rintro _ ⟨⟩⟩
      rcases hcovered job hjob with hheld | ⟨w', hw', hlist⟩ | ho
      · exact .inl hheld
      · have hcovers := scanStep_covers hscan (List.ne_nil_of_mem hlist) (List.mem_append.mp hw')
        exact .inr (.inl ⟨w', List.mem_append.mpr hcovers, hlist⟩)
      · exact .inr (.inr (hrest job ho (by rintro _ _ ⟨⟩)))
    case h_2 =>
      obtain ⟨hnil, heq⟩ := Option.ite_none_right_eq_some.mp h
      cases heq
      refine ⟨_, rfl, hdistinct, fun _ job hjob => ?_, fun _ => .inr rfl, by rintro _ ⟨⟩⟩
      rcases hcovered job hjob with hheld | ⟨w, hw, hlist⟩ | ho
      · exact .inl hheld
      · rw [hnil] at hw
        exact .inr (.inl ⟨w, hw, hlist⟩)
      · exact .inr (.inr (hrest job ho (by rintro _ _ ⟨⟩)))
  case h_4 candidates held =>
    cases h
    refine ⟨_, rfl, hdistinct, fun _ job hjob => ?_, fun _ => .inr rfl, by rintro _ ⟨⟩⟩
    rcases hcovered (by rintro _ ⟨⟩) job hjob with hheld | ⟨w, hw, -⟩ | ho
    · exact .inl hheld
    · cases hw
    · exact .inr (.inr (hrest job ho (by rintro _ _ ⟨⟩)))
  case h_5 candidates held key keys =>
    cases h
    refine ⟨_, rfl, hdistinct, fun _ job hjob => ?_, fun _ => .inr rfl, by rintro _ ⟨⟩⟩
    rcases hcovered (by rintro _ ⟨⟩) job hjob with hheld | ⟨w, hw, hlist⟩ | ho
    · exact .inl (List.mem_append_left _ hheld)
    · rcases List.mem_cons.mp hw with rfl | hw
      · exact .inl (List.mem_append_right _ hlist)
      · exact .inr (.inl ⟨w, hw, hlist⟩)
    · exact .inr (.inr (hrest job ho (by rintro _ _ ⟨⟩)))
  case h_6 =>
    cases h
    exact ⟨_, rfl, List.nodup_nil, fun _ job hjob => absurd hjob List.not_mem_nil, by rintro ⟨⟩,
      by rintro _ ⟨⟩⟩
  case h_7 job candidates held =>
    obtain ⟨hnot, hdistinct⟩ := List.nodup_cons.mp hdistinct
    have hcovers : (Sched.sweepPush candidates held).Covers s' Q := by
      intro _ job' hjob'
      rcases hcovered (by rintro _ ⟨⟩) job' (List.mem_cons_of_mem _ hjob') with hheld | ⟨w, hw, -⟩ | ho
      · exact .inl hheld
      · cases hw
      · refine .inr (.inr (hrest job' ho ?_))
        rintro candidates' held' ⟨⟩
        exact hnot hjob'
    split at h
    all_goals
      cases h
      exact ⟨_, rfl, hdistinct, hcovers, fun _ => .inr rfl, by rintro _ ⟨⟩⟩
  case h_8 => cases h

namespace SweepRun

/-- Nobody is reaping. -/
theorem not_judging (wf : SweepRun cfg s) :
    ∀ σ ∈ s.scheds, ∀ k, σ.judging = some k → uuidIn k.2 ≠ some job := by
  rintro σ hσ ⟨w, id⟩ hjudge
  exfalso
  have hreaping := Sched.reaping_of_judging hjudge
  have hrec := Sched.recovering_of_reaping hreaping
  rcases wf.inPass σ hσ hrec with rfl | hsweep
  · cases hreaping
  · cases σ <;> cases hsweep <;> cases hreaping

/-- A step of another process keeps what the pass has found out. -/
theorem pass_of_step (wf : SweepRun cfg s) (hok : SparesSweep s a) (hstep : step cfg s a = some s')
    (hσ : σ ∈ s.scheds) (hpush : ∀ job ∈ σ.candidates, ∀ candidates held pick,
      a ≠ .sched (.sweepPush (job :: candidates) held) pick) : PassWf s' σ := by
  obtain ⟨hdistinct, hcovered⟩ := wf.pass σ hσ
  refine ⟨hdistinct, fun hpc job hjob => ?_⟩
  rcases hcovered hpc job hjob with hheld | ⟨w, hw, hlist⟩ | horphan
  · exact .inl hheld
  · exact (toRead_of_step hok hstep hσ hjob hw hlist).imp_right .inl
  · exact .inr (.inr (horphan.step wf.lease wf.not_judging (hpush job hjob) hstep))

/-- The pass itself takes a step. -/
theorem own_step (wf : SweepRun cfg s) (hok : SparesSweep s (.sched σ pick)) (hσ : σ ∈ s.scheds)
    (h : sweepOrphans cfg s σ pick = some s') (hstep : step cfg s (.sched σ pick) = some s') :
    ∃ σ', s'.scheds = Bag.swap s.scheds σ σ' ∧ PassWf s' σ' ∧
      (σ'.recovering = true → σ' = .sweepSelect ∨ σ'.sweeping = true) := by
  obtain ⟨hdistinct, hcovered⟩ := wf.pass σ hσ
  obtain ⟨σ', hscheds, hdistinct', hcovers, hin, -⟩ := covers_of_sweep (Q := s'.Orphan) h wf.key
    hdistinct (fun candidates hpc => hok.finds candidates (by rw [hpc]; rfl)) hcovered
    (fun job ho hne => ho.step wf.lease wf.not_judging
      (by rintro candidates held pick' ⟨⟩; exact hne candidates held rfl) hstep)
  exact ⟨σ', hscheds, ⟨hdistinct', hcovers⟩, hin⟩

/-- The schedulers beside the one that moves. -/
private theorem others (wf : SweepRun cfg s) (hok : SparesSweep s a) (hstep : step cfg s a = some s')
    (ha : a.sched? = some σ) (hσ : σ ∈ s.scheds) : ∀ τ ∈ s.scheds.erase σ, PassWf s' τ := by
  intro τ hτ
  by_cases hrec : τ.recovering = true
  · have hrest : σ.recovering = false := by
      by_contra hσrec
      have hcount := Bag.countP_erase_add (p := Sched.recovering) hσ
      have hpos := Bag.countP_pos_of_mem hτ hrec
      have hsingle := wf.single
      rw [Bag.unit, if_pos (Bool.not_eq_false _ ▸ hσrec)] at hcount
      omega
    refine wf.pass_of_step hok hstep (List.mem_of_mem_erase hτ) fun job _ candidates held pick heq => ?_
    rw [heq] at ha
    cases ha
    cases hrest
  · exact .of_rests (Bool.not_eq_true _ ▸ hrec)

private theorem of_swap (wf : SweepRun cfg s) (hok : SparesSweep s a) (hstep : step cfg s a = some s')
    (ha : a.sched? = some σ) (hσ : σ ∈ s.scheds) {σ' : Sched}
    (hscheds : s'.scheds = Bag.swap s.scheds σ σ') (hpass : PassWf s' σ')
    (hin : σ'.recovering = true → σ' = .sweepSelect ∨ σ'.sweeping = true)
    (hrec : σ'.recovering = true → σ.recovering = true) : SweepRun cfg s' where
  lease := wf.lease.step hstep
  key := (changes_of_step hstep).nodup wf.key
  single := by
    have hcount := Bag.countP_swap (p := Sched.recovering) (b := σ') hσ
    have hunit : Bag.unit Sched.recovering σ' ≤ Bag.unit Sched.recovering σ := by
      unfold Bag.unit
      by_cases h : σ'.recovering = true
      · rw [if_pos h, if_pos (hrec h)]
      · rw [if_neg h]
        exact Nat.zero_le _
    have hsingle := wf.single
    rw [hscheds]
    omega
  inPass := by
    rw [hscheds]
    exact List.forall_mem_cons.mpr ⟨hin, fun τ hτ => wf.inPass τ (List.mem_of_mem_erase hτ)⟩
  pass := by
    rw [hscheds]
    exact List.forall_mem_cons.mpr ⟨hpass, wf.others hok hstep ha hσ⟩

private theorem of_erase (wf : SweepRun cfg s) (hok : SparesSweep s a) (hstep : step cfg s a = some s')
    (ha : a.sched? = some σ) (hσ : σ ∈ s.scheds) (hscheds : s'.scheds = s.scheds.erase σ) :
    SweepRun cfg s' where
  lease := wf.lease.step hstep
  key := (changes_of_step hstep).nodup wf.key
  single := by
    rw [hscheds]
    exact List.erase_sublist.countP_le.trans wf.single
  inPass := by
    rw [hscheds]
    exact fun τ hτ => wf.inPass τ (List.mem_of_mem_erase hτ)
  pass := by
    rw [hscheds]
    exact wf.others hok hstep ha hσ

/-- Only schedulers change the schedulers, apart from one that is started. -/
private theorem of_started (wf : SweepRun cfg s) (hok : SparesSweep s a) (hstep : step cfg s a = some s')
    (ha : a.sched? = none) : SweepRun cfg s' := by
  have hold : ∀ σ ∈ s.scheds, PassWf s' σ := by
    refine fun σ hσ => wf.pass_of_step hok hstep hσ fun job _ candidates held pick heq => ?_
    rw [heq] at ha
    cases ha
  have hlease := wf.lease.step hstep
  have hkey := (changes_of_step hstep).nodup wf.key
  rcases scheds_of_step hstep ha with heq | ⟨-, heq⟩
  · exact ⟨hlease, hkey, by rw [heq]; exact wf.single, by rw [heq]; exact wf.inPass,
      by rw [heq]; exact hold⟩
  · exact ⟨hlease, hkey, by rw [heq]; exact wf.single,
      by rw [heq]; exact List.forall_mem_cons.mpr ⟨by rintro ⟨⟩, wf.inPass⟩,
      by rw [heq]; exact List.forall_mem_cons.mpr ⟨.of_rests rfl, hold⟩⟩

theorem step (wf : SweepRun cfg s) (hok : SparesSweep s a)
    (hstep : QueueFlow.step cfg s a = some s') : SweepRun cfg s' := by
  cases a with
  | sched σ pick =>
    obtain ⟨hσ, h⟩ := Option.ite_none_right_eq_some.mp hstep
    by_cases hrec : σ.recovering = true
    · have hsweep : sweepOrphans cfg s σ pick = some s' := by
        rcases wf.inPass σ hσ hrec with rfl | hsweep
        · exact h
        · cases σ <;> cases hsweep <;> exact h
      obtain ⟨σ', hscheds, hpass, hin⟩ := wf.own_step hok hσ hsweep hstep
      exact wf.of_swap hok hstep rfl hσ hscheds hpass hin fun _ => hrec
    · have hnot : σ = .idle → pick ≠ .recover := by
        rintro rfl rfl
        exact hok.beside.2 rfl
      rcases rests_of_schedule (Bool.not_eq_true _ ▸ hrec) h hnot with hscheds | ⟨σ', hscheds, hrest⟩
      · exact wf.of_erase hok hstep rfl hσ hscheds
      · refine wf.of_swap hok hstep rfl hσ hscheds (.of_rests hrest) ?_ ?_ <;> rw [hrest] <;> rintro ⟨⟩
  | schedFail σ =>
    obtain ⟨hσ, h⟩ := Option.ite_none_right_eq_some.mp hstep
    unfold abandonPass at h
    split at h
    · cases h
      exact wf.of_swap hok hstep rfl hσ rfl (.of_rests rfl) (by rintro ⟨⟩) (by rintro ⟨⟩)
    · cases h
  | schedKill σ =>
    obtain ⟨hσ, h⟩ := Option.ite_none_right_eq_some.mp hstep
    cases h
    exact wf.of_erase hok hstep rfl hσ rfl
  | _ => exact wf.of_started hok hstep rfl

/-- What the pass is about to push is an orphan. -/
theorem pushesOrphans (wf : SweepRun cfg s) : s.PushesOrphans := by
  intro job candidates held hσ hheld
  rcases (wf.pass _ hσ).covered (by rintro _ ⟨⟩) job List.mem_cons_self with hin | ⟨w, hw, -⟩ | ho
  · exact absurd hin hheld
  · cases hw
  · exact ⟨ho.queued, ho.noCopy⟩

end SweepRun

/-! ## Every push of a pass -/

/-- The pass begins in some reachable state, with every other scheduler idle or promoting. -/
structure SweepBegins (cfg : Config) (s : State) : Prop where
  reached : Reaches cfg always s
  begins : .sweepSelect ∈ s.scheds
  others : ∀ σ ∈ s.scheds.erase .sweepSelect, σ.recovering = false

theorem SweepBegins.run (h : SweepBegins cfg s) : SweepRun cfg s := by
  obtain ⟨hreached, hbegins, hothers⟩ := h
  have hperm := List.perm_cons_erase hbegins
  have hscheds : ∀ σ ∈ s.scheds, σ = .sweepSelect ∨ σ.recovering = false := fun σ hσ =>
    (List.mem_cons.mp (hperm.mem_iff.mp hσ)).imp_right (hothers σ)
  refine ⟨leaseWf_of_reaches hreached, (changes_of_run hreached).nodup List.nodup_nil, ?_, ?_, ?_⟩
  · rw [hperm.countP_eq, List.countP_cons_of_pos rfl, Bag.countP_eq_zero_of_forall hothers]
  · intro σ hσ hrec
    rcases hscheds σ hσ with rfl | hrest
    · exact .inl rfl
    · rw [hrec] at hrest
      cases hrest
  · intro σ hσ
    rcases hscheds σ hσ with rfl | hrest
    · exact ⟨List.nodup_nil, fun _ job hjob => absurd hjob List.not_mem_nil⟩
    · exact .of_rests hrest

/-- In every run from the beginning of a pass whose steps leave it what it has to find, whatever is
about to be pushed has a row that is 'queued' and no other copy. -/
theorem sweep_pushes_orphans {s₀ : State} (hbegins : SweepBegins cfg s₀)
    (hrun : Run (step cfg) SparesSweep s₀ s) : s.PushesOrphans :=
  (hrun.invariant hbegins.run fun _ _ _ wf hok hstep => wf.step hok hstep).pushesOrphans

end

open Script in
/-- One job has a row and no id, another one is taken and settled while the pass goes on. -/
theorem sweep_pushes_orphans_crashed : ∃ s₀ s, SweepBegins defaults s₀ ∧
    Run (step defaults) SparesSweep s₀ s ∧ (∃ held, .sweepPush [job 1, job 2] held ∈ s.scheds) ∧
      s.HasStatus (job 2) .succeeded ∧ s.HasStatus (job 1) .queued ∧ s.NoCopy (job 1) := by
  have hrun : ∃ s₀ s, Run (step defaults) always .init s₀ ∧
      (.sweepSelect ∈ s₀.scheds ∧ ∀ σ ∈ s₀.scheds.erase .sweepSelect, σ.recovering = false) ∧
      Run (step defaults) SparesSweep s₀ s ∧ (.sweepPush [job 1, job 2] [uuidOut (job 2)] ∈ s.scheds ∧
        uuidOut (job 1) ∉ [uuidOut (job 2)] ∧ s.HasStatus (job 2) .succeeded) :=
    exists_runs_of_play
      (start ['a'] ++ [.act (.request (.submit none)), .api (job 1),
          .act (.apiCrash (.push (.submit none) (uuidOut (job 1))))] ++ submit (job 2) ++
        [.act (.tick 61000000), .act .startSched, .sched .recover, .sched .next, .sched .next])
      (List.replicate 2 (.sched .next) ++ takes ['a'] 8 ++ List.replicate 2 (.sched .next))
      (by decide +kernel)
  obtain ⟨s₀, s, hreached, ⟨hbegins, hothers⟩, hrun, hpush, hheld, hdone⟩ := hrun
  have hsweep := sweep_pushes_orphans ⟨hreached, hbegins, hothers⟩ hrun _ _ _ hpush hheld
  exact ⟨s₀, s, ⟨hreached, hbegins, hothers⟩, hrun, ⟨_, hpush⟩, hdone, hsweep⟩

open Script in
/-- A second scheduler has set the row of a due retry to 'queued' and not pushed its id yet. The sweep
is about to push it as well. -/
theorem sweep_pushes_promoted : ∃ s₀ s, SweepBegins defaults s₀ ∧
    Run (step defaults) BesideSweep s₀ s ∧ ¬ s.PushesOrphans := by
  have hrun : ∃ s₀ s, Run (step defaults) always .init s₀ ∧
      (.sweepSelect ∈ s₀.scheds ∧ ∀ σ ∈ s₀.scheds.erase .sweepSelect, σ.recovering = false) ∧
      Run (step defaults) BesideSweep s₀ s ∧ (.sweepPush [job 1] [] ∈ s.scheds ∧
        .promotePush (uuidOut (job 1)) [] ∈ s.scheds) :=
    exists_runs_of_play
      (start ['a'] ++ submit (job 1) ++ throws ['a'] 3 ++
        [.act (.tick 61000000), .act .startSched, .act .startSched] ++
        List.replicate 3 (.sched .next) ++ [.otherSched .recover, .sched .next, .sched .next])
      (List.replicate 4 (.sched .next)) (by decide +kernel)
  obtain ⟨s₀, s, hreached, ⟨hbegins, hothers⟩, hrun, hpush, hhand⟩ := hrun
  refine ⟨s₀, s, ⟨hreached, hbegins, hothers⟩, hrun, fun hsafe => ?_⟩
  exact (hsafe _ _ _ hpush List.not_mem_nil).2 _ (.promoting _ hhand rfl) (uuidIn_uuidOut _)

end QueueFlow
