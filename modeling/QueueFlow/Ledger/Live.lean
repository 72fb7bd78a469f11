-- SUMMARY: The copies of an id that will still bring its job forward: no step makes a second one unless it recovers something.
import QueueFlow.Ledger.Shifts
import QueueFlow.Rows.Moves

/-!
# Live copies

`Ledger.live` counts the copies of an id that are on their way to a claim, in a claim, or on their
way to the delayed set. A request makes one for a job that has none. Every other command passes
one on or drops it, except those of a recovery.
-/

namespace QueueFlow

open Marking

/-- A copy at this place will still bring the job forward. -/
def Place.isLive : Place → Bool
  | .listed | .finished | .judged | .rescued => false
  | _ => true

theorem Ledger.live_eq (c : Ledger) : c.live = c.tokens.countP Place.isLive := by
  simp only [Ledger.live, Ledger.count]
  induction c.tokens with
  | nil => rfl
  | cons p l ih =>
    rw [List.countP_cons, ← ih]
    cases p <;> simp [Place.isLive] <;> omega

variable {cfg : Config} {s s' t : State} {a : Act} {job : Uuid} {e : Exec} {id : Text} {p : Place}
  {out into : List Place}

/-- The live copies shift with the copies. -/
theorem State.Moved.live (h : s.Moved s' job out into) :
    (s'.ledger job).live + out.countP Place.isLive =
      (s.ledger job).live + into.countP Place.isLive := by
  rw [Ledger.live_eq, Ledger.live_eq]
  exact h.countP _

theorem countP_idAt : (idAt p job id).countP Place.isLive =
    if p.isLive = true ∧ uuidIn id = some job then 1 else 0 := by
  by_cases hid : uuidIn id = some job <;> cases hp : p.isLive <;> simp [idAt, hid, hp]

/-- How many live copies an execution would hold at a point. -/
def Exec.liveAt (job : Uuid) (e : Exec) (pc : ExecPc) : Nat :=
  if pc.phase.place.isLive = true ∧ uuidIn e.id = some job then 1 else 0

theorem Exec.liveAt_le {pc pc' : ExecPc} (h : pc'.phase.place.isLive = true →
    pc.phase.place.isLive = true) : e.liveAt job pc' ≤ e.liveAt job pc := by
  unfold Exec.liveAt
  split
  · rename_i hlive
    rw [if_pos ⟨h hlive.1, hlive.2⟩]
  · exact Nat.zero_le _

theorem Exec.liveAt_eq_one {pc : ExecPc} (hpc : pc.phase.place.isLive = true)
    (hid : uuidIn e.id = some job) : e.liveAt job pc = 1 :=
  if_pos ⟨hpc, hid⟩

theorem Exec.liveAt_finished {pc : ExecPc} (hpc : pc.phase = .finished) : e.liveAt job pc = 0 := by
  simp [Exec.liveAt, hpc, Phase.place, Place.isLive]

theorem live_setExec (job : Uuid) (pc : ExecPc) (he : e ∈ s.execs) :
    ((s.setExec e pc).ledger job).live + e.liveAt job e.pc =
      (s.ledger job).live + e.liveAt job pc := by
  have hshift : s.Moved (s.setExec e pc) job _ _ := State.moved_swapExec he
  have h := hshift.live
  rw [Exec.places, countP_idAt, countP_idAt] at h
  exact h

theorem live_endExec (job : Uuid) (he : e ∈ s.execs) :
    ((s.endExec e).ledger job).live + e.liveAt job e.pc = (s.ledger job).live := by
  have hshift : s.Moved (s.endExec e) job _ _ := State.moved_endExec he
  have h := hshift.live
  rw [Exec.places, countP_idAt, List.countP_nil, Nat.add_zero] at h
  exact h

theorem live_withDb (db : Db) : ((s.withDb db).ledger job).live = (s.ledger job).live := rfl

theorem live_write (u : Uuid) (set : JobRow → JobRow) :
    ((s.write u set).ledger job).live = (s.ledger job).live := rfl

/-! ## Executions -/

private theorem live_setExec_le {pc : ExecPc} (he : e ∈ s.execs)
    (h : pc.phase.place.isLive = true → e.pc.phase.place.isLive = true) :
    ((s.setExec e pc).ledger job).live ≤ (s.ledger job).live := by
  have hset := live_setExec job pc he
  have hle : e.liveAt job pc ≤ e.liveAt job e.pc := Exec.liveAt_le h
  omega

private theorem live_endExec_le (he : e ∈ s.execs) :
    ((s.endExec e).ledger job).live ≤ (s.ledger job).live := by
  have hend := live_endExec job he
  omega

/-- The processing lists hold no live copies. -/
private theorem live_processing (l : List (WorkerId × Text)) :
    ((s.withRedis { s.redis with processing := l }).ledger job).live = (s.ledger job).live := by
  have hzero (l : List (WorkerId × Text)) :
      (l.flatMap fun k => idAt .listed job k.2).countP Place.isLive = 0 := by
    refine Bag.countP_eq_zero_of_forall fun p hp => ?_
    obtain ⟨k, -, hp⟩ := List.mem_flatMap.mp hp
    rw [(mem_idAt.mp hp).1]
    rfl
  simp only [Ledger.live_eq, State.ledger, State.tokens, List.countP_append, hzero]
  rfl

/-- A `ZADD` makes a live copy at most of the job that it names. -/
private theorem live_zadd {job' : Uuid} (runAt : Nat) :
    ((s.withRedis (s.redis.zadd runAt (uuidOut job'))).ledger job).live ≤
      (s.ledger job).live + if job' = job then 1 else 0 := by
  by_cases hjob : job' = job
  · subst hjob
    have hshift : s.Moved (s.withRedis (s.redis.zadd runAt (uuidOut job'))) job' _ _ := State.moved_zadd
    have h := hshift.live
    rw [List.countP_nil, Nat.add_zero] at h
    rw [h, if_pos rfl]
    refine Nat.add_le_add_left ?_ _
    split <;> decide
  · have hshift : s.Moved (s.withRedis (s.redis.zadd runAt (uuidOut job'))) job _ _ :=
      State.moved_zadd_ne hjob
    have h := hshift.live
    rw [if_neg hjob]
    simpa using h.le

private theorem live_zadd_done {h : Holding} {runAt : Nat} (lease : LeaseWf cfg s) (he : e ∈ s.execs)
    (hpc : e.pc = .zadd h runAt) :
    ((s.withRedis (s.redis.zadd runAt (uuidOut h.job))).ledger job).live ≤
      (s.ledger job).live + e.liveAt job e.pc := by
  refine (live_zadd runAt).trans (Nat.add_le_add_left ?_ _)
  have hid := lease.named e he h.job (by rw [hpc]; rfl)
  split
  · rename_i hjob
    rw [Exec.liveAt_eq_one (by rw [hpc]; rfl) (hjob ▸ hid)]
  · exact Nat.zero_le _

/-- No command of an execution makes a live copy. -/
theorem live_of_execMove (lease : LeaseWf cfg s) (he : e ∈ s.execs) (h : ExecMove cfg s e s') :
    (s'.ledger job).live ≤ (s.ledger job).live := by
  have htaken {pc : ExecPc} (hpc : e.pc.phase = .taken) :
      pc.phase.place.isLive = true → e.pc.phase.place.isLive = true := by
    rw [hpc]
    exact fun _ => rfl
  have howning {pc : ExecPc} {hold : Holding} (hpc : e.pc.phase = .owning hold) :
      pc.phase.place.isLive = true → e.pc.phase.place.isLive = true := by
    rw [hpc]
    exact fun _ => rfl
  cases h with
  | letGo =>
      exact (live_endExec_le (s := s.withRedis (s.redis.lrem e.worker e.id)) he).trans
        (live_processing _).le
  | rejected => exact live_endExec_le he
  | found _ _ hpc | missing _ hpc | notClaimable _ _ hpc =>
      exact live_setExec_le he (htaken (by rw [hpc]; rfl))
  | claimed job' _ _ hpc =>
      exact live_setExec_le (s := s.claim e job') he (htaken (by rw [hpc]; rfl))
  | work _ _ hpc | fenced _ hpc => exact live_setExec_le he (howning hpc)
  | lock _ _ _ hpc | unowned _ _ hpc | insert _ _ hpc =>
      exact live_setExec_le he (howning (by rw [hpc]; rfl))
  | settled h began hpc =>
      exact live_setExec_le (s := s.settle e h began) he (howning (by rw [hpc]; rfl))
  | buried h message _ hpc =>
      exact live_setExec_le (s := s.write h.job (.buried message s.now)) he
        (howning (by rw [hpc]; rfl))
  | parked h message runAt _ hpc =>
      exact live_setExec_le (s := s.write h.job (.parked message runAt)) he
        (howning (by rw [hpc]; rfl))
  | zadded h runAt hpc =>
      have hset := live_setExec (s := s.withRedis (s.redis.zadd runAt (uuidOut h.job))) job .release he
      have hle : _ ≤ (s.ledger job).live + _ := live_zadd_done lease he hpc
      rw [show e.liveAt job .release = 0 from Exec.liveAt_finished rfl] at hset
      omega

theorem live_of_failMove {took : Bool} (lease : LeaseWf cfg s) (he : e ∈ s.execs)
    (h : FailMove cfg s e took s') : (s'.ledger job).live ≤ (s.ledger job).live := by
  have howning {pc : ExecPc} {hold : Holding} (hpc : e.pc.phase = .owning hold) :
      pc.phase.place.isLive = true → e.pc.phase.place.isLive = true := by
    rw [hpc]
    exact fun _ => rfl
  cases h with
  | lost => exact live_endExec_le he
  | released =>
      exact (live_endExec_le (s := s.withRedis (s.redis.lrem e.worker e.id)) he).trans
        (live_processing _).le
  | claimed job' => exact live_endExec_le (s := s.claim e job') he
  | caught _ _ hpc => exact live_setExec_le he (howning hpc)
  | settled h began _ _ hpc =>
      exact live_setExec_le (s := s.settle e h began) he (howning (by rw [hpc]; rfl))
  | buried h message => exact live_endExec_le (s := s.write h.job (.buried message s.now)) he
  | parked h message runAt => exact live_endExec_le (s := s.write h.job (.parked message runAt)) he
  | zadded h runAt hpc =>
      have hend := live_endExec (s := s.withRedis (s.redis.zadd runAt (uuidOut h.job))) job he
      have hle : _ ≤ (s.ledger job).live + _ := live_zadd_done lease he hpc
      omega

/-! ## The other programs -/

/-- The job has no row yet, or is dead: only a request brings it forward. -/
def State.Over (s : State) (job : Uuid) : Prop := ∀ r, s.db.row job = some r → r.status = .dead

theorem State.not_over {r : JobRow} (hrow : s.db.row job = some r) (h : r.status ≠ .dead) :
    ¬ s.Over job := fun hover => h (hover r hrow)

/-- The scheduler's next command puts no entry of a list, and no orphan, back into circulation. -/
def Sched.Undisturbing : Sched → Prop
  | .reapBury _ _ _ | .reapRequeue _ _ _ | .reapMove _ _ _ => False
  | .sweepPush (job :: _) held => uuidOut job ∈ held
  | _ => True

instance (σ : Sched) : Decidable σ.Undisturbing := by
  induction σ using Sched.casesOn with
  | reapBury | reapRequeue | reapMove => exact .isFalse not_false
  | sweepPush candidates =>
      induction candidates using List.casesOn with
      | nil => exact .isTrue trivial
      | cons => exact inferInstanceAs (Decidable (_ ∈ _))
  | _ => exact .isTrue trivial

private theorem countP_sched {σ : Sched} : (σ.places job).countP Place.isLive =
    match σ with
    | .promoteUpdate id _ | .promotePush id _ => if uuidIn id = some job then 1 else 0
    | _ => 0 := by
  cases σ <;> simp only [Sched.places, countP_idAt, List.countP_nil] <;> simp [Place.isLive]

theorem live_of_schedMove {σ : Sched} (canonical : s.Canonical) (hσ : σ ∈ s.scheds)
    (hok : σ.Undisturbing) (h : SchedMove s σ s') :
    (s'.ledger job).live ≤ (s.ledger job).live := by
  have hset (t : State) (σ' : Sched) (ht : σ ∈ t.scheds) :
      ((t.setSched σ σ').ledger job).live + (σ.places job).countP Place.isLive =
        (t.ledger job).live + (σ'.places job).countP Place.isLive :=
    State.Moved.live (State.moved_setSched ht)
  have hrests (σ' : Sched) (hσ' : (σ'.places job).countP Place.isLive = 0) :
      ((s.setSched σ σ').ledger job).live ≤ (s.ledger job).live := by
    have := hset s σ' hσ
    omega
  cases h with
  | quiet σ' _ hhand =>
      refine hrests _ ?_
      rw [countP_sched]
      cases σ' <;> first | rfl | cases hhand
  | check | peek | junk | emptied => exact hrests _ countP_sched
  | select key id keys u =>
      refine hrests _ ?_
      rcases judge_cases key id keys (s.db.row u) with
        ⟨heq, -⟩ | ⟨r, -, -, -, ⟨heq, -⟩ | ⟨heq, -⟩⟩ <;> rw [heq] <;> exact countP_sched
  | removed id due hpc hdue =>
      have hshift : s.Moved (s.withRedis (s.redis.zrem id)) job _ _ := State.moved_zrem canonical hdue
      have hzrem := hshift.live
      have hmove := hset (s.withRedis (s.redis.zrem id)) (.promoteUpdate id due) hσ
      subst hpc
      rw [countP_idAt] at hzrem
      rw [countP_sched, countP_sched] at hmove
      simp [Place.isLive] at hzrem hmove
      omega
  | promoted id due u hpc =>
      have hmove := hset (s.write u .promoted) (.promotePush id due) hσ
      subst hpc
      rw [countP_sched, countP_sched] at hmove
      exact (Nat.add_right_cancel hmove).le
  | crashed =>
      have hshift : s.Moved (s.endSched σ) job _ _ := State.moved_endSched hσ
      have hend := hshift.live
      rw [List.countP_nil] at hend
      omega
  | pushed id due hpc =>
      have hshift : s.Moved (s.withRedis (s.redis.lpush id)) job _ _ := State.moved_lpush
      have hpush := hshift.live
      have hmove := hset (s.withRedis (s.redis.lpush id)) (.promoting due) hσ
      subst hpc
      rw [countP_idAt] at hpush
      rw [countP_sched, countP_sched] at hmove
      simp [Place.isLive] at hpush hmove
      omega
  | dropped key id keys hpc =>
      have hmove := hset (s.withRedis (s.redis.lremTail key id)) (.reapPeek key keys) hσ
      have hlrem : _ = (s.ledger job).live :=
        live_processing (KeyedList.removeRight s.redis.processing key id)
      subst hpc
      rw [countP_sched, countP_sched] at hmove
      exact hmove.le.trans hlrem.le
  | buried _ _ _ _ hpc | requeued _ _ _ _ hpc | moved _ _ _ _ hpc =>
      subst hpc
      cases hok
  | swept _ _ _ hpc hheld =>
      subst hpc
      exact absurd hok hheld

private theorem countP_api {x : Api} : (x.places job).countP Place.isLive =
    match x with
    | .push _ id => if uuidIn id = some job then 1 else 0
    | _ => 0 := by
  cases x <;> simp only [Api.places, countP_idAt, List.countP_nil]
  simp [Place.isLive]

/-- A request makes a live copy when it inserts the row or sets it back, and of no other job. -/
theorem live_of_apiMove {x : Api} (hx : x ∈ s.apis) (h : ApiMove s x s') :
    (s'.ledger job).live ≤ (s.ledger job).live ∨
      (s'.ledger job).live ≤ (s.ledger job).live + 1 ∧ s.Over job ∧ ¬ s'.Over job := by
  have hset (t : State) (x' : Api) (ht : x ∈ t.apis) :
      ((t.setApi x x').ledger job).live + (x.places job).countP Place.isLive =
        (t.ledger job).live + (x'.places job).countP Place.isLive :=
    State.Moved.live (State.moved_setApi ht)
  have hend (t : State) (req : Request) (code : Nat) (body : Body) (ht : x ∈ t.apis) :
      ((t.respond x req code body).ledger job).live + (x.places job).countP Place.isLive =
        (t.ledger job).live := by
    simpa only [List.countP_nil, Nat.add_zero] using State.Moved.live (State.moved_respond ht)
  cases h with
  | turned x' _ hhand =>
      have hmove := hset s x' hx
      have hzero : (x'.places job).countP Place.isLive = 0 := by
        rw [countP_api]
        cases x' <;> first | rfl | cases hhand
      omega
  | answered req code body =>
      have hmove := hend s req code body hx
      omega
  | inserted key new hpc _ hrow =>
      have hmove := hset (s.withDb (s.db.insertJob (.inserted new key s.now)))
        (.push (.submit key) (uuidOut new)) hx
      subst hpc
      simp only [countP_api, uuidIn_uuidOut, live_withDb, Option.some.injEq] at hmove
      by_cases hjob : new = job
      · subst hjob
        rw [if_pos rfl] at hmove
        have hnew := (Db.row_insertJob (r := .inserted new key s.now) hrow).trans (if_pos rfl)
        have hover : s.Over new := fun r hr => by
          rw [hrow] at hr
          cases hr
        exact .inr ⟨hmove.le, hover, State.not_over hnew nofun⟩
      · rw [if_neg hjob] at hmove
        exact .inl hmove.le
  | replayed id u r hpc hid _ hrow hdead =>
      have hmove := hset (s.write u .replayed) (.push (.replay id) id) hx
      subst hpc
      simp only [countP_api, hid, live_write, Option.some.injEq] at hmove
      by_cases hjob : u = job
      · subst hjob
        rw [if_pos rfl] at hmove
        have hnew := Db.row_updateRow_self Db.keepsId_replayed hrow
        exact .inr ⟨hmove.le, fun r' hr' => Option.some.inj (hrow.symm.trans hr') ▸ hdead,
          State.not_over hnew nofun⟩
      · rw [if_neg hjob] at hmove
        exact .inl hmove.le
  | pushed req id hpc =>
      have hshift : s.Moved (s.withRedis (s.redis.lpush id)) job _ _ := State.moved_lpush
      have hpush := hshift.live
      have hmove := hend (s.withRedis (s.redis.lpush id)) req 202 (.queued id) hx
      subst hpc
      rw [countP_idAt] at hpush
      rw [countP_api] at hmove
      simp [Place.isLive] at hpush hmove
      omega

/-- A worker that takes an entry has it in hand instead. -/
theorem live_of_take {w : WorkerId} (h : take s w = some s') :
    (s'.ledger job).live ≤ (s.ledger job).live := by
  obtain ⟨c, rest, id, -, hpending, rfl⟩ := take_cases h
  have hshift : s.Moved (s.withRedis _) job _ _ := State.moved_blmove (w := w) hpending
  have hmove := hshift.live
  generalize s.withRedis { s.redis with
    pending := rest, processing := KeyedList.pushLeft s.redis.processing w id } = t at hmove ⊢
  have hshift' : t.Moved (t.addExec ⟨w, id, if isUuid id then .select else .discard⟩) job _ _ :=
    State.moved_addExec
  have hadd := hshift'.live
  have hle : (Exec.places job ⟨w, id, if isUuid id then .select else .discard⟩).countP Place.isLive ≤
      (idAt .pending job id).countP Place.isLive := by
    rw [Exec.places, countP_idAt, countP_idAt]
    by_cases hid : uuidIn id = some job <;> simp [hid]
    split <;> decide
  rw [countP_idAt (p := .listed)] at hmove
  simp [Place.isLive] at hmove hadd
  omega

/-! ## Undisturbed runs -/

/-- No worker is killed, and nothing that was left behind is put back into circulation. -/
def Undisturbed (s : State) : Act → Prop
  | .kill _ => False
  | .recoverOwn w _ =>
      match s.procs w with
      | .starting (.reset _) _ | .starting .moveAll _ => False
      | _ => True
  | .sched σ _ => σ.Undisturbing
  | _ => True

instance (s : State) (a : Act) : Decidable (Undisturbed s a) := by
  induction a using Act.casesOn with
  | kill => exact .isFalse not_false
  | recoverOwn w =>
      change Decidable (match s.procs w with
        | .starting (.reset _) _ | .starting .moveAll _ => False
        | _ => True)
      induction s.procs w using Proc.casesOn with
      | starting pc =>
          induction pc using StartPc.casesOn with
          | reset | moveAll => exact .isFalse not_false
          | _ => exact .isTrue trivial
      | _ => exact .isTrue trivial
  | sched σ => exact inferInstanceAs (Decidable σ.Undisturbing)
  | _ => exact .isTrue trivial

/-- A live copy more, at most, and only for a job that was over. -/
theorem live_of_step (job : Uuid) (lease : LeaseWf cfg s) (canonical : s.Canonical) (hok : Undisturbed s a)
    (h : step cfg s a = some s') : (s'.ledger job).live ≤ (s.ledger job).live ∨
      (s'.ledger job).live ≤ (s.ledger job).live + 1 ∧ s.Over job ∧ ¬ s'.Over job := by
  cases a with
  | tick => cases h; exact .inl (Nat.le_refl _)
  | request req =>
      cases h
      have hshift : s.Moved (s.addApi req.start) job _ _ := State.moved_addApi
      have hadd := hshift.live
      have hzero : (req.start.places job).countP Place.isLive = 0 := by
        rw [countP_api]
        cases req <;> rfl
      rw [List.countP_nil, hzero] at hadd
      exact .inl hadd.le
  | startSched =>
      cases h
      have hshift : s.Moved (s.addSched .idle) job _ _ := State.moved_addSched
      have hadd := hshift.live
      rw [List.countP_nil, countP_sched] at hadd
      exact .inl hadd.le
  | api =>
      obtain ⟨hx, h⟩ := Option.ite_none_right_eq_some.mp h
      exact live_of_apiMove hx (handle_cases h)
  | apiCrash x =>
      obtain ⟨hx, h⟩ := Option.ite_none_right_eq_some.mp h
      cases h
      have hshift : s.Moved (s.endApi x) job _ _ := State.moved_endApi hx
      have hend := hshift.live
      rw [List.countP_nil] at hend
      exact .inl (by omega)
  | spawn =>
      obtain ⟨-, -, rfl⟩ := spawn_cases h
      exact .inl (Nat.le_refl _)
  | recoverOwn =>
      left
      cases recoverOwnProcessing_cases h with
      | reset _ _ hp | moved _ _ hp => simp [Undisturbed, hp] at hok
      | wait | refrain | proceed | nothing | read | done | beat => exact Nat.le_refl _
  | beat =>
      obtain ⟨-, rfl⟩ := beat_cases h
      exact .inl (Nat.le_refl _)
  | expire =>
      cases expire_cases h
      exact .inl (Nat.le_refl _)
  | take => exact .inl (live_of_take h)
  | exec =>
      obtain ⟨he, h⟩ := Option.ite_none_right_eq_some.mp h
      exact .inl (live_of_execMove lease he (processOne_cases h))
  | execFail =>
      obtain ⟨he, h⟩ := Option.ite_none_right_eq_some.mp h
      exact .inl (live_of_failMove lease he (fails_cases h))
  | kill => cases hok
  | sched =>
      obtain ⟨hσ, h⟩ := Option.ite_none_right_eq_some.mp h
      exact .inl (live_of_schedMove canonical hσ hok (schedule_cases h))
  | schedFail σ =>
      obtain ⟨hσ, h⟩ := Option.ite_none_right_eq_some.mp h
      unfold abandonPass at h
      split at h <;> cases h
      have hshift : s.Moved (s.setSched σ .idle) job _ [] := State.moved_setSched hσ
      have hset := hshift.live
      rw [List.countP_nil] at hset
      exact .inl (by omega)
  | schedKill σ =>
      obtain ⟨hσ, h⟩ := Option.ite_none_right_eq_some.mp h
      cases h
      have hshift : s.Moved (s.endSched σ) job _ _ := State.moved_endSched hσ
      have hend := hshift.live
      rw [List.countP_nil] at hend
      exact .inl (by omega)

/-- An owner that buries its job has nothing left to do about it. -/
theorem live_of_bury {h : Holding} {message : Text} (lease : LeaseWf cfg s) (he : e ∈ s.execs)
    (ha : a.effective? = some e) (hpc : e.pc = .bury h message) (hstep : step cfg s a = some s') :
    (s'.ledger h.job).live < (s.ledger h.job).live := by
  have hone : e.liveAt h.job e.pc = 1 :=
    Exec.liveAt_eq_one (by rw [hpc]; rfl) (lease.named e he h.job (by rw [hpc]; rfl))
  have hset (t : State) (ht : e ∈ t.execs) :
      ((t.setExec e .release).ledger h.job).live + 1 = (t.ledger h.job).live := by
    have hset := live_setExec h.job .release ht
    rwa [hone, show e.liveAt h.job .release = 0 from Exec.liveAt_finished rfl] at hset
  have hend (t : State) (ht : e ∈ t.execs) :
      ((t.endExec e).ledger h.job).live + 1 = (t.ledger h.job).live := by
    have hend := live_endExec h.job ht
    rwa [hone] at hend
  have hwrite : ((s.write h.job (.buried message s.now)).ledger h.job).live =
      (s.ledger h.job).live := live_write _ _
  cases a with
  | exec =>
      cases ha
      obtain ⟨-, hstep⟩ := Option.ite_none_right_eq_some.mp hstep
      simp only [processOne, hpc] at hstep
      split at hstep
      · cases hstep
      · split at hstep <;> cases hstep
        · have := hset s he
          omega
        · have := hset (s.write h.job (.buried message s.now)) he
          omega
  | execFail e' took =>
      cases took <;> cases ha
      obtain ⟨-, hstep⟩ := Option.ite_none_right_eq_some.mp hstep
      simp only [fails, hpc, if_true] at hstep
      split at hstep
      · cases hstep
      · split at hstep <;> cases hstep
        · have := hend s he
          omega
        · have := hend (s.write h.job (.buried message s.now)) he
          omega
  | _ => cases ha

/-- In an undisturbed run only its owner ends a job. -/
theorem over_of_step (lease : LeaseWf cfg s) (hok : Undisturbed s a) (h : step cfg s a = some s')
    (hover : s'.Over job) : s.Over job ∨ ∃ e hold message, e ∈ s.execs ∧ a.effective? = some e ∧
      e.pc = .bury hold message ∧ hold.job = job := by
  by_cases hwas : s.Over job
  · exact .inl hwas
  right
  simp only [State.Over, not_forall] at hwas
  obtain ⟨r, hrow, hlives⟩ := hwas
  obtain ⟨r', hrow', hmove⟩ := rowMove_of_step lease h hrow
  have hdead' := hover r' hrow'
  cases hmove with
  | buried e hold message he ha hpc hjob => exact ⟨e, hold, message, he, ha, hpc, hjob⟩
  | same => exact absurd hdead' hlives
  | reapBuried key id keys pick hσ ha =>
      subst ha
      cases hok
  | replayed | claimed | settled | parked | promoted | reapRequeued | reset => cases hdead'

/-- One live copy at most, and none of a job that is over. -/
def LiveWf (s : State) : Prop :=
  ∀ job, (s.ledger job).live ≤ 1 ∧ (s.Over job → (s.ledger job).live = 0)

namespace LiveWf

theorem init : LiveWf .init := fun _ => ⟨Nat.zero_le 1, fun _ => rfl⟩

theorem step (wf : LiveWf s) (lease : LeaseWf cfg s) (canonical : s.Canonical)
    (hok : Undisturbed s a) (h : QueueFlow.step cfg s a = some s') : LiveWf s' := by
  intro job
  obtain ⟨hone, hzero⟩ := wf job
  rcases live_of_step job lease canonical hok h with hle | ⟨hle, hover, hnot⟩
  · refine ⟨hle.trans hone, fun hover' => ?_⟩
    rcases over_of_step lease hok h hover' with hover | ⟨e, hold, message, he, ha, hpc, rfl⟩
    · have := hzero hover
      omega
    · have := live_of_bury lease he ha hpc h
      omega
  · have := hzero hover
    exact ⟨by omega, fun hover' => absurd hover' hnot⟩

end LiveWf

end QueueFlow
