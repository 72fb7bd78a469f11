-- SUMMARY: What one step of the system does to the database and to the processing lists, whoever takes it.
import QueueFlow.System
import QueueFlow.Worker.Moves
import QueueFlow.Scheduler.Moves
import QueueFlow.Api.Moves

/-!
# Frames

`DbMove` lists the statements that change the database, each with the command that
issues it; any other step leaves the database as it is. `step_processing` does the
same for the processing lists.
-/

namespace QueueFlow

/-! ## The database -/

/-- The statements that change the database, and with it the history of claims. -/
inductive DbMove (cfg : Config) (s : State) (a : Act) : Db → List Claim → Prop where
  | same : DbMove cfg s a s.db s.claims
  | inserted (key : Option Text) (g generated : Uuid) (ha : a = .api (.insert key) g)
      (hrow : s.db.row generated = none) :
      DbMove cfg s a (s.db.insertJob (.inserted generated key s.now)) s.claims
  | replayed (id : Text) (job g : Uuid) (r : JobRow) (ha : a = .api (.replay id) g)
      (hid : uuidIn id = some job) (hrow : s.db.row job = some r) (hdead : r.status = .dead) :
      DbMove cfg s a (s.db.updateRow job .replayed) s.claims
  | claimed (e : Exec) (job : Uuid) (m : Nat) (r : JobRow) (he : e ∈ s.execs)
      (ha : a.exec? = some e) (hpc : e.pc = .claim job m) (hfree : s.locked job = false)
      (hrow : s.claimableRow job = some r) :
      DbMove cfg s a (s.db.claim job s.now) (⟨job, s.db.nextLease, e.worker, e.id⟩ :: s.claims)
  | settled (e : Exec) (h : Holding) (began : Nat) (he : e ∈ s.execs) (ha : a.exec? = some e)
      (hpc : e.pc = .txCommit h began) :
      DbMove cfg s a ((s.db.updateRow h.job (.succeeded began)).insertEffect
        ⟨h.job, e.worker, began⟩) s.claims
  | buried (e : Exec) (h : Holding) (message : Text) (r : JobRow) (he : e ∈ s.execs)
      (ha : a.exec? = some e) (hpc : e.pc = .bury h message) (hrow : s.ownRow cfg h = some r) :
      DbMove cfg s a (s.db.updateRow h.job (.buried message s.now)) s.claims
  | parked (e : Exec) (h : Holding) (message : Text) (runAt : Nat) (r : JobRow) (he : e ∈ s.execs)
      (ha : a.exec? = some e) (hpc : e.pc = .park h message runAt)
      (hrow : s.ownRow cfg h = some r) :
      DbMove cfg s a (s.db.updateRow h.job (.parked message runAt)) s.claims
  | promoted (id : Text) (due : List Text) (job : Uuid) (pick : Pick)
      (hσ : .promoteUpdate id due ∈ s.scheds) (ha : a = .sched (.promoteUpdate id due) pick)
      (hid : uuidIn id = some job) : DbMove cfg s a (s.db.updateRow job .promoted) s.claims
  | reapBuried (key : WorkerId) (id : Text) (keys : List WorkerId) (job : Uuid) (pick : Pick)
      (hσ : .reapBury key id keys ∈ s.scheds) (ha : a = .sched (.reapBury key id keys) pick)
      (hid : uuidIn id = some job) :
      DbMove cfg s a (s.db.updateRow job (.buried (stoppedResponding key) s.now)) s.claims
  | reapRequeued (key : WorkerId) (id : Text) (keys : List WorkerId) (job : Uuid) (pick : Pick)
      (hσ : .reapRequeue key id keys ∈ s.scheds) (ha : a = .sched (.reapRequeue key id keys) pick)
      (hid : uuidIn id = some job) : DbMove cfg s a (s.db.updateRow job .requeued) s.claims
  | reset (w : WorkerId) (c : Nat) (stranded : List Text) (deadline : Bool)
      (ha : a = .recoverOwn w deadline) (hp : s.procs w = .starting (.reset stranded) c) :
      DbMove cfg s a (s.db.update (strandedRow stranded) .requeued) s.claims

variable {cfg : Config} {s s' : State} {a : Act} {job : Uuid}

private theorem execMove_db {e : Exec} (he : e ∈ s.execs) (ha : a.exec? = some e)
    (h : ExecMove cfg s e s') : DbMove cfg s a s'.db s'.claims := by
  cases h with
  | claimed job m r hpc hfree hrow => exact .claimed e job m r he ha hpc hfree hrow
  | settled h began hpc => exact .settled e h began he ha hpc
  | buried h message r hpc _ hrow => exact .buried e h message r he ha hpc hrow
  | parked h message runAt r hpc _ hrow => exact .parked e h message runAt r he ha hpc hrow
  | letGo | rejected | found | missing | notClaimable | work | lock | unowned | insert | fenced
  | zadded => exact .same

private theorem failMove_db {e : Exec} {took : Bool} (he : e ∈ s.execs) (ha : a.exec? = some e)
    (h : FailMove cfg s e took s') : DbMove cfg s a s'.db s'.claims := by
  cases h with
  | claimed job m r hpc hfree hrow => exact .claimed e job m r he ha hpc hfree hrow
  | settled h began _ _ hpc => exact .settled e h began he ha hpc
  | buried h message r hpc _ hrow => exact .buried e h message r he ha hpc hrow
  | parked h message runAt r hpc _ hrow => exact .parked e h message runAt r he ha hpc hrow
  | lost | released | caught | zadded => exact .same

private theorem schedMove_db {σ : Sched} {pick : Pick} (hσ : σ ∈ s.scheds)
    (h : SchedMove s σ s') (ha : a = .sched σ pick) : DbMove cfg s a s'.db s'.claims := by
  cases h with
  | promoted id due job hpc hid => subst hpc; exact .promoted id due job pick hσ ha hid
  | buried key id keys job hpc hid =>
      subst hpc; exact .reapBuried key id keys job pick hσ ha hid
  | requeued key id keys job hpc hid =>
      subst hpc; exact .reapRequeued key id keys job pick hσ ha hid
  | quiet | removed | crashed | pushed | check | peek | junk | select | dropped | moved | emptied
  | swept => exact .same

/-- Every step changes the database by one of these statements or not at all. -/
theorem db_cases (h : step cfg s a = some s') : DbMove cfg s a s'.db s'.claims := by
  cases a with
  | tick | request | startSched => cases h; exact .same
  | api a g =>
      obtain ⟨-, h⟩ := Option.ite_none_right_eq_some.mp h
      cases handle_cases h with
      | inserted key generated hpc _ hrow => subst hpc; exact .inserted key g generated rfl hrow
      | replayed id job r hpc hid _ hrow hdead =>
          subst hpc; exact .replayed id job g r rfl hid hrow hdead
      | turned | answered | pushed => exact .same
  | apiCrash | schedKill =>
      obtain ⟨-, h⟩ := Option.ite_none_right_eq_some.mp h
      cases h
      exact .same
  | spawn =>
      obtain ⟨-, -, rfl⟩ := spawn_cases h
      exact .same
  | recoverOwn w deadline =>
      cases recoverOwnProcessing_cases h with
      | reset c stranded hp => exact .reset w c stranded deadline rfl hp
      | wait | refrain | proceed | nothing | read | moved | done | beat => exact .same
  | beat =>
      obtain ⟨-, rfl⟩ := beat_cases h
      exact .same
  | expire =>
      cases expire_cases h
      exact .same
  | take =>
      obtain ⟨c, rest, id, -, -, rfl⟩ := take_cases h
      exact .same
  | exec e =>
      obtain ⟨he, h⟩ := Option.ite_none_right_eq_some.mp h
      exact execMove_db he rfl (processOne_cases h)
  | execFail e =>
      obtain ⟨he, h⟩ := Option.ite_none_right_eq_some.mp h
      exact failMove_db he rfl (fails_cases h)
  | kill =>
      cases kill_cases h
      exact .same
  | sched σ pick =>
      obtain ⟨hσ, h⟩ := Option.ite_none_right_eq_some.mp h
      exact schedMove_db hσ (schedule_cases h) rfl
  | schedFail σ =>
      obtain ⟨-, h⟩ := Option.ite_none_right_eq_some.mp h
      unfold abandonPass at h
      split at h
      · cases h; exact .same
      · cases h

/-- A row that has a status after an UPDATE that never sets it had it before. -/
theorem row_of_row_update {db : Db} {whr : JobRow → Bool} {set : JobRow → JobRow} {r : JobRow}
    {P : JobRow → Prop} (hid : Db.KeepsId set) (hset : ∀ r, ¬ P (set r))
    (hrow : (db.update whr set).row job = some r) (hP : P r) : db.row job = some r := by
  rw [Db.row_update hid] at hrow
  obtain ⟨r₀, hrow₀, rfl⟩ := Option.map_eq_some_iff.mp hrow
  split at hP
  · exact absurd hP (hset r₀)
  · rename_i hno
    simpa [hno] using hrow₀

/-- The job that a claim takes. -/
def Act.claims? (s : State) (a : Act) : Option Uuid :=
  match a.exec?.map (·.pc) with
  | some (ExecPc.claim job _) => if (s.claimableRow job).isSome then some job else none
  | _ => none

/-- Only a claim makes a row 'running', and with a lease of its own. -/
theorem running_cases {r : JobRow} (h : step cfg s a = some s') (hrow : s'.db.row job = some r)
    (hrun : r.status = .running) : s.db.row job = some r ∨
      ∃ e m, e ∈ s.execs ∧ a.exec? = some e ∧ e.pc = .claim job m ∧
        (s.claimableRow job).isSome = true ∧ r.leaseId = some s.db.nextLease ∧
          s'.claims = ⟨job, s.db.nextLease, e.worker, e.id⟩ :: s.claims := by
  have hupdate : ∀ {whr set}, Db.KeepsId set → (∀ r, ¬ (set r).status = .running) →
      (s.db.update whr set).row job = some r → s.db.row job = some r := fun hid hset hrow =>
    row_of_row_update (P := fun r => r.status = .running) hid hset hrow hrun
  have hdb := db_cases h
  generalize s'.db = db at hdb hrow
  generalize s'.claims = claims at hdb
  cases hdb with
  | same => exact .inl hrow
  | inserted key g generated _ hnew =>
      rw [Db.row_insertJob hnew] at hrow
      split at hrow
      · cases hrow; cases hrun
      · exact .inl hrow
  | claimed e job' m r' he ha hpc hfree hrow' =>
      by_cases hne : job = job'
      · subst hne
        rw [Db.row_claim, Db.row_updateRow_self (Db.keepsId_claimed _ _)
          (State.claimableRow_some hrow').1] at hrow
        cases hrow
        exact .inr ⟨e, m, he, ha, hpc, by rw [hrow']; rfl, rfl, rfl⟩
      · rw [Db.row_claim, Db.row_updateRow_ne (Db.keepsId_claimed _ _) hne] at hrow
        exact .inl hrow
  | settled e h began => exact .inl (hupdate (Db.keepsId_succeeded began) (fun _ => nofun) hrow)
  | buried e h message | reapBuried key =>
      exact .inl (hupdate (Db.keepsId_buried _ _) (fun _ => nofun) hrow)
  | parked e h message runAt => exact .inl (hupdate (Db.keepsId_parked _ _) (fun _ => nofun) hrow)
  | promoted => exact .inl (hupdate Db.keepsId_promoted (fun _ => nofun) hrow)
  | replayed => exact .inl (hupdate Db.keepsId_replayed (fun _ => nofun) hrow)
  | reapRequeued | reset => exact .inl (hupdate Db.keepsId_requeued (fun _ => nofun) hrow)

theorem row_running_of_step {r : JobRow} (h : step cfg s a = some s')
    (hrow : s'.db.row job = some r) (hrun : r.status = .running) :
    s.db.row job = some r ∨ a.claims? s = some job := by
  rcases running_cases h hrow hrun with hrow | ⟨e, m, -, ha, hpc, hsome, -⟩
  · exact .inl hrow
  · exact .inr (by simp [Act.claims?, ha, hpc, hsome])

/-- Only the park makes a row 'retrying'. -/
theorem retrying_cases {r : JobRow} (h : step cfg s a = some s') (hrow : s'.db.row job = some r)
    (hretry : r.status = .retrying) : s.db.row job = some r ∨
      ∃ e h message runAt, e ∈ s.execs ∧ a.exec? = some e ∧ e.pc = .park h message runAt ∧
        h.job = job ∧ (s.ownRow cfg h).isSome = true := by
  have hupdate : ∀ {whr set}, Db.KeepsId set → (∀ r, ¬ (set r).status = .retrying) →
      (s.db.update whr set).row job = some r → s.db.row job = some r := fun hid hset hrow =>
    row_of_row_update (P := fun r => r.status = .retrying) hid hset hrow hretry
  have hdb := db_cases h
  generalize s'.db = db at hdb hrow
  generalize s'.claims = claims at hdb
  cases hdb with
  | same => exact .inl hrow
  | inserted key g generated _ hnew =>
      rw [Db.row_insertJob hnew] at hrow
      split at hrow
      · cases hrow; cases hretry
      · exact .inl hrow
  | claimed => exact .inl (hupdate (Db.keepsId_claimed _ _) (fun _ => nofun) hrow)
  | settled e h began => exact .inl (hupdate (Db.keepsId_succeeded began) (fun _ => nofun) hrow)
  | buried e h message | reapBuried key =>
      exact .inl (hupdate (Db.keepsId_buried _ _) (fun _ => nofun) hrow)
  | parked e h message runAt r' he ha hpc hown =>
      by_cases hne : job = h.job
      · exact .inr ⟨e, h, message, runAt, he, ha, hpc, hne.symm, by rw [hown]; rfl⟩
      · rw [Db.row_updateRow_ne (Db.keepsId_parked _ _) hne] at hrow
        exact .inl hrow
  | promoted => exact .inl (hupdate Db.keepsId_promoted (fun _ => nofun) hrow)
  | replayed => exact .inl (hupdate Db.keepsId_replayed (fun _ => nofun) hrow)
  | reapRequeued | reset => exact .inl (hupdate Db.keepsId_requeued (fun _ => nofun) hrow)

/-- A step records at most one claim, under the next lease. -/
theorem claims_cases (h : step cfg s a = some s') : s'.claims = s.claims ∨
    ∃ job e, s'.claims = ⟨job, s.db.nextLease, Exec.worker e, Exec.id e⟩ :: s.claims := by
  have hdb := db_cases h
  generalize s'.db = db at hdb
  generalize s'.claims = claims at hdb
  cases hdb with
  | claimed e job => exact .inr ⟨job, e, rfl⟩
  | same | inserted | replayed | settled | buried | parked | promoted | reapBuried | reapRequeued
  | reset => exact .inl rfl

/-- No statement deletes a row. -/
theorem row_of_step {r : JobRow} (h : step cfg s a = some s') (hrow : s.db.row job = some r) :
    ∃ r', s'.db.row job = some r' := by
  have hupdate : ∀ {whr set}, Db.KeepsId set → ∃ r', (s.db.update whr set).row job = some r' :=
    fun hid => ⟨_, by rw [Db.row_update hid, hrow, Option.map_some]⟩
  have hdb := db_cases h
  generalize s'.db = db at hdb
  generalize s'.claims = claims at hdb
  cases hdb with
  | same => exact ⟨r, hrow⟩
  | inserted key g generated _ hnew =>
      rw [Db.row_insertJob hnew]
      split
      · exact ⟨_, rfl⟩
      · exact ⟨r, hrow⟩
  | claimed => exact hupdate (Db.keepsId_claimed _ _)
  | settled e h began => exact hupdate (Db.keepsId_succeeded began)
  | buried | reapBuried => exact hupdate (Db.keepsId_buried _ _)
  | parked => exact hupdate (Db.keepsId_parked _ _)
  | promoted => exact hupdate Db.keepsId_promoted
  | replayed => exact hupdate Db.keepsId_replayed
  | reapRequeued | reset => exact hupdate Db.keepsId_requeued

/-! ## The processing lists -/

/-- What an `LMOVE` from the list of `w` leaves of the processing lists. -/
def State.tailTaken (s : State) (w : WorkerId) : List (WorkerId × Text) :=
  match KeyedList.last? s.redis.processing w with
  | none => s.redis.processing
  | some id => KeyedList.removeRight s.redis.processing w id

/-- The processing lists without the entry that an action takes off them. -/
def Act.trimmed (s : State) : Act → List (WorkerId × Text)
  | .exec e _ =>
      if e.pc.phase = .finished then KeyedList.removeLeft s.redis.processing e.worker e.id
      else s.redis.processing
  | .execFail e took _ _ =>
      if took = true ∧ e.pc = .release then KeyedList.removeLeft s.redis.processing e.worker e.id
      else s.redis.processing
  | .recoverOwn w _ =>
      match s.procs w with
      | .starting .moveAll _ => s.tailTaken w
      | _ => s.redis.processing
  | .sched (.reapDrop key id _) _ => KeyedList.removeRight s.redis.processing key id
  | .sched (.reapMove key _ _) _ => s.tailTaken key
  | _ => s.redis.processing

private theorem schedMove_processing {σ : Sched} {pick : Pick} (h : SchedMove s σ s') :
    s'.redis.processing = s.redis.processing ∨
      s'.redis.processing = (Act.sched σ pick).trimmed s := by
  cases h with
  | dropped key id keys hpc => subst hpc; exact .inr rfl
  | moved key id last keys hpc hlast =>
      subst hpc
      exact .inr (by simp [Act.trimmed, State.tailTaken, hlast])
  | quiet | removed | promoted | crashed | pushed | check | peek | junk | select | buried | requeued
  | emptied | swept => exact .inl rfl

/-- Every step leaves the processing lists alone, takes off what `Act.trimmed` says,
or adds an entry at a left end. -/
theorem step_processing (h : step cfg s a = some s') :
    s'.redis.processing = s.redis.processing ∨ s'.redis.processing = a.trimmed s ∨
      ∃ w id, a = .take w ∧
        s'.redis.processing = KeyedList.pushLeft s.redis.processing w id := by
  cases a with
  | tick | request | startSched => cases h; exact .inl rfl
  | api =>
      obtain ⟨-, h⟩ := Option.ite_none_right_eq_some.mp h
      cases handle_cases h <;> exact .inl rfl
  | apiCrash | schedKill =>
      obtain ⟨-, h⟩ := Option.ite_none_right_eq_some.mp h
      cases h
      exact .inl rfl
  | spawn =>
      obtain ⟨-, -, rfl⟩ := spawn_cases h
      exact .inl rfl
  | recoverOwn w =>
      cases recoverOwnProcessing_cases h with
      | moved c id hp hlast =>
          exact .inr (.inl (by simp [Act.trimmed, State.tailTaken, hp, hlast]))
      | wait | refrain | proceed | nothing | read | reset | done | beat => exact .inl rfl
  | beat =>
      obtain ⟨-, rfl⟩ := beat_cases h
      exact .inl rfl
  | expire =>
      cases expire_cases h
      exact .inl rfl
  | take w =>
      obtain ⟨c, rest, id, -, -, rfl⟩ := take_cases h
      exact .inr (.inr ⟨w, id, rfl, rfl⟩)
  | exec e =>
      obtain ⟨-, h⟩ := Option.ite_none_right_eq_some.mp h
      cases processOne_cases h with
      | letGo hpc => exact .inr (.inl (by simp [Act.trimmed, hpc, Redis.lrem]))
      | rejected | found | missing | notClaimable | claimed | work | lock | unowned | insert
      | settled | fenced | buried | parked | zadded => exact .inl rfl
  | execFail e =>
      obtain ⟨-, h⟩ := Option.ite_none_right_eq_some.mp h
      cases fails_cases h with
      | released htook hpc => exact .inr (.inl (by simp [Act.trimmed, htook, hpc, Redis.lrem]))
      | lost | claimed | caught | settled | buried | parked | zadded => exact .inl rfl
  | kill =>
      cases kill_cases h
      exact .inl rfl
  | sched σ pick =>
      obtain ⟨-, h⟩ := Option.ite_none_right_eq_some.mp h
      exact (schedMove_processing (schedule_cases h)).imp_right .inl
  | schedFail σ =>
      obtain ⟨-, h⟩ := Option.ite_none_right_eq_some.mp h
      unfold abandonPass at h
      split at h
      · cases h; exact .inl rfl
      · cases h

/-- What is left of the processing lists was there before. -/
theorem trimmed_subset : a.trimmed s ⊆ s.redis.processing := by
  have htail : ∀ w, s.tailTaken w ⊆ s.redis.processing := by
    intro w
    unfold State.tailTaken
    split
    · exact fun _ => id
    · exact fun _ => KeyedList.mem_of_mem_removeRight
  unfold Act.trimmed
  split
  case h_1 | h_2 =>
    split
    · exact fun _ => KeyedList.mem_of_mem_removeLeft
    · exact fun _ => id
  case h_3 w _ =>
    split
    · exact htail w
    · exact fun _ => id
  case h_4 => exact fun _ => KeyedList.mem_of_mem_removeRight
  case h_5 key _ _ _ => exact htail key
  case h_6 => exact fun _ => id

/-- Only `BLMOVE` puts an entry into a processing list. -/
theorem processing_of_step {p : WorkerId × Text} (h : step cfg s a = some s')
    (hp : p ∈ s'.redis.processing) : p ∈ s.redis.processing ∨ a = .take p.1 := by
  rcases step_processing h with heq | heq | ⟨w, id, rfl, heq⟩ <;> rw [heq] at hp
  · exact .inl hp
  · exact .inl (trimmed_subset hp)
  · rcases List.mem_cons.mp hp with rfl | hp
    · exact .inr rfl
    · exact .inl hp

/-! ## The pending list and the delayed set -/

/-- Only `BLMOVE` takes an id off the pending list. -/
theorem pending_of_step {id : Text} (h : step cfg s a = some s') (hid : id ∈ s.redis.pending) :
    id ∈ s'.redis.pending ∨ ∃ w, (⟨w, id, if isUuid id then .select else .discard⟩ : Exec) ∈ s'.execs := by
  cases a with
  | tick | request | startSched => cases h; exact .inl hid
  | api =>
      obtain ⟨-, h⟩ := Option.ite_none_right_eq_some.mp h
      cases handle_cases h with
      | pushed => exact .inl (List.mem_cons_of_mem _ hid)
      | turned | answered | inserted | replayed => exact .inl hid
  | apiCrash | schedKill =>
      obtain ⟨-, h⟩ := Option.ite_none_right_eq_some.mp h
      cases h
      exact .inl hid
  | spawn =>
      obtain ⟨-, -, rfl⟩ := spawn_cases h
      exact .inl hid
  | recoverOwn =>
      cases recoverOwnProcessing_cases h with
      | moved => exact .inl (List.mem_append_left _ hid)
      | wait | refrain | proceed | nothing | read | reset | done | beat => exact .inl hid
  | beat =>
      obtain ⟨-, rfl⟩ := beat_cases h
      exact .inl hid
  | expire =>
      cases expire_cases h
      exact .inl hid
  | take w =>
      obtain ⟨c, rest, last, -, hpending, rfl⟩ := take_cases h
      rw [hpending] at hid
      rcases List.mem_append.mp hid with hid | hid
      · exact .inl hid
      · obtain rfl := List.mem_singleton.mp hid
        exact .inr ⟨w, List.mem_cons_self⟩
  | exec =>
      obtain ⟨-, h⟩ := Option.ite_none_right_eq_some.mp h
      cases processOne_cases h <;> exact .inl hid
  | execFail =>
      obtain ⟨-, h⟩ := Option.ite_none_right_eq_some.mp h
      cases fails_cases h <;> exact .inl hid
  | kill =>
      cases kill_cases h
      exact .inl hid
  | sched =>
      obtain ⟨-, h⟩ := Option.ite_none_right_eq_some.mp h
      cases schedule_cases h with
      | pushed => exact .inl (List.mem_cons_of_mem _ hid)
      | moved | swept => exact .inl (List.mem_append_left _ hid)
      | quiet | removed | promoted | crashed | check | peek | junk | select | dropped | buried
      | requeued | emptied => exact .inl hid
  | schedFail =>
      obtain ⟨-, h⟩ := Option.ite_none_right_eq_some.mp h
      unfold abandonPass at h
      split at h
      · cases h; exact .inl hid
      · cases h

/-- An id on the pending list was there before, or comes from a processing list, or from the
hand of a scheduler or a request, or is that of an orphan. -/
theorem mem_pending_of_step {id : Text} (h : step cfg s a = some s') (hid : id ∈ s'.redis.pending) :
    id ∈ s.redis.pending ∨ (∃ w, (w, id) ∈ s.redis.processing) ∨
      (∃ σ ∈ s.scheds, σ.hand = some id) ∨ (∃ x ∈ s.apis, x.hand = some id) ∨
        ∃ job candidates held pick, a = .sched (.sweepPush (job :: candidates) held) pick ∧
          .sweepPush (job :: candidates) held ∈ s.scheds ∧ id = uuidOut job := by
  have hlmove {w : WorkerId} {last : Text} (hmem : id ∈ s.redis.pending ++ [last])
      (hlast : KeyedList.last? s.redis.processing w = some last) :
      id ∈ s.redis.pending ∨ ∃ w, (w, id) ∈ s.redis.processing := by
    rcases List.mem_append.mp hmem with hid | hid
    · exact .inl hid
    · rw [List.mem_singleton.mp hid]
      exact .inr ⟨w, KeyedList.mem_of_last? hlast⟩
  cases a with
  | tick | request | startSched => cases h; exact .inl hid
  | api x =>
      obtain ⟨hx, h⟩ := Option.ite_none_right_eq_some.mp h
      cases handle_cases h with
      | pushed req id' hpc =>
          subst hpc
          rcases List.mem_cons.mp hid with rfl | hid
          · exact .inr (.inr (.inr (.inl ⟨_, hx, rfl⟩)))
          · exact .inl hid
      | turned | answered | inserted | replayed => exact .inl hid
  | apiCrash | schedKill =>
      obtain ⟨-, h⟩ := Option.ite_none_right_eq_some.mp h
      cases h
      exact .inl hid
  | spawn =>
      obtain ⟨-, -, rfl⟩ := spawn_cases h
      exact .inl hid
  | recoverOwn =>
      cases recoverOwnProcessing_cases h with
      | moved c last hp hlast => exact (hlmove hid hlast).imp_right .inl
      | wait | refrain | proceed | nothing | read | reset | done | beat => exact .inl hid
  | beat =>
      obtain ⟨-, rfl⟩ := beat_cases h
      exact .inl hid
  | expire =>
      cases expire_cases h
      exact .inl hid
  | take w =>
      obtain ⟨c, rest, last, -, hpending, rfl⟩ := take_cases h
      rw [hpending]
      exact .inl (List.mem_append_left _ hid)
  | exec =>
      obtain ⟨-, h⟩ := Option.ite_none_right_eq_some.mp h
      cases processOne_cases h <;> exact .inl hid
  | execFail =>
      obtain ⟨-, h⟩ := Option.ite_none_right_eq_some.mp h
      cases fails_cases h <;> exact .inl hid
  | kill =>
      cases kill_cases h
      exact .inl hid
  | sched σ pick =>
      obtain ⟨hσ, h⟩ := Option.ite_none_right_eq_some.mp h
      cases schedule_cases h with
      | pushed id' due hpc =>
          subst hpc
          rcases List.mem_cons.mp hid with rfl | hid
          · exact .inr (.inr (.inl ⟨_, hσ, rfl⟩))
          · exact .inl hid
      | moved key _ last keys hpc hlast => exact (hlmove hid hlast).imp_right .inl
      | swept job candidates held hpc =>
          subst hpc
          rcases List.mem_append.mp hid with hid | hid
          · exact .inl hid
          · exact .inr (.inr (.inr (.inr
              ⟨job, candidates, held, pick, rfl, hσ, List.mem_singleton.mp hid⟩)))
      | quiet | removed | promoted | crashed | check | peek | junk | select | dropped | buried
      | requeued | emptied => exact .inl hid
  | schedFail =>
      obtain ⟨-, h⟩ := Option.ite_none_right_eq_some.mp h
      unfold abandonPass at h
      split at h
      · cases h; exact .inl hid
      · cases h

/-- Only `promoteDue` takes an id out of the delayed set. -/
theorem isDelayed_of_step {id : Text} (h : step cfg s a = some s')
    (hid : s.redis.isDelayed id = true) :
    s'.redis.isDelayed id = true ∨ ∃ due pick, a = .sched (.promoting (id :: due)) pick ∧
      .promoteUpdate id due ∈ s'.scheds := by
  have hzadd (score : Nat) (id' : Text) : (s.redis.zadd score id').isDelayed id = true := by
    obtain ⟨score', hmem⟩ := Redis.isDelayed_iff.mp hid
    by_cases heq : id = id'
    · exact Redis.isDelayed_iff.mpr ⟨score, Redis.mem_zadd.mpr (.inl (by rw [heq]))⟩
    · exact Redis.isDelayed_iff.mpr ⟨score', Redis.mem_zadd.mpr (.inr ⟨hmem, heq⟩)⟩
  cases a with
  | tick | request | startSched => cases h; exact .inl hid
  | api =>
      obtain ⟨-, h⟩ := Option.ite_none_right_eq_some.mp h
      cases handle_cases h <;> exact .inl hid
  | apiCrash | schedKill =>
      obtain ⟨-, h⟩ := Option.ite_none_right_eq_some.mp h
      cases h
      exact .inl hid
  | spawn =>
      obtain ⟨-, -, rfl⟩ := spawn_cases h
      exact .inl hid
  | recoverOwn => cases recoverOwnProcessing_cases h <;> exact .inl hid
  | beat =>
      obtain ⟨-, rfl⟩ := beat_cases h
      exact .inl hid
  | expire =>
      cases expire_cases h
      exact .inl hid
  | take =>
      obtain ⟨c, rest, last, -, -, rfl⟩ := take_cases h
      exact .inl hid
  | exec =>
      obtain ⟨-, h⟩ := Option.ite_none_right_eq_some.mp h
      cases processOne_cases h with
      | zadded hold runAt => exact .inl (hzadd runAt (uuidOut hold.job))
      | letGo | rejected | found | missing | notClaimable | claimed | work | lock | unowned
      | insert | settled | fenced | buried | parked => exact .inl hid
  | execFail =>
      obtain ⟨-, h⟩ := Option.ite_none_right_eq_some.mp h
      cases fails_cases h with
      | zadded hold runAt => exact .inl (hzadd runAt (uuidOut hold.job))
      | lost | released | claimed | caught | settled | buried | parked => exact .inl hid
  | kill =>
      cases kill_cases h
      exact .inl hid
  | sched σ pick =>
      obtain ⟨-, h⟩ := Option.ite_none_right_eq_some.mp h
      cases schedule_cases h with
      | removed id' due hpc =>
          by_cases heq : id = id'
          · subst heq hpc
            exact .inr ⟨due, pick, rfl, Bag.mem_swap_self⟩
          · obtain ⟨score, hmem⟩ := Redis.isDelayed_iff.mp hid
            exact .inl (Redis.isDelayed_iff.mpr ⟨score, Redis.mem_zrem.mpr ⟨hmem, heq⟩⟩)
      | quiet | promoted | crashed | pushed | check | peek | junk | select | dropped | buried
      | requeued | moved | emptied | swept => exact .inl hid
  | schedFail =>
      obtain ⟨-, h⟩ := Option.ite_none_right_eq_some.mp h
      unfold abandonPass at h
      split at h
      · cases h; exact .inl hid
      · cases h

/-- Only `ZADD` adds to the delayed set. -/
theorem delayed_of_step {m : Text × Nat} (h : step cfg s a = some s') (hm : m ∈ s'.redis.delayed) :
    m ∈ s.redis.delayed ∨ ∃ e hold runAt, a.exec? = some e ∧ e.pc = .zadd hold runAt ∧
      m = (uuidOut hold.job, runAt) := by
  cases a with
  | tick | request | startSched => cases h; exact .inl hm
  | api =>
      obtain ⟨-, h⟩ := Option.ite_none_right_eq_some.mp h
      cases handle_cases h <;> exact .inl hm
  | apiCrash | schedKill =>
      obtain ⟨-, h⟩ := Option.ite_none_right_eq_some.mp h
      cases h
      exact .inl hm
  | spawn =>
      obtain ⟨-, -, rfl⟩ := spawn_cases h
      exact .inl hm
  | recoverOwn => cases recoverOwnProcessing_cases h <;> exact .inl hm
  | beat =>
      obtain ⟨-, rfl⟩ := beat_cases h
      exact .inl hm
  | expire =>
      cases expire_cases h
      exact .inl hm
  | take =>
      obtain ⟨c, rest, id, -, -, rfl⟩ := take_cases h
      exact .inl hm
  | exec e =>
      obtain ⟨-, h⟩ := Option.ite_none_right_eq_some.mp h
      cases processOne_cases h with
      | zadded hold runAt hpc =>
          rcases Redis.mem_zadd.mp hm with rfl | ⟨hm, -⟩
          · exact .inr ⟨e, hold, runAt, rfl, hpc, rfl⟩
          · exact .inl hm
      | letGo | rejected | found | missing | notClaimable | claimed | work | lock | unowned
      | insert | settled | fenced | buried | parked => exact .inl hm
  | execFail e =>
      obtain ⟨-, h⟩ := Option.ite_none_right_eq_some.mp h
      cases fails_cases h with
      | zadded hold runAt hpc =>
          rcases Redis.mem_zadd.mp hm with rfl | ⟨hm, -⟩
          · exact .inr ⟨e, hold, runAt, rfl, hpc, rfl⟩
          · exact .inl hm
      | lost | released | claimed | caught | settled | buried | parked => exact .inl hm
  | kill =>
      cases kill_cases h
      exact .inl hm
  | sched =>
      obtain ⟨-, h⟩ := Option.ite_none_right_eq_some.mp h
      cases schedule_cases h with
      | removed => exact .inl (Redis.mem_zrem.mp hm).1
      | quiet | promoted | crashed | pushed | check | peek | junk | select | dropped | buried
      | requeued | moved | emptied | swept => exact .inl hm
  | schedFail =>
      obtain ⟨-, h⟩ := Option.ite_none_right_eq_some.mp h
      cases abandonPass_cases h with
      | removed => exact .inl (Redis.mem_zrem.mp hm).1
      | quiet | promoted | crashed | pushed | check | peek | junk | select | dropped | buried
      | requeued | moved | emptied | swept => exact .inl hm

/-- A heartbeat ends only by its own event. -/
theorem alive_of_step {w : WorkerId} (h : step cfg s a = some s') (hw : w ∈ s.redis.alive) :
    w ∈ s'.redis.alive ∨ a = .expire w := by
  have hbeat (w' : WorkerId) : w ∈ (s.redis.beat w').alive := by
    by_cases heq : w = w' <;> simp [Redis.beat, heq, hw]
  cases a with
  | tick | request | startSched => cases h; exact .inl hw
  | api =>
      obtain ⟨-, h⟩ := Option.ite_none_right_eq_some.mp h
      cases handle_cases h <;> exact .inl hw
  | apiCrash | schedKill =>
      obtain ⟨-, h⟩ := Option.ite_none_right_eq_some.mp h
      cases h
      exact .inl hw
  | spawn =>
      obtain ⟨-, -, rfl⟩ := spawn_cases h
      exact .inl hw
  | recoverOwn w' =>
      cases recoverOwnProcessing_cases h with
      | beat => exact .inl (hbeat w')
      | wait | refrain | proceed | nothing | read | reset | moved | done => exact .inl hw
  | beat w' =>
      obtain ⟨-, rfl⟩ := beat_cases h
      exact .inl (hbeat w')
  | expire w' =>
      cases expire_cases h
      by_cases heq : w = w'
      · exact .inr (congrArg Act.expire heq.symm)
      · exact .inl (List.mem_filter.mpr ⟨hw, by simpa using heq⟩)
  | take =>
      obtain ⟨c, rest, id, -, -, rfl⟩ := take_cases h
      exact .inl hw
  | exec =>
      obtain ⟨-, h⟩ := Option.ite_none_right_eq_some.mp h
      cases processOne_cases h <;> exact .inl hw
  | execFail =>
      obtain ⟨-, h⟩ := Option.ite_none_right_eq_some.mp h
      cases fails_cases h <;> exact .inl hw
  | kill =>
      cases kill_cases h
      exact .inl hw
  | sched =>
      obtain ⟨-, h⟩ := Option.ite_none_right_eq_some.mp h
      cases schedule_cases h <;> exact .inl hw
  | schedFail =>
      obtain ⟨-, h⟩ := Option.ite_none_right_eq_some.mp h
      cases abandonPass_cases h <;> exact .inl hw

/-! ## The threads -/

/-- An execution stays where it is unless it moves or its worker is killed. -/
theorem mem_execs_of_step {e : Exec} (h : step cfg s a = some s') (he : e ∈ s.execs) :
    e ∈ s'.execs ∨ a.exec? = some e ∨ a = .kill e.worker := by
  cases a with
  | tick | request | startSched => cases h; exact .inl he
  | api =>
      obtain ⟨-, h⟩ := Option.ite_none_right_eq_some.mp h
      cases handle_cases h <;> exact .inl he
  | apiCrash | schedKill =>
      obtain ⟨-, h⟩ := Option.ite_none_right_eq_some.mp h
      cases h
      exact .inl he
  | spawn =>
      obtain ⟨-, -, rfl⟩ := spawn_cases h
      exact .inl he
  | recoverOwn => cases recoverOwnProcessing_cases h <;> exact .inl he
  | beat =>
      obtain ⟨-, rfl⟩ := beat_cases h
      exact .inl he
  | expire =>
      cases expire_cases h
      exact .inl he
  | take =>
      obtain ⟨c, rest, id, -, -, rfl⟩ := take_cases h
      exact .inl (List.mem_cons_of_mem _ he)
  | exec e' =>
      obtain ⟨-, h⟩ := Option.ite_none_right_eq_some.mp h
      by_cases heq : e = e'
      · exact .inr (.inl (congrArg some heq.symm))
      · refine .inl ?_
        cases processOne_cases h with
        | letGo | rejected => exact (List.mem_erase_of_ne heq).mpr he
        | found | missing | notClaimable | claimed | work | lock | unowned | insert | settled
        | fenced | buried | parked | zadded => exact Bag.mem_swap_of_ne he heq
  | execFail e' =>
      obtain ⟨-, h⟩ := Option.ite_none_right_eq_some.mp h
      by_cases heq : e = e'
      · exact .inr (.inl (congrArg some heq.symm))
      · refine .inl ?_
        cases fails_cases h with
        | lost | released | claimed | buried | parked | zadded =>
            exact (List.mem_erase_of_ne heq).mpr he
        | caught | settled => exact Bag.mem_swap_of_ne he heq
  | kill w =>
      cases kill_cases h
      by_cases heq : e.worker = w
      · exact .inr (.inr (congrArg Act.kill heq.symm))
      · exact .inl (List.mem_filter.mpr ⟨he, by simpa using heq⟩)
  | sched =>
      obtain ⟨-, h⟩ := Option.ite_none_right_eq_some.mp h
      cases schedule_cases h <;> exact .inl he
  | schedFail =>
      obtain ⟨-, h⟩ := Option.ite_none_right_eq_some.mp h
      cases abandonPass_cases h <;> exact .inl he

theorem exec_mem_of_step {e : Exec} (h : step cfg s a = some s') (ha : a.exec? = some e) :
    e ∈ s.execs := by
  cases a with
  | exec | execFail =>
      cases ha
      exact (Option.ite_none_right_eq_some.mp h).1
  | _ => cases ha

/-- An execution is taken from the pending list, or was there before, or has moved. -/
theorem exec_origin {e' : Exec} (h : step cfg s a = some s') (he' : e' ∈ s'.execs) :
    e' ∈ s.execs ∨
      (∃ w rest, a = .take w ∧ s.redis.pending = rest ++ [e'.id] ∧ e'.worker = w ∧
        e'.pc = if isUuid e'.id then .select else .discard) ∨
      (∃ e o, a = .exec e o ∧ e ∈ s.execs ∧ processOne cfg s e o = some s') ∨
      ∃ e took message random, a = .execFail e took message random ∧ e ∈ s.execs ∧
        fails cfg s e took message random = some s' := by
  cases a with
  | tick | request | startSched => cases h; exact .inl he'
  | api =>
      obtain ⟨-, h⟩ := Option.ite_none_right_eq_some.mp h
      cases handle_cases h <;> exact .inl he'
  | apiCrash | schedKill =>
      obtain ⟨-, h⟩ := Option.ite_none_right_eq_some.mp h
      cases h
      exact .inl he'
  | spawn =>
      obtain ⟨-, -, rfl⟩ := spawn_cases h
      exact .inl he'
  | recoverOwn => cases recoverOwnProcessing_cases h <;> exact .inl he'
  | beat =>
      obtain ⟨-, rfl⟩ := beat_cases h
      exact .inl he'
  | expire =>
      cases expire_cases h
      exact .inl he'
  | take w =>
      obtain ⟨c, rest, id, -, hpending, rfl⟩ := take_cases h
      rcases List.mem_cons.mp he' with rfl | he'
      · exact .inr (.inl ⟨w, rest, rfl, hpending, rfl, rfl⟩)
      · exact .inl he'
  | exec e o =>
      obtain ⟨he, h⟩ := Option.ite_none_right_eq_some.mp h
      exact .inr (.inr (.inl ⟨e, o, rfl, he, h⟩))
  | execFail e took message random =>
      obtain ⟨he, h⟩ := Option.ite_none_right_eq_some.mp h
      exact .inr (.inr (.inr ⟨e, took, message, random, rfl, he, h⟩))
  | kill =>
      cases kill_cases h
      exact .inl (List.mem_of_mem_filter he')
  | sched =>
      obtain ⟨-, h⟩ := Option.ite_none_right_eq_some.mp h
      cases schedule_cases h <;> exact .inl he'
  | schedFail =>
      obtain ⟨-, h⟩ := Option.ite_none_right_eq_some.mp h
      cases abandonPass_cases h <;> exact .inl he'

/-- The scheduler whose command an action is, or which it ends. -/
def Act.sched? : Act → Option Sched
  | .sched σ _ => some σ
  | .schedFail σ => some σ
  | .schedKill σ => some σ
  | _ => none

theorem Act.sched?_of_exec? {e : Exec} (ha : a.exec? = some e) : a.sched? = none := by
  cases a <;> first | rfl | cases ha

/-- Only a scheduler's own actions change the schedulers. -/
theorem scheds_of_step (h : step cfg s a = some s') (ha : a.sched? = none) :
    s'.scheds = s.scheds ∨ a = .startSched ∧ s'.scheds = .idle :: s.scheds := by
  cases a with
  | tick | request => cases h; exact .inl rfl
  | startSched => cases h; exact .inr ⟨rfl, rfl⟩
  | api =>
      obtain ⟨-, h⟩ := Option.ite_none_right_eq_some.mp h
      cases handle_cases h <;> exact .inl rfl
  | apiCrash =>
      obtain ⟨-, h⟩ := Option.ite_none_right_eq_some.mp h
      cases h
      exact .inl rfl
  | spawn =>
      obtain ⟨-, -, rfl⟩ := spawn_cases h
      exact .inl rfl
  | recoverOwn => cases recoverOwnProcessing_cases h <;> exact .inl rfl
  | beat =>
      obtain ⟨-, rfl⟩ := beat_cases h
      exact .inl rfl
  | expire =>
      cases expire_cases h
      exact .inl rfl
  | take =>
      obtain ⟨c, rest, id, -, -, rfl⟩ := take_cases h
      exact .inl rfl
  | exec =>
      obtain ⟨-, h⟩ := Option.ite_none_right_eq_some.mp h
      cases processOne_cases h <;> exact .inl rfl
  | execFail =>
      obtain ⟨-, h⟩ := Option.ite_none_right_eq_some.mp h
      cases fails_cases h <;> exact .inl rfl
  | kill =>
      cases kill_cases h
      exact .inl rfl
  | sched | schedFail | schedKill => cases ha

/-- A scheduler's own action moves it or ends it. -/
theorem sched_move_of_step {σ : Sched} (h : step cfg s a = some s') (ha : a.sched? = some σ) :
    σ ∈ s.scheds ∧ (SchedMove s σ s' ∨ a = .schedKill σ ∧ s' = s.endSched σ) := by
  cases a with
  | sched τ pick =>
      cases ha
      obtain ⟨hσ, h⟩ := Option.ite_none_right_eq_some.mp h
      exact ⟨hσ, .inl (schedule_cases h)⟩
  | schedFail τ =>
      cases ha
      obtain ⟨hσ, h⟩ := Option.ite_none_right_eq_some.mp h
      exact ⟨hσ, .inl (abandonPass_cases h)⟩
  | schedKill τ =>
      cases ha
      obtain ⟨hσ, h⟩ := Option.ite_none_right_eq_some.mp h
      cases h
      exact ⟨hσ, .inr ⟨rfl, rfl⟩⟩
  | _ => cases ha

/-- What a command of a scheduler makes of the schedulers. -/
theorem scheds_of_schedMove {σ : Sched} (h : SchedMove s σ s') :
    s'.scheds = s.scheds.erase σ ∨ ∃ σ', s'.scheds = Bag.swap s.scheds σ σ' := by
  cases h with
  | crashed => exact .inl rfl
  | quiet | removed | promoted | pushed | check | peek | junk | select | dropped | buried | requeued
  | moved | emptied | swept => exact .inr ⟨_, rfl⟩

/-- A scheduler stays where it is unless it moves or is killed. -/
theorem mem_scheds_of_step {σ : Sched} (h : step cfg s a = some s') (hσ : σ ∈ s.scheds) :
    σ ∈ s'.scheds ∨ a.sched? = some σ := by
  cases ha : a.sched? with
  | none =>
      rcases scheds_of_step h ha with heq | ⟨-, heq⟩ <;> rw [heq]
      · exact .inl hσ
      · exact .inl (List.mem_cons_of_mem _ hσ)
  | some τ =>
      by_cases hne : σ = τ
      · exact .inr (congrArg some hne.symm)
      · refine .inl ?_
        obtain ⟨-, hmove | ⟨-, rfl⟩⟩ := sched_move_of_step h ha
        · rcases scheds_of_schedMove hmove with heq | ⟨σ', heq⟩ <;> rw [heq]
          · exact (List.mem_erase_of_ne hne).mpr hσ
          · exact Bag.mem_swap_of_ne hσ hne
        · exact (List.mem_erase_of_ne hne).mpr hσ

/-- How a scheduler comes to be where it is after a step. -/
inductive SchedOrigin (s : State) (a : Act) (s' : State) : Sched → Prop where
  | stays {τ : Sched} (hτ : τ ∈ s.scheds) : SchedOrigin s a s' τ
  /-- It holds no id and reaps no list. -/
  | rests {τ : Sched} (hhand : τ.hand = none) (hreap : τ.reaping = none) : SchedOrigin s a s' τ
  | removed (id : Text) (due : List Text) (hdue : s.redis.isDelayed id = true) :
      SchedOrigin s a s' (.promoteUpdate id due)
  | promoted (id : Text) (due : List Text) (hσ : .promoteUpdate id due ∈ s.scheds) :
      SchedOrigin s a s' (.promotePush id due)
  | peeks (key : WorkerId) (keys : List WorkerId) : SchedOrigin s a s' (.reapPeek key keys)
  | reads (key : WorkerId) (id : Text) (keys : List WorkerId) (hid : isUuid id = true) :
      SchedOrigin s a s' (.reapSelect key id keys)
  | rejects (key : WorkerId) (id : Text) (keys : List WorkerId) (hid : isUuid id = false) :
      SchedOrigin s a s' (.reapDrop key id keys)
  | judges (key : WorkerId) (id : Text) (keys : List WorkerId) (job : Uuid) (pick : Pick)
      (ha : a = .sched (.reapSelect key id keys) pick) (hid : uuidIn id = some job) :
      SchedOrigin s a s' (judge key id keys (s.db.row job))
  | buried (key : WorkerId) (id : Text) (keys : List WorkerId) (job : Uuid) (hid : uuidIn id = some job)
      (hdb : s'.db = s.db.updateRow job (.buried (stoppedResponding key) s.now)) :
      SchedOrigin s a s' (.reapDrop key id keys)
  | requeued (key : WorkerId) (id : Text) (keys : List WorkerId) (job : Uuid) (hid : uuidIn id = some job)
      (hdb : s'.db = s.db.updateRow job .requeued) : SchedOrigin s a s' (.reapMove key id keys)

theorem sched_origin {τ : Sched} (h : step cfg s a = some s') (hτ : τ ∈ s'.scheds) :
    SchedOrigin s a s' τ := by
  cases ha : a.sched? with
  | none =>
      rcases scheds_of_step h ha with heq | ⟨-, heq⟩ <;> rw [heq] at hτ
      · exact .stays hτ
      · rcases List.mem_cons.mp hτ with rfl | hτ
        · exact .rests rfl rfl
        · exact .stays hτ
  | some σ =>
      have hset {σ' : Sched} (hmem : τ ∈ Bag.swap s.scheds σ σ') (hnew : SchedOrigin s a s' σ') :
          SchedOrigin s a s' τ := by
        rcases Bag.mem_of_mem_swap hmem with rfl | hmem
        · exact hnew
        · exact .stays hmem
      cases a with
      | sched σ' pick =>
          cases ha
          obtain ⟨hσ, h⟩ := Option.ite_none_right_eq_some.mp h
          cases schedule_cases h with
          | quiet σ' _ hhand hreap => exact hset hτ (.rests hhand hreap)
          | removed id due _ hdue => exact hset hτ (.removed id due hdue)
          | promoted id due job hpc => exact hset hτ (.promoted id due (hpc ▸ hσ))
          | crashed => exact .stays (List.mem_of_mem_erase hτ)
          | pushed | swept => exact hset hτ (.rests rfl rfl)
          | check | dropped | moved | emptied => exact hset hτ (.peeks ..)
          | peek key id keys _ _ hid => exact hset hτ (.reads key id keys hid)
          | junk key id keys _ _ hid => exact hset hτ (.rejects key id keys hid)
          | select key id keys job hpc hid =>
              exact hset hτ (.judges key id keys job pick (hpc ▸ rfl) hid)
          | buried key id keys job _ hid => exact hset hτ (.buried key id keys job hid rfl)
          | requeued key id keys job _ hid => exact hset hτ (.requeued key id keys job hid rfl)
      | schedFail σ' =>
          cases ha
          obtain ⟨-, h⟩ := Option.ite_none_right_eq_some.mp h
          unfold abandonPass at h
          split at h <;> cases h
          exact hset hτ (.rests rfl rfl)
      | schedKill σ' =>
          obtain ⟨-, h⟩ := Option.ite_none_right_eq_some.mp h
          cases h
          exact .stays (List.mem_of_mem_erase hτ)
      | _ => cases ha

/-! ## The requests -/

/-- Only the API changes its requests and responses. -/
theorem apis_of_step (h : step cfg s a = some s') :
    ((∀ x g, a ≠ .api x g) ∧ s'.apis = s.apis ∧ s'.responses = s.responses) ∨
      (∃ req, a = .request req ∧ s' = s.addApi req.start) ∨
      (∃ x, a = .apiCrash x ∧ s' = s.endApi x) ∨
      ∃ x g, a = .api x g ∧ x ∈ s.apis ∧ handle s x g = some s' := by
  cases a with
  | tick | startSched => cases h; exact .inl ⟨nofun, rfl, rfl⟩
  | request req => cases h; exact .inr (.inl ⟨req, rfl, rfl⟩)
  | api x g =>
      obtain ⟨hx, h⟩ := Option.ite_none_right_eq_some.mp h
      exact .inr (.inr (.inr ⟨x, g, rfl, hx, h⟩))
  | apiCrash x =>
      obtain ⟨-, h⟩ := Option.ite_none_right_eq_some.mp h
      cases h
      exact .inr (.inr (.inl ⟨x, rfl, rfl⟩))
  | schedKill =>
      obtain ⟨-, h⟩ := Option.ite_none_right_eq_some.mp h
      cases h
      exact .inl ⟨nofun, rfl, rfl⟩
  | spawn =>
      obtain ⟨-, -, rfl⟩ := spawn_cases h
      exact .inl ⟨nofun, rfl, rfl⟩
  | recoverOwn =>
      refine .inl ⟨nofun, ?_⟩
      cases recoverOwnProcessing_cases h <;> exact ⟨rfl, rfl⟩
  | beat =>
      obtain ⟨-, rfl⟩ := beat_cases h
      exact .inl ⟨nofun, rfl, rfl⟩
  | expire =>
      cases expire_cases h
      exact .inl ⟨nofun, rfl, rfl⟩
  | take =>
      obtain ⟨c, rest, id, -, -, rfl⟩ := take_cases h
      exact .inl ⟨nofun, rfl, rfl⟩
  | exec =>
      obtain ⟨-, h⟩ := Option.ite_none_right_eq_some.mp h
      refine .inl ⟨nofun, ?_⟩
      cases processOne_cases h <;> exact ⟨rfl, rfl⟩
  | execFail =>
      obtain ⟨-, h⟩ := Option.ite_none_right_eq_some.mp h
      refine .inl ⟨nofun, ?_⟩
      cases fails_cases h <;> exact ⟨rfl, rfl⟩
  | kill =>
      cases kill_cases h
      exact .inl ⟨nofun, rfl, rfl⟩
  | sched =>
      obtain ⟨-, h⟩ := Option.ite_none_right_eq_some.mp h
      refine .inl ⟨nofun, ?_⟩
      cases schedule_cases h <;> exact ⟨rfl, rfl⟩
  | schedFail =>
      obtain ⟨-, h⟩ := Option.ite_none_right_eq_some.mp h
      refine .inl ⟨nofun, ?_⟩
      cases abandonPass_cases h <;> exact ⟨rfl, rfl⟩

/-! ## The clock -/

/-- Only `tick` moves the clock. -/
theorem now_of_step (h : step cfg s a = some s') (htick : ∀ d, a ≠ .tick d) : s'.now = s.now := by
  cases a with
  | tick d => exact absurd rfl (htick d)
  | request | startSched => cases h; rfl
  | api =>
      obtain ⟨-, h⟩ := Option.ite_none_right_eq_some.mp h
      cases handle_cases h <;> rfl
  | apiCrash | schedKill =>
      obtain ⟨-, h⟩ := Option.ite_none_right_eq_some.mp h
      cases h
      rfl
  | spawn =>
      obtain ⟨-, -, rfl⟩ := spawn_cases h
      rfl
  | recoverOwn => cases recoverOwnProcessing_cases h <;> rfl
  | beat =>
      obtain ⟨-, rfl⟩ := beat_cases h
      rfl
  | expire =>
      cases expire_cases h
      rfl
  | take =>
      obtain ⟨c, rest, id, -, -, rfl⟩ := take_cases h
      rfl
  | exec =>
      obtain ⟨-, h⟩ := Option.ite_none_right_eq_some.mp h
      cases processOne_cases h <;> rfl
  | execFail =>
      obtain ⟨-, h⟩ := Option.ite_none_right_eq_some.mp h
      cases fails_cases h <;> rfl
  | kill =>
      cases kill_cases h
      rfl
  | sched =>
      obtain ⟨-, h⟩ := Option.ite_none_right_eq_some.mp h
      cases schedule_cases h <;> rfl
  | schedFail =>
      obtain ⟨-, h⟩ := Option.ite_none_right_eq_some.mp h
      cases abandonPass_cases h <;> rfl

theorem now_le_of_step (h : step cfg s a = some s') : s.now ≤ s'.now := by
  by_cases htick : ∃ d, a = .tick d
  · obtain ⟨d, rfl⟩ := htick
    cases h
    exact Nat.le_add_right _ _
  · exact (now_of_step h fun d ha => htick ⟨d, ha⟩).ge

theorem dateNow_le_of_step (h : step cfg s a = some s') : s.dateNow ≤ s'.dateNow :=
  Nat.div_le_div_right (now_le_of_step h)

/-! ## The processes -/

/-- Processes start, are killed, or go through `recoverOwnProcessing`. -/
theorem procs_of_step (h : step cfg s a = some s') : s'.procs = s.procs ∨
    (∃ w c, a = .spawn w c ∧ (s.procs w = .fresh ∨ s.procs w = .gone) ∧
      s'.procs = Function.update s.procs w (.starting .checkAlive c)) ∨
    (∃ w, a = .kill w ∧ s'.procs = Function.update s.procs w .gone) ∨
    ∃ w deadline, a = .recoverOwn w deadline ∧ StartMove s w deadline s' := by
  cases a with
  | tick | request | startSched => cases h; exact .inl rfl
  | api =>
      obtain ⟨-, h⟩ := Option.ite_none_right_eq_some.mp h
      cases handle_cases h <;> exact .inl rfl
  | apiCrash | schedKill =>
      obtain ⟨-, h⟩ := Option.ite_none_right_eq_some.mp h
      cases h
      exact .inl rfl
  | spawn w c =>
      obtain ⟨hp, -, rfl⟩ := spawn_cases h
      exact .inr (.inl ⟨w, c, rfl, hp, rfl⟩)
  | recoverOwn w deadline =>
      exact .inr (.inr (.inr ⟨w, deadline, rfl, recoverOwnProcessing_cases h⟩))
  | beat =>
      obtain ⟨-, rfl⟩ := beat_cases h
      exact .inl rfl
  | expire =>
      cases expire_cases h
      exact .inl rfl
  | take =>
      obtain ⟨c, rest, id, -, -, rfl⟩ := take_cases h
      exact .inl rfl
  | exec =>
      obtain ⟨-, h⟩ := Option.ite_none_right_eq_some.mp h
      cases processOne_cases h <;> exact .inl rfl
  | execFail =>
      obtain ⟨-, h⟩ := Option.ite_none_right_eq_some.mp h
      cases fails_cases h <;> exact .inl rfl
  | kill w =>
      cases kill_cases h
      exact .inr (.inr (.inl ⟨w, rfl, rfl⟩))
  | sched =>
      obtain ⟨-, h⟩ := Option.ite_none_right_eq_some.mp h
      cases schedule_cases h <;> exact .inl rfl
  | schedFail =>
      obtain ⟨-, h⟩ := Option.ite_none_right_eq_some.mp h
      cases abandonPass_cases h <;> exact .inl rfl

end QueueFlow
