-- SUMMARY: What one step of the system does to the row of one job: the statement that sets it, with the row it found.
import QueueFlow.Frame
import QueueFlow.Fencing.Lease

/-!
# Moves of a row

`DbMove` says which statement changes the database. `RowMove` says the same of one
row, in terms of its values before and after, so that an invariant about single
rows is proved by one case for each statement.
-/

namespace QueueFlow

/-- The execution whose command takes effect, whether or not its reply arrives. -/
def Act.effective? : Act → Option Exec
  | .exec e _ => some e
  | .execFail e true _ _ => some e
  | _ => none

theorem Act.effective?_eq_some {a : Act} {e : Exec} (h : a.effective? = some e) :
    (∃ o, a = .exec e o) ∨ ∃ message random, a = .execFail e true message random := by
  cases a with
  | exec e' o =>
      cases h
      exact .inl ⟨o, rfl⟩
  | execFail e' took message random =>
      cases took <;> cases h
      exact .inr ⟨message, random, rfl⟩
  | _ => cases h

/-- The row of `job` goes from `r` to `r'`. -/
inductive RowMove (cfg : Config) (s : State) (a : Act) (job : Uuid) (r : JobRow) : JobRow → Prop where
  | same : RowMove cfg s a job r r
  | replayed (id : Text) (g : Uuid) (ha : a = .api (.replay id) g) (hid : uuidIn id = some job)
      (hdead : r.status = .dead) : RowMove cfg s a job r r.replayed
  | claimed (e : Exec) (m : Nat) (he : e ∈ s.execs) (ha : a.effective? = some e) (hpc : e.pc = .claim job m)
      (hclaimable : r.status.claimable = true) :
      RowMove cfg s a job r (r.claimed s.db.nextLease s.now)
  | settled (e : Exec) (h : Holding) (began : Nat) (he : e ∈ s.execs) (ha : a.effective? = some e)
      (hpc : e.pc = .txCommit h began) (hjob : h.job = job)
      (hlease : cfg.fencing = true → r.leaseId = some h.lease) :
      RowMove cfg s a job r (r.succeeded began)
  | buried (e : Exec) (h : Holding) (message : Text) (he : e ∈ s.execs) (ha : a.effective? = some e)
      (hpc : e.pc = .bury h message) (hjob : h.job = job)
      (hlease : cfg.fencing = true → r.leaseId = some h.lease) :
      RowMove cfg s a job r (r.buried message s.now)
  | parked (e : Exec) (h : Holding) (message : Text) (runAt : Nat) (he : e ∈ s.execs)
      (ha : a.effective? = some e) (hpc : e.pc = .park h message runAt) (hjob : h.job = job)
      (hlease : cfg.fencing = true → r.leaseId = some h.lease) :
      RowMove cfg s a job r (r.parked message runAt)
  | promoted (id : Text) (due : List Text) (pick : Pick) (hσ : .promoteUpdate id due ∈ s.scheds)
      (ha : a = .sched (.promoteUpdate id due) pick) (hid : uuidIn id = some job) :
      RowMove cfg s a job r r.promoted
  | reapBuried (key : WorkerId) (id : Text) (keys : List WorkerId) (pick : Pick)
      (hσ : .reapBury key id keys ∈ s.scheds) (ha : a = .sched (.reapBury key id keys) pick)
      (hid : uuidIn id = some job) : RowMove cfg s a job r (r.buried (stoppedResponding key) s.now)
  | reapRequeued (key : WorkerId) (id : Text) (keys : List WorkerId) (pick : Pick)
      (hσ : .reapRequeue key id keys ∈ s.scheds) (ha : a = .sched (.reapRequeue key id keys) pick)
      (hid : uuidIn id = some job) : RowMove cfg s a job r r.requeued
  | reset (w : WorkerId) (c : Nat) (stranded : List Text) (deadline : Bool)
      (ha : a = .recoverOwn w deadline) (hp : s.procs w = .starting (.reset stranded) c)
      (hrow : strandedRow stranded r = true) : RowMove cfg s a job r r.requeued

variable {cfg : Config} {s s' : State} {a : Act} {job : Uuid} {r r' : JobRow}

/-- A command that fails without having taken effect leaves the database alone. -/
private theorem db_of_lost {e : Exec} {message : Text} {random : Random}
    (h : fails cfg s e false message random = some s') : s'.db = s.db := by
  unfold fails at h
  split at h <;> cases h <;> rfl

private theorem effective_or_lost {e : Exec} (h : step cfg s a = some s') (ha : a.exec? = some e) :
    a.effective? = some e ∨ s'.db = s.db := by
  cases a with
  | exec => exact .inl ha
  | execFail e' took =>
      cases took with
      | true => exact .inl ha
      | false =>
          obtain ⟨-, h⟩ := Option.ite_none_right_eq_some.mp h
          exact .inr (db_of_lost h)
  | _ => cases ha

/-- An UPDATE by id sets the row of that id and no other. -/
private theorem rowMove_of_updateRow {job' : Uuid} {set : JobRow → JobRow} (hid : Db.KeepsId set)
    (hrow : (s.db.updateRow job' set).row job = some r')
    (hset : ∀ r, s.db.row job = some r → job' = job → RowMove cfg s a job r (set r)) :
    ∃ r, s.db.row job = some r ∧ RowMove cfg s a job r r' := by
  rw [Db.row_updateRow hid] at hrow
  split at hrow
  · rename_i hjob
    obtain ⟨r, hr, rfl⟩ := Option.map_eq_some_iff.mp hrow
    exact ⟨r, hr, hset r hr hjob.symm⟩
  · exact ⟨r', hrow, .same⟩

/-- A row is inserted, or one statement at most has set it. -/
theorem row_cases (lease : LeaseWf cfg s) (h : step cfg s a = some s')
    (hrow : s'.db.row job = some r') :
    (∃ key g, a = .api (.insert key) g ∧ s.db.row job = none ∧ r' = .inserted job key s.now) ∨
      ∃ r, s.db.row job = some r ∧ RowMove cfg s a job r r' := by
  by_cases hsame : s'.db = s.db
  · exact .inr ⟨r', hsame ▸ hrow, .same⟩
  have heffective {e : Exec} (ha : a.exec? = some e) : a.effective? = some e :=
    (effective_or_lost h ha).resolve_right hsame
  have hdb := db_cases h
  generalize s'.db = db at hdb hrow
  generalize s'.claims = claims at hdb
  cases hdb with
  | same => exact .inr ⟨r', hrow, .same⟩
  | inserted key g generated ha hnew =>
      rw [Db.row_insertJob hnew] at hrow
      split at hrow
      · rename_i hjob
        obtain rfl : job = generated := hjob
        exact .inl ⟨key, g, ha, hnew, (Option.some.inj hrow).symm⟩
      · exact .inr ⟨r', hrow, .same⟩
  | replayed id job' g r₀ ha hid hrow₀ hdead =>
      refine .inr (rowMove_of_updateRow Db.keepsId_replayed hrow fun r hr hjob => ?_)
      subst hjob
      obtain rfl := Option.some.inj (hrow₀.symm.trans hr)
      exact .replayed id g ha hid hdead
  | claimed e job' m r₀ he ha hpc hfree hrow₀ =>
      refine .inr (rowMove_of_updateRow (Db.keepsId_claimed _ _) hrow fun r hr hjob => ?_)
      subst hjob
      obtain ⟨hrow₀, hclaimable⟩ := State.claimableRow_some hrow₀
      obtain rfl := Option.some.inj (hrow₀.symm.trans hr)
      exact .claimed e m he (heffective ha) hpc hclaimable
  | settled e h began he ha hpc =>
      refine .inr (rowMove_of_updateRow (Db.keepsId_succeeded began) hrow fun r hr hjob => ?_)
      -- The transaction has locked a row that is its own.
      obtain ⟨r₀, hr₀, hown⟩ := State.ownRow_isSome.mp
        (lease.locking e he h (by rw [hpc]; rfl) (by rw [hpc]; rfl))
      obtain rfl := Option.some.inj ((hjob ▸ hr₀).symm.trans hr)
      exact .settled e h began he (heffective ha) hpc hjob hown
  | buried e h message r₀ he ha hpc hown =>
      refine .inr (rowMove_of_updateRow (Db.keepsId_buried _ _) hrow fun r hr hjob => ?_)
      obtain ⟨hr₀, hown⟩ := State.ownRow_some hown
      obtain rfl := Option.some.inj ((hjob ▸ hr₀).symm.trans hr)
      exact .buried e h message he (heffective ha) hpc hjob hown
  | parked e h message runAt r₀ he ha hpc hown =>
      refine .inr (rowMove_of_updateRow (Db.keepsId_parked _ _) hrow fun r hr hjob => ?_)
      obtain ⟨hr₀, hown⟩ := State.ownRow_some hown
      obtain rfl := Option.some.inj ((hjob ▸ hr₀).symm.trans hr)
      exact .parked e h message runAt he (heffective ha) hpc hjob hown
  | promoted id due job' pick hσ ha hid =>
      exact .inr (rowMove_of_updateRow Db.keepsId_promoted hrow fun r _ hjob =>
        .promoted id due pick hσ ha (hjob ▸ hid))
  | reapBuried key id keys job' pick hσ ha hid =>
      exact .inr (rowMove_of_updateRow (Db.keepsId_buried _ _) hrow fun r _ hjob =>
        .reapBuried key id keys pick hσ ha (hjob ▸ hid))
  | reapRequeued key id keys job' pick hσ ha hid =>
      exact .inr (rowMove_of_updateRow Db.keepsId_requeued hrow fun r _ hjob =>
        .reapRequeued key id keys pick hσ ha (hjob ▸ hid))
  | reset w c stranded deadline ha hp =>
      rw [Db.row_update Db.keepsId_requeued] at hrow
      obtain ⟨r, hr, rfl⟩ := Option.map_eq_some_iff.mp hrow
      refine .inr ⟨r, hr, ?_⟩
      split
      · rename_i hstranded
        exact .reset w c stranded deadline ha hp hstranded
      · exact .same

/-- A row that was there has made a move. -/
theorem rowMove_of_step (lease : LeaseWf cfg s) (h : step cfg s a = some s') (hrow : s.db.row job = some r) :
    ∃ r', s'.db.row job = some r' ∧ RowMove cfg s a job r r' := by
  obtain ⟨r', hrow'⟩ := row_of_step h hrow
  refine ⟨r', hrow', ?_⟩
  rcases row_cases lease h hrow' with ⟨key, g, -, hnone, -⟩ | ⟨r₀, hrow₀, hmove⟩
  · rw [hrow] at hnone
    cases hnone
  · obtain rfl := Option.some.inj (hrow.symm.trans hrow₀)
    exact hmove

theorem running_of_strandedRow {stranded : List Text} (h : strandedRow stranded r = true) :
    r.status = .running := by
  simp only [strandedRow, Bool.and_eq_true, decide_eq_true_eq] at h
  exact h.2

/-- A row keeps its attempt limit. -/
theorem RowMove.maxAttempts (h : RowMove cfg s a job r r') : r'.maxAttempts = r.maxAttempts := by
  cases h <;> rfl

/-- A row keeps the time of its insertion. -/
theorem RowMove.createdAt (h : RowMove cfg s a job r r') : r'.createdAt = r.createdAt := by
  cases h <;> rfl

/-! ## What a command that takes effect leaves -/

/-- The database after a command of an execution that matches a row. -/
theorem db_of_effective {e : Exec} (h : step cfg s a = some s') (ha : a.effective? = some e) :
    match e.pc with
    | .claim job _ => ∀ r ∈ s.claimableRow job, s'.db = s.db.claim job s.now
    | .txCommit h began => s'.db = (s.settle e h began).db
    | .bury h message => ∀ r ∈ s.ownRow cfg h, s'.db = s.db.updateRow h.job (.buried message s.now)
    | .park h message runAt => ∀ r ∈ s.ownRow cfg h, s'.db = s.db.updateRow h.job (.parked message runAt)
    | _ => s'.db = s.db := by
  cases a with
  | exec =>
      cases ha
      obtain ⟨-, h⟩ := Option.ite_none_right_eq_some.mp h
      cases hpc : e.pc with
      | claim | bury | park =>
          simp only [processOne, hpc] at h ⊢
          intro r hr
          rw [Option.mem_def] at hr
          rw [hr] at h
          split at h <;> cases h
          rfl
      | select | handler | txUpdate =>
          simp only [processOne, hpc] at h ⊢
          repeat' split at h
          all_goals cases h
          all_goals rfl
      | _ =>
          simp only [processOne, hpc] at h ⊢
          cases h
          rfl
  | execFail e' took =>
      cases took <;> cases ha
      obtain ⟨-, h⟩ := Option.ite_none_right_eq_some.mp h
      cases hpc : e.pc with
      | claim | bury | park =>
          simp only [fails, hpc, if_true] at h ⊢
          intro r hr
          rw [Option.mem_def] at hr
          rw [hr] at h
          split at h <;> cases h
          rfl
      | _ =>
          simp only [fails, hpc, if_true] at h ⊢
          cases h <;> rfl
  | _ => cases ha

end QueueFlow
