-- SUMMARY: The Postgres side: the tables jobs and job_effects, and lookups and keyed updates on them.
import QueueFlow.Shared.Types

/-!
# Postgres

`jobs` is the list of its rows, oldest insertion first, and `UPDATE … WHERE` maps
over it. The primary key is `id`; `row` looks a row up by it. What an update does
to each row is stated by `row_update`, which the lemmas about the individual
statements instantiate.
-/

namespace QueueFlow

structure Db where
  jobs : List JobRow
  effects : List Effect
  /-- How often `gen_random_uuid()` has been called; its values never repeat. -/
  nextLease : Nat
  deriving DecidableEq, Repr

namespace Db

def empty : Db := ⟨[], [], 0⟩

/-- `SELECT … FROM jobs WHERE id = $1`. -/
def row (db : Db) (id : Uuid) : Option JobRow := db.jobs.find? fun r => r.id = id

/-- `UPDATE jobs SET set WHERE where`. -/
def update (db : Db) (whr : JobRow → Bool) (set : JobRow → JobRow) : Db :=
  { db with jobs := db.jobs.map fun r => if whr r then set r else r }

/-- `UPDATE jobs SET set WHERE id = $1 AND …`, for a row already known to match. -/
def updateRow (db : Db) (id : Uuid) (set : JobRow → JobRow) : Db :=
  db.update (fun r => r.id = id) set

/-- The claim: `lease_id = gen_random_uuid()` is a value that no row ever had. -/
def claim (db : Db) (id : Uuid) (now : Nat) : Db :=
  { db.updateRow id (.claimed db.nextLease now) with nextLease := db.nextLease + 1 }

/-- `INSERT INTO jobs …`. -/
def insertJob (db : Db) (r : JobRow) : Db := { db with jobs := db.jobs ++ [r] }

/-- `INSERT INTO job_effects (job_id, worker_id) VALUES ($1, $2)`. -/
def insertEffect (db : Db) (e : Effect) : Db := { db with effects := e :: db.effects }

/-- How many effects are recorded for a job. -/
def effectsFor (db : Db) (id : Uuid) : Nat := db.effects.countP fun e => e.jobId = id

/-- The SET clauses keep the primary key. -/
def KeepsId (set : JobRow → JobRow) : Prop := ∀ r, (set r).id = r.id

theorem keepsId_claimed (lease now : Nat) : KeepsId (.claimed lease now) := fun _ => rfl
theorem keepsId_succeeded (now : Nat) : KeepsId (.succeeded now) := fun _ => rfl
theorem keepsId_buried (message : Text) (now : Nat) : KeepsId (.buried message now) := fun _ => rfl
theorem keepsId_parked (message : Text) (runAt : Nat) : KeepsId (.parked message runAt) :=
  fun _ => rfl
theorem keepsId_promoted : KeepsId .promoted := fun _ => rfl
theorem keepsId_requeued : KeepsId .requeued := fun _ => rfl
theorem keepsId_replayed : KeepsId .replayed := fun _ => rfl

variable {db : Db} {id id' : Uuid} {set : JobRow → JobRow} {whr : JobRow → Bool} {r : JobRow}

theorem id_of_row (h : db.row id = some r) : r.id = id := by
  simpa using List.find?_some h

theorem row_mem (h : db.row id = some r) : r ∈ db.jobs := List.mem_of_find?_eq_some h

theorem row_isSome_of_mem (h : r ∈ db.jobs) : ∃ r', db.row r.id = some r' :=
  Option.isSome_iff_exists.mp (by simp only [row, List.find?_isSome]; exact ⟨r, h, by simp⟩)

theorem row_update (hset : KeepsId set) :
    (db.update whr set).row id = (db.row id).map fun r => if whr r then set r else r := by
  have hid : (fun r : JobRow => decide (r.id = id)) ∘ (fun r => if whr r then set r else r)
      = fun r => decide (r.id = id) := by
    funext r
    simp only [Function.comp]
    split
    · rw [hset r]
    · rfl
  simp only [row, update, List.find?_map, hid]

theorem row_updateRow_self (hset : KeepsId set) (h : db.row id = some r) :
    (db.updateRow id set).row id = some (set r) := by
  simp [updateRow, row_update hset, h, id_of_row h]

theorem row_updateRow_ne (hset : KeepsId set) (hne : id' ≠ id) :
    (db.updateRow id set).row id' = db.row id' := by
  rw [updateRow, row_update hset]
  cases h : db.row id' with
  | none => rfl
  | some r =>
      have : r.id ≠ id := fun heq => hne ((id_of_row h).symm.trans heq)
      simp [this]

theorem row_updateRow (hset : KeepsId set) :
    (db.updateRow id set).row id' =
      if id' = id then (db.row id').map set else db.row id' := by
  split
  · rename_i heq
    subst heq
    cases h : db.row id' with
    | none => simp [updateRow, row_update hset, h]
    | some r => simpa using row_updateRow_self hset h
  · rename_i hne
    exact row_updateRow_ne hset hne

theorem row_insertJob (h : db.row r.id = none) :
    (db.insertJob r).row id = if id = r.id then some r else db.row id := by
  by_cases hid : id = r.id
  · subst hid
    simp only [row] at h
    simp [row, insertJob, h]
  · have hne : ¬ r.id = id := fun heq => hid heq.symm
    simp [row, insertJob, hid, hne]

@[simp] theorem effects_update : (db.update whr set).effects = db.effects := rfl
@[simp] theorem effects_updateRow : (db.updateRow id set).effects = db.effects := rfl
@[simp] theorem effects_insertJob : (db.insertJob r).effects = db.effects := rfl
@[simp] theorem nextLease_update : (db.update whr set).nextLease = db.nextLease := rfl
@[simp] theorem nextLease_updateRow : (db.updateRow id set).nextLease = db.nextLease := rfl
@[simp] theorem nextLease_insertJob : (db.insertJob r).nextLease = db.nextLease := rfl

@[simp] theorem effects_claim {now : Nat} : (db.claim id now).effects = db.effects := rfl
@[simp] theorem nextLease_claim {now : Nat} : (db.claim id now).nextLease = db.nextLease + 1 := rfl

theorem row_claim {now : Nat} : (db.claim id now).row id' =
    (db.updateRow id (.claimed db.nextLease now)).row id' := rfl

@[simp] theorem nextLease_insertEffect (e : Effect) :
    (db.insertEffect e).nextLease = db.nextLease := rfl

@[simp] theorem row_insertEffect (e : Effect) : (db.insertEffect e).row id = db.row id := rfl

theorem effectsFor_insertEffect (e : Effect) :
    (db.insertEffect e).effectsFor id = db.effectsFor id + if e.jobId = id then 1 else 0 := by
  simp [effectsFor, insertEffect, List.countP_cons]

end Db

end QueueFlow
