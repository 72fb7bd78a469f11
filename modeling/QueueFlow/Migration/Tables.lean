-- SUMMARY: What the tables hold in a state of the system, and that they meet every constraint of the schema in every run.
import QueueFlow.Api.Idempotency
import QueueFlow.Api.Repeats
import QueueFlow.Migration.Schema
import QueueFlow.Rows.Holdings

/-!
# The tables of the system

The statements of the system are modelled without the constraints of `schema.sql`. Here the rows are written out
column by column. In every run they meet NOT NULL, the keys, the CHECK and the foreign key, so that no statement is
refused by one of these, and the schema can be applied again while the system runs. What a type can hold is left
out: a text with U+0000 is refused by the type of its column.
-/

namespace QueueFlow

open Transition

section

variable (submitted : Uuid → Text × Text) (drawn : Nat → Uuid)

/-- The columns of a row of `jobs`. `submitted` gives the type and the payload of a job, `drawn` what the calls of
`gen_random_uuid()` have returned. -/
def JobRow.fields (r : JobRow) : List (Text × Option Datum) :=
  [("id".toList, some (.uuid r.id)),
    ("type".toList, some (.text (submitted r.id).1)),
    ("payload".toList, some (.jsonb (submitted r.id).2)),
    ("status".toList, some (.text r.status.text)),
    ("attempts".toList, some (.int r.attempts)),
    ("max_attempts".toList, some (.int r.maxAttempts)),
    ("last_error".toList, r.lastError.map .text),
    ("idempotency_key".toList, r.idempotencyKey.map .text),
    ("created_at".toList, some (.timestamptz r.createdAt)),
    ("started_at".toList, r.startedAt.map .timestamptz),
    ("completed_at".toList, r.completedAt.map .timestamptz),
    ("next_run_at".toList, r.nextRunAt.map .timestamptz),
    ("lease_id".toList, (r.leaseId.map drawn).map .uuid)]

def Effect.fields (f : Effect) : List (Text × Option Datum) :=
  [("job_id".toList, some (.uuid f.jobId)),
    ("worker_id".toList, some (.text f.workerId)),
    ("ran_at".toList, some (.timestamptz f.ranAt))]

def Db.rows (db : Db) (name : Text) : List SqlRow :=
  if name = Schema.jobs then db.jobs.map fun r => .of (r.fields submitted drawn)
  else if name = Schema.job_effects then db.effects.map fun f => .of f.fields
  else []

/-- The database in a state of the system. -/
def State.database (s : State) : SqlDatabase := ⟨Schema.newest, s.db.rows submitted drawn⟩

/-- The row that the `INSERT` of `POST /jobs` adds, with the defaults of the schema in the other columns. -/
theorem JobRow.inserted_fields (id : Uuid) (key : Option Text) (now : Nat) :
    .of ((JobRow.inserted id key now).fields submitted drawn) = Schema.jobsTable.newRow (.timestamptz now)
      [("id".toList, some (.uuid id)), ("type".toList, some (.text (submitted id).1)),
        ("payload".toList, some (.jsonb (submitted id).2)), ("status".toList, some (.text JobStatus.queued.text)),
        ("idempotency_key".toList, key.map .text)] :=
  rfl

/-- The row that the `INSERT` of `processOne` adds, in a transaction begun at `now`. -/
theorem Effect.fields_inserted (job : Uuid) (w : WorkerId) (now : Nat) :
    .of (Effect.mk job w now).fields = Schema.createEffects.newRow (.timestamptz now)
      [("job_id".toList, some (.uuid job)), ("worker_id".toList, some (.text w))] :=
  rfl

end

variable {submitted : Uuid → Text × Text} {drawn : Nat → Uuid} {cfg : Config} {s s' : State} {a : Act} {db : Db}

/-! ## The constraints -/

/-- What the keys of the two tables say, in terms of the rows. -/
structure KeysWf (db : Db) : Prop where
  ids : (db.jobs.map (·.id)).Nodup
  keys : (db.jobs.filterMap (·.idempotencyKey)).Nodup
  effects : ∀ f ∈ db.effects, ∃ r ∈ db.jobs, r.id = f.jobId

theorem effects_cases (h : step cfg s a = some s') : s'.db.effects = s.db.effects ∨
    ∃ e ∈ s.execs, ∃ hold began, e.pc = .txCommit hold began ∧
      s'.db.effects = ⟨hold.job, e.worker, began⟩ :: s.db.effects := by
  have hdb := db_cases h
  generalize s'.db = db at hdb
  generalize s'.claims = claims at hdb
  cases hdb with
  | settled e hold began he _ hpc => exact .inr ⟨e, he, hold, began, hpc, rfl⟩
  | same | inserted | replayed | claimed | buried | parked | promoted | reapBuried | reapRequeued | reset =>
      exact .inl rfl

/-- An effect is of a job that there is. -/
private theorem effects_of_step (effects : ∀ f ∈ s.db.effects, ∃ r ∈ s.db.jobs, r.id = f.jobId) (holding : HoldingWf s)
    (h : step cfg s a = some s') : ∀ f ∈ s'.db.effects, ∃ r ∈ s'.db.jobs, r.id = f.jobId := by
  have hstays {job : Uuid} (hjob : ∃ r ∈ s.db.jobs, r.id = job) : ∃ r ∈ s'.db.jobs, r.id = job := by
    obtain ⟨r, hr, rfl⟩ := hjob
    obtain ⟨r', hr', hid, -⟩ := (changes_of_step h).exists_row hr
    exact ⟨r', hr', hid⟩
  intro f hf
  rcases effects_cases h with heq | ⟨e, he, hold, began, hpc, heq⟩ <;> rw [heq] at hf
  · exact hstays (effects f hf)
  · rcases List.mem_cons.mp hf with rfl | hf
    · obtain ⟨r, hrow, -⟩ := (holding.knows e he).held hold (by rw [hpc]; rfl)
      exact hstays ⟨r, Db.row_mem hrow, Db.id_of_row hrow⟩
    · exact hstays (effects f hf)

theorem keysWf_of_reaches {ok : State → Act → Prop} (hrun : Reaches cfg ok s) : KeysWf s.db := by
  obtain ⟨log, hlog⟩ := Run.observed hrun submissions ⟨[], []⟩
  have submit : SubmitWf s log := hlog.invariant .init fun _ _ _ _ wf _ h => wf.step h
  have hinv : LeaseWf cfg s ∧ HoldingWf s ∧ (s.db.jobs.map (·.id)).Nodup ∧
      ∀ f ∈ s.db.effects, ∃ r ∈ s.db.jobs, r.id = f.jobId := by
    refine hrun.invariant (P := fun s => LeaseWf cfg s ∧ HoldingWf s ∧ (s.db.jobs.map (·.id)).Nodup ∧
      ∀ f ∈ s.db.effects, ∃ r ∈ s.db.jobs, r.id = f.jobId) ⟨.init, .init, List.nodup_nil, by rintro _ ⟨⟩⟩ ?_
    rintro t b u ⟨lease, holding, ids, effects⟩ _ h
    exact ⟨lease.step h, holding.step lease h, (changes_of_step h).nodup ids, effects_of_step effects holding h⟩
  refine ⟨hinv.2.2.1, List.nodup_iff_count_le_one.mpr fun k => ?_, hinv.2.2.2⟩
  have hcount : (s.db.jobs.filterMap (·.idempotencyKey)).count k = s.identities.countP (fun p => p.1 = some k) := by
    rw [List.count, List.countP_filterMap, State.identities, List.countP_map]
    refine List.countP_congr fun r _ => ?_
    cases hkey : r.idempotencyKey <;> simp [JobRow.identity, hkey]
  exact hcount ▸ submit.keys k

/-! ## The rows fit -/

private theorem jobs_isField (r : JobRow) :
    List.Forall₂ (Ddl.Table.IsField SqlType.any) Schema.jobsTable.columns (r.fields submitted drawn) :=
  .cons (.given rfl) (.cons (.given rfl) (.cons (.given rfl) (.cons (.given rfl)
    (.cons (.given rfl) (.cons (.given rfl) (.cons (.optional fun _ => rfl)
      (.cons (.optional fun _ => rfl) (.cons (.given rfl) (.cons (.optional fun _ => rfl)
        (.cons (.optional fun _ => rfl) (.cons (.optional fun _ => rfl)
          (.cons (.optional fun _ => rfl) .nil))))))))))))

private theorem effects_isField (f : Effect) :
    List.Forall₂ (Ddl.Table.IsField SqlType.any) Schema.createEffects.columns f.fields :=
  .cons (.given rfl) (.cons (.given rfl) (.cons (.given rfl) .nil))

private theorem rows_jobs : db.rows submitted drawn Schema.jobs = db.jobs.map fun r => .of (r.fields submitted drawn) :=
  if_pos rfl

private theorem rows_effects : db.rows submitted drawn Schema.job_effects = db.effects.map fun f => .of f.fields := by
  rw [Db.rows, if_neg (by decide +kernel), if_pos rfl]

theorem jobs_fits (wf : KeysWf db) :
    Schema.jobsTable.Fits SqlType.any (db.rows submitted drawn) Schema.jobs := by
  refine .of_fields (by decide +kernel) (fun r hr => ?_) ?_
  · rw [rows_jobs] at hr
    obtain ⟨r, -, rfl⟩ := List.mem_map.mp hr
    exact ⟨_, jobs_isField r, rfl⟩
  · simp only [Schema.jobsTable, List.forall_mem_cons]
    refine ⟨?_, ?_, ?_, by rintro _ ⟨⟩⟩
    · show List.Nodup _
      rw [rows_jobs, List.filterMap_map]
      have hids : (db.jobs.filterMap fun r => some (Datum.uuid r.id)) = (db.jobs.map (·.id)).map .uuid := by
        rw [List.filterMap_eq_map', List.map_map]
        rfl
      exact hids ▸ wf.ids.map fun _ _ => Datum.uuid.inj
    · show List.Nodup _
      rw [rows_jobs, List.filterMap_map]
      have hkeys : (db.jobs.filterMap fun r => r.idempotencyKey.map Datum.text) =
          (db.jobs.filterMap (·.idempotencyKey)).map .text := List.map_filterMap.symm
      exact hkeys ▸ wf.keys.map fun _ _ => Datum.text.inj
    · intro r hr v hv
      rw [rows_jobs] at hr
      obtain ⟨r, -, rfl⟩ := List.mem_map.mp hr
      obtain rfl : Datum.text r.status.text = v := Option.some.inj hv
      exact List.mem_map.mpr ⟨r.status, by cases r.status <;> decide, rfl⟩

theorem effects_fits (wf : KeysWf db) :
    Schema.createEffects.Fits SqlType.any (db.rows submitted drawn) Schema.job_effects := by
  refine .of_fields (by decide +kernel) (fun r hr => ?_) ?_
  · rw [rows_effects] at hr
    obtain ⟨f, -, rfl⟩ := List.mem_map.mp hr
    exact ⟨_, effects_isField f, rfl⟩
  · simp only [Schema.createEffects, List.forall_mem_cons]
    refine ⟨?_, by rintro _ ⟨⟩⟩
    intro r hr v hv
    rw [rows_effects] at hr
    obtain ⟨f, hf, rfl⟩ := List.mem_map.mp hr
    obtain rfl : Datum.uuid f.jobId = v := Option.some.inj hv
    obtain ⟨r, hr, hid⟩ := wf.effects f hf
    rw [rows_jobs]
    exact ⟨_, List.mem_map_of_mem hr, congrArg (fun u => some (Datum.uuid u)) hid⟩

/-- In every run the tables meet the constraints of the newest schema, and applying the schema again, at any time,
is accepted and changes nothing. -/
theorem migrate_at_any_time {ok : State → Act → Prop} (hrun : Reaches cfg ok s) :
    (s.database submitted drawn).Valid SqlType.any ∧
      Schema.migrate (s.database submitted drawn) = some (s.database submitted drawn) := by
  have wf := keysWf_of_reaches hrun
  have hvalid : (s.database submitted drawn).Valid SqlType.any := by
    refine ⟨fun name t ht => ?_, fun name hname => ?_⟩
    · change Schema.newest.table? name = some t at ht
      rw [Schema.newest, Schema.table?_eq] at ht
      split at ht
      · rename_i hjobs
        cases ht
        exact hjobs ▸ jobs_fits wf
      · obtain ⟨heffects, ht⟩ := Option.ite_none_right_eq_some.mp ht
        cases ht
        exact heffects ▸ effects_fits wf
    · change Schema.newest.table? name = none at hname
      rw [Schema.newest, Schema.table?_eq] at hname
      split at hname
      · cases hname
      · rename_i hjobs
        have heffects : name ≠ Schema.job_effects := by
          intro heq
          rw [if_pos heq] at hname
          cases hname
        show s.db.rows submitted drawn name = []
        rw [Db.rows, if_neg hjobs, if_neg heffects]
  exact ⟨hvalid, Schema.migrate_eq_some Schema.versionAt_length (by decide +kernel) hvalid⟩

/-- A worker has done one job and holds another one, and a third job waits for its retry. -/
theorem migrate_at_any_time_busy : ∃ s, Reaches Script.defaults always s ∧
    (s.db.jobs.map (·.status) = [.succeeded, .retrying, .running] ∧ s.db.effects.length = 1) ∧
      Schema.migrate (s.database (fun _ => ("sleep".toList, "\x7b\"ms\":1\x7d".toList)) fun _ => Script.job 9) =
        some (s.database (fun _ => ("sleep".toList, "\x7b\"ms\":1\x7d".toList)) fun _ => Script.job 9) := by
  have hplay : ∃ s, Reaches Script.defaults (fun _ _ => True) s ∧
      s.db.jobs.map (·.status) = [.succeeded, .retrying, .running] ∧ s.db.effects.length = 1 :=
    exists_run_of_play (Script.start ['a'] ++ Script.submit (Script.job 1) ++ Script.takes ['a'] 8 ++
      Script.submit (Script.job 2) ++ Script.throws ['a'] 3 ++ Script.submit (Script.job 3) ++ Script.takes ['a'] 2)
      (by decide +kernel)
  obtain ⟨s, hrun, hrows⟩ := hplay
  exact ⟨s, hrun, hrows, (migrate_at_any_time hrun).2⟩

end QueueFlow
