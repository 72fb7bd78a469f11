-- SUMMARY: schema.sql statement by statement, and what applying it does to a database of any version.
import QueueFlow.Api.Params
import QueueFlow.Lib.Ddl
import QueueFlow.Shared.Types

/-!
# The schema

`npm run db:migrate` executes the whole of `schema.sql`, in one transaction, whatever is there already. The file
has grown at its end: an earlier version of the database is what the first statements make of an empty one, with
any rows that fit.
-/

namespace QueueFlow

inductive SqlType where
  | uuid
  | text
  | jsonb
  | int
  | timestamptz
  deriving DecidableEq

/-- A value other than NULL. Which of them a type can hold is left to a parameter of the results. -/
inductive Datum where
  | uuid (u : Uuid)
  | text (t : Text)
  | jsonb (document : Text)
  | int (n : Int)
  /-- In microseconds. -/
  | timestamptz (t : Nat)
  deriving DecidableEq

/-- Any value, whatever the type: the constraints that remain are NOT NULL, the keys, the CHECK and the foreign key. -/
def SqlType.any (_ : SqlType) (_ : Datum) : Bool := true

abbrev SqlColumn := Ddl.Column Text SqlType Datum
abbrev SqlTable := Ddl.Table Text SqlType Datum
abbrev SqlStmt := Ddl.Stmt Text SqlType Datum
abbrev SqlCatalog := Ddl.Catalog Text SqlType Datum
abbrev SqlDatabase := Ddl.Database Text SqlType Datum
abbrev SqlRow := Ddl.Row Text Datum

namespace Schema

/-! ## `schema.sql` -/

def jobs : Text := "jobs".toList
def job_effects : Text := "job_effects".toList

def nullable (name : Text) (type : SqlType) : SqlColumn := ⟨name, type, false, .null⟩

def notNull (name : Text) (type : SqlType) : SqlColumn := ⟨name, type, true, .null⟩

def withDefault (name : Text) (type : SqlType) (default : Ddl.Default Datum) : SqlColumn := ⟨name, type, true, default⟩

/-- `CHECK (status IN (…))`. -/
def statusIn (statuses : List JobStatus) : Ddl.Constraint Text Datum :=
  .oneOf "status".toList (statuses.map fun st => .text st.text)

def createJobs : SqlTable where
  columns := [notNull "id".toList .uuid, notNull "type".toList .text, notNull "payload".toList .jsonb,
    notNull "status".toList .text, withDefault "attempts".toList .int (.value (.int 0)),
    withDefault "max_attempts".toList .int (.value (.int defaultMaxAttempts)), nullable "last_error".toList .text,
    nullable "idempotency_key".toList .text, withDefault "created_at".toList .timestamptz .now,
    nullable "started_at".toList .timestamptz, nullable "completed_at".toList .timestamptz]
  constraints := [("jobs_pkey".toList, .unique "id".toList),
    ("jobs_status_check".toList, statusIn [.queued, .running, .succeeded, .failed, .dead]),
    ("jobs_idempotency_key_key".toList, .unique "idempotency_key".toList)]

def createEffects : SqlTable where
  columns := [notNull "job_id".toList .uuid, notNull "worker_id".toList .text,
    withDefault "ran_at".toList .timestamptz .now]
  constraints := [("job_effects_job_id_fkey".toList, .references "job_id".toList jobs "id".toList)]

/-- `WHERE status = '…'` of a partial index. -/
def whereStatus (st : JobStatus) : Option (Text × Datum) := some ("status".toList, .text st.text)

def dropStatusCheck : SqlStmt := .dropConstraint jobs "jobs_status_check".toList

def addStatusCheck : SqlStmt := .addConstraint jobs "jobs_status_check".toList
  (statusIn [.queued, .running, .retrying, .succeeded, .failed, .dead])

def statements : List SqlStmt :=
  [.createTable jobs createJobs,
    .createIndex "jobs_status_created_idx".toList ⟨jobs, ["status".toList, "created_at".toList], none⟩,
    .createTable job_effects createEffects,
    .createIndex "job_effects_job_id_idx".toList ⟨job_effects, ["job_id".toList], none⟩,
    .addColumn jobs "next_run_at".toList .timestamptz,
    dropStatusCheck,
    addStatusCheck,
    .createIndex "jobs_next_run_at_idx".toList ⟨jobs, ["next_run_at".toList], whereStatus .retrying⟩,
    .addColumn jobs "lease_id".toList .uuid,
    .createIndex "jobs_running_idx".toList ⟨jobs, ["started_at".toList], whereStatus .running⟩,
    .createIndex "jobs_created_at_id_idx".toList ⟨jobs, ["created_at".toList, "id".toList], none⟩,
    .dropIndex "jobs_status_created_idx".toList,
    .createIndex "jobs_status_created_id_idx".toList
      ⟨jobs, ["status".toList, "created_at".toList, "id".toList], none⟩]

/-- `pool.query(sql)`: if a statement is refused, nothing has happened. -/
def migrate (d : SqlDatabase) : Option SqlDatabase := d.run statements

/-- What the first statements of the file make of an empty database. -/
def versionAt (k : Nat) : Option SqlCatalog := Ddl.Catalog.empty.alterAll (statements.take k)

/-- The table that `createJobs` has become. -/
def jobsTable : SqlTable where
  columns := createJobs.columns ++ [nullable "next_run_at".toList .timestamptz, nullable "lease_id".toList .uuid]
  constraints := [("jobs_pkey".toList, .unique "id".toList),
    ("jobs_idempotency_key_key".toList, .unique "idempotency_key".toList),
    ("jobs_status_check".toList, statusIn JOB_STATUSES)]

/-- The catalog once the whole file has been applied. -/
def newest : SqlCatalog where
  tables := [(jobs, jobsTable), (job_effects, createEffects)]
  indexes := [("job_effects_job_id_idx".toList, ⟨job_effects, ["job_id".toList], none⟩),
    ("jobs_next_run_at_idx".toList, ⟨jobs, ["next_run_at".toList], whereStatus .retrying⟩),
    ("jobs_running_idx".toList, ⟨jobs, ["started_at".toList], whereStatus .running⟩),
    ("jobs_created_at_id_idx".toList, ⟨jobs, ["created_at".toList, "id".toList], none⟩),
    ("jobs_status_created_id_idx".toList, ⟨jobs, ["status".toList, "created_at".toList, "id".toList], none⟩)]

/-- The catalog has these two tables. -/
theorem table?_eq (t u : SqlTable) (indexes : List (Text × Ddl.Index Text Datum)) (name : Text) :
    Ddl.Catalog.table? ⟨[(jobs, t), (job_effects, u)], indexes⟩ name =
      if name = jobs then some t else if name = job_effects then some u else none := by
  simp only [Ddl.Catalog.table?, List.find?_cons, List.find?_nil, eq_comm]
  by_cases hjobs : name = jobs
  · simp [hjobs]
  · rw [if_neg hjobs, decide_eq_false hjobs]
    by_cases heffects : name = job_effects <;> simp [heffects]

/-! ## From any version -/

section

variable {k : Nat} {d : SqlDatabase} {c : SqlCatalog} {fits : SqlType → Datum → Bool}

theorem versionAt_length : versionAt statements.length = some newest := by decide +kernel

private theorem versionAt_of_le (h : statements.length ≤ k) : versionAt k = some newest := by
  rw [← versionAt_length, versionAt, versionAt, List.take_of_length_le h, List.take_length]

/-- The file brings every version to the newest one. -/
theorem alterAll_statements (h : versionAt k = some c) : c.alterAll statements = some newest := by
  have hall : ∀ k < statements.length + 1, (versionAt k).bind (fun c => c.alterAll statements) = some newest := by
    decide +kernel
  rcases Nat.lt_or_ge k (statements.length + 1) with hk | hk
  · have hbind := hall k hk
    rw [h] at hbind
    exact hbind
  · obtain rfl : newest = c := Option.some.inj ((versionAt_of_le (Nat.le_of_succ_le hk)).symm.trans h)
    have hbind := hall statements.length (Nat.lt_succ_self _)
    rw [versionAt_length] at hbind
    exact hbind

/-- Every version checks the status, unless it ends between the `DROP CONSTRAINT` and the `ADD CONSTRAINT`. -/
private theorem statusCheck_of_version (h : versionAt k = some c)
    (hk : (statements.take k).getLast? ≠ some dropStatusCheck)
    {t : SqlTable} (ht : c.table? jobs = some t) :
    ∃ e ∈ t.constraints,
      e.2 = statusIn [.queued, .running, .succeeded, .failed, .dead] ∨ e.2 = statusIn JOB_STATUSES := by
  have hall : ∀ k < statements.length + 1, (statements.take k).getLast? ≠ some dropStatusCheck →
      ((versionAt k).bind fun c => c.table? jobs).all (fun t => t.constraints.any fun e =>
        e.2 = statusIn [.queued, .running, .succeeded, .failed, .dead] ∨ e.2 = statusIn JOB_STATUSES) = true := by
    decide +kernel
  have hchecked : t.constraints.any (fun e =>
      e.2 = statusIn [.queued, .running, .succeeded, .failed, .dead] ∨ e.2 = statusIn JOB_STATUSES) = true := by
    rcases Nat.lt_or_ge k (statements.length + 1) with hlt | hge
    · have hat := hall k hlt hk
      rw [h, Option.bind_some, ht] at hat
      exact hat
    · have hat := hall statements.length (Nat.lt_succ_self _) (by decide +kernel)
      obtain rfl : newest = c := Option.some.inj ((versionAt_of_le (Nat.le_of_succ_le hge)).symm.trans h)
      rw [versionAt_length, Option.bind_some, ht] at hat
      exact hat
  obtain ⟨e, he, heq⟩ := List.any_eq_true.mp hchecked
  exact ⟨e, he, of_decide_eq_true heq⟩

/-- The only statement that the rows can stand in the way of. -/
private theorem admits_or_addStatusCheck {st : SqlStmt} (h : st ∈ statements) :
    (∀ rows, st.Admits rows) ∨ st = addStatusCheck := by
  simp only [statements, List.mem_cons, List.not_mem_nil, or_false] at h
  rcases h with rfl | rfl | rfl | rfl | rfl | rfl | rfl | rfl | rfl | rfl | rfl | rfl | rfl
  case inr.inr.inr.inr.inr.inr.inl => exact .inr rfl
  all_goals exact .inl fun _ => trivial

private theorem statuses_of_valid (hversion : versionAt k = some d.catalog)
    (hk : (statements.take k).getLast? ≠ some dropStatusCheck) (hvalid : d.Valid fits) :
    (statusIn JOB_STATUSES).Holds d.rows jobs := by
  cases ht : d.catalog.table? jobs with
  | none =>
      have hrows := hvalid.others jobs ht
      simp [statusIn, Ddl.Constraint.Holds, hrows]
  | some t =>
      obtain ⟨e, he, heq⟩ := statusCheck_of_version hversion hk ht
      have hholds := (hvalid.tables jobs t ht).constraints e he
      rcases heq with heq | heq <;> rw [heq] at hholds
      · exact hholds.mono (List.map_subset _ (by decide))
      · exact hholds

theorem migrate_eq_some (hversion : versionAt k = some d.catalog)
    (hk : (statements.take k).getLast? ≠ some dropStatusCheck) (hvalid : d.Valid fits) :
    migrate d = some ⟨newest, d.rows⟩ := by
  refine Ddl.Database.run_eq_some.mpr ⟨fun st hst => ?_, alterAll_statements hversion, rfl⟩
  rcases admits_or_addStatusCheck hst with h | rfl
  · exact h d.rows
  · exact statuses_of_valid hversion hk hvalid

/-- A database of any version, with any rows that fit it, is brought to the newest version: the file is
accepted, every row stays as it is, with NULL in the new columns, and applying the file again changes nothing. -/
theorem migrate_from_any_version (hversion : versionAt k = some d.catalog)
    (hk : (statements.take k).getLast? ≠ some dropStatusCheck) (hvalid : d.Valid fits) :
    ∃ d', migrate d = some d' ∧ d'.catalog = newest ∧ d'.rows = d.rows ∧ d'.Valid fits ∧
      migrate d' = some d' := by
  have hmigrate := migrate_eq_some hversion hk hvalid
  have hvalid' : Ddl.Database.Valid fits ⟨newest, d.rows⟩ := hvalid.run hmigrate
  exact ⟨⟨newest, d.rows⟩, hmigrate, rfl, rfl, hvalid', migrate_eq_some versionAt_length (by decide +kernel) hvalid'⟩

end

private def someId : Uuid :=
  ⟨⟨0, 0, 0, 1⟩, ⟨0, 0, 0, 0⟩, ⟨0, 0, 0, 0⟩, ⟨4, 0, 0, 0⟩, ⟨8, 0, 0, 0⟩, ⟨0, 0, 0, 0⟩, ⟨0, 0, 0, 0⟩, ⟨0, 0, 0, 0⟩⟩

/-- The tables as they were first, and a job. -/
private def early : SqlDatabase where
  catalog := ⟨[(jobs, createJobs), (job_effects, createEffects)],
    [("jobs_status_created_idx".toList, ⟨jobs, ["status".toList, "created_at".toList], none⟩),
      ("job_effects_job_id_idx".toList, ⟨job_effects, ["job_id".toList], none⟩)]⟩
  rows name := if name = jobs then [createJobs.newRow (.timestamptz 5) [("id".toList, some (.uuid someId)),
    ("type".toList, some (.text "sleep".toList)), ("payload".toList, some (.jsonb "{}".toList)),
      ("status".toList, some (.text JobStatus.running.text))]] else []

private theorem early_valid : early.Valid SqlType.any := by
  refine ⟨fun name t ht => ?_, fun name hname => ?_⟩
  · simp only [early, table?_eq] at ht
    split at ht
    · rename_i hjobs
      cases ht
      subst hjobs
      refine .of_fields (by decide +kernel) (fun r hr => ?_) (by decide +kernel)
      obtain rfl := List.mem_singleton.mp hr
      refine ⟨_, ?_, rfl⟩
      unfold Ddl.Table.IsField
      decide +kernel
    · rename_i hjobs
      cases (Option.ite_none_right_eq_some.mp ht).2
      exact .of_nil (if_neg hjobs)
  · simp only [early, table?_eq] at hname
    split at hname
    · cases hname
    · rename_i hjobs
      exact if_neg hjobs

theorem migrate_from_any_version_early : ∃ d d', versionAt 4 = some d.catalog ∧ (d.rows jobs).length = 1 ∧
    migrate d = some d' ∧ d'.catalog = newest ∧ d'.rows = d.rows := by
  have hversion : versionAt 4 = some early.catalog := by decide +kernel
  obtain ⟨d', hmigrate, hcatalog, hrows, -⟩ := migrate_from_any_version hversion (by decide +kernel) early_valid
  exact ⟨early, d', hversion, rfl, hmigrate, hcatalog, hrows⟩

end Schema

end QueueFlow
