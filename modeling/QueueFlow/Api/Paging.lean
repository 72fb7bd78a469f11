-- SUMMARY: GET /jobs of api/index.ts: the statement, the handler, and the order of the rows.
import QueueFlow.Api.Params
import QueueFlow.Lib.Keyset

/-!
# A page of jobs

The column `created_at` has microseconds, the `Date` that node-postgres makes of it has milliseconds,
and the cursor is the text of that `Date`. Postgres reads the text back and compares it with the
column. Ids are compared as values; the cursor holds the text that Postgres writes for one.
-/

namespace QueueFlow

open Keyset IsoTime

/-! ## The statement -/

def Block.value (b : Block) : Nat :=
  b.w.val * 4096 + b.x.val * 256 + b.y.val * 16 + b.z.val

/-- The bytes of a uuid as one number, which is how Postgres compares two of them. -/
def Uuid.value (u : Uuid) : Nat :=
  [u.b₁, u.b₂, u.b₃, u.b₄, u.b₅, u.b₆, u.b₇].foldl (fun n b => n * 65536 + b.value) u.b₀.value

/-- `(created_at, id)`. -/
abbrev RowKey := ℤ ×ₗ ℕ

def JobRow.key (r : JobRow) : RowKey := toLex ((r.createdAt : ℤ), r.id.value)

/-- The table `jobs` with its primary key. -/
structure JobsTable where
  rows : List JobRow
  primaryKey : (rows.map JobRow.id).Nodup

/-- `status = $1`, where there is a filter. -/
def JobRow.matches (status : Option JobStatus) (r : JobRow) : Bool :=
  status.all fun s => r.status = s

/-- `ORDER BY created_at DESC, id DESC`. -/
def orderJobs (rows : List JobRow) : List JobRow := rows.insertionSort fun a b => b.key ≤ a.key

def selectJobs (table : JobsTable) (status : Option JobStatus) (cursor : Option RowKey)
    (limit : Nat) : List JobRow :=
  (orderJobs (table.rows.filter fun r => r.matches status && cursor.all (r.key < ·))).take limit

/-! ## The handler -/

inductive ListResponse where
  /-- `{ jobs, nextCursor }`; `rowToJob` only renames the columns. -/
  | page (jobs : List JobRow) (nextCursor : Option Text)
  /-- 400, `{ error }`. -/
  | badRequest (message : Text)
  /-- 500, `{ error: "internal error" }`. -/
  | internalError

/-- Postgres reads the two operands of the comparison; without a cursor there are none. -/
def bindCursor (rt : Runtime) : Option Cursor → Option (Option RowKey)
  | none => some none
  | some c => do
      let t ← rt.timestamptz c.t
      let id ← uuidIn c.id
      pure (some (toLex (t, id.value)))

/-- `GET /jobs`, once the parameters are read. -/
def listPage (rt : Runtime) (table : JobsTable) (status : Option JobStatus) (limit : Nat)
    (cursor : Option Cursor) : ListResponse :=
  match bindCursor rt cursor with
  | none => .internalError
  | some key =>
      let rows := selectJobs table status key (limit + 1)
      if limit < rows.length then
        match (rows.take limit).getLast? with
        | none => .page (rows.take limit) none
        | some last =>
            match toISOString (last.createdAt / 1000) with
            | none => .internalError
            | some t => .page (rows.take limit) (some (encodeCursor ⟨t, uuidOut last.id⟩))
      else .page rows none

/-- `GET /jobs?status=&limit=&cursor=`. -/
def listJobs (rt : Runtime) (table : JobsTable) (status limit cursor : QueryValue) : ListResponse :=
  match parseStatus status with
  | .error message => .badRequest message
  | .ok status =>
      match parseLimit rt limit 20 100 with
      | .error message => .badRequest message
      | .ok limit =>
          match decodeCursor rt cursor with
          | .error message => .badRequest message
          | .ok cursor => listPage rt table status limit cursor

/-! ## The order of the rows -/

theorem Block.value_lt (b : Block) : b.value < 65536 := by
  simp only [Block.value]
  omega

theorem Block.value_inj {b b' : Block} (h : b.value = b'.value) : b = b' := by
  obtain ⟨⟨w, _⟩, ⟨x, _⟩, ⟨y, _⟩, ⟨z, _⟩⟩ := b
  obtain ⟨⟨w', _⟩, ⟨x', _⟩, ⟨y', _⟩, ⟨z', _⟩⟩ := b'
  simp only [Block.value] at h
  simp only [Block.mk.injEq, Fin.mk.injEq]
  omega

theorem Uuid.value_inj {u v : Uuid} (h : u.value = v.value) : u = v := by
  obtain ⟨b₀, b₁, b₂, b₃, b₄, b₅, b₆, b₇⟩ := u
  obtain ⟨c₀, c₁, c₂, c₃, c₄, c₅, c₆, c₇⟩ := v
  simp only [Uuid.value, List.foldl_cons, List.foldl_nil] at h
  have hb := b₁.value_lt
  have hb := b₂.value_lt
  have hb := b₃.value_lt
  have hb := b₄.value_lt
  have hb := b₅.value_lt
  have hb := b₆.value_lt
  have hb := b₇.value_lt
  have hc := c₁.value_lt
  have hc := c₂.value_lt
  have hc := c₃.value_lt
  have hc := c₄.value_lt
  have hc := c₅.value_lt
  have hc := c₆.value_lt
  have hc := c₇.value_lt
  have hblocks : b₀.value = c₀.value ∧ b₁.value = c₁.value ∧ b₂.value = c₂.value ∧
      b₃.value = c₃.value ∧ b₄.value = c₄.value ∧ b₅.value = c₅.value ∧ b₆.value = c₆.value ∧
      b₇.value = c₇.value := by omega
  obtain ⟨h₀, h₁, h₂, h₃, h₄, h₅, h₆, h₇⟩ := hblocks
  rw [Block.value_inj h₀, Block.value_inj h₁, Block.value_inj h₂, Block.value_inj h₃,
    Block.value_inj h₄, Block.value_inj h₅, Block.value_inj h₆, Block.value_inj h₇]

theorem JobRow.id_eq_of_key {a b : JobRow} (h : a.key = b.key) : a.id = b.id :=
  Uuid.value_inj (congrArg (fun k : RowKey => (ofLex k).2) h)

theorem orderJobs_perm (rows : List JobRow) : (orderJobs rows).Perm rows :=
  List.perm_insertionSort _ rows

/-- No two rows have one key, so that the order is strict. -/
theorem orderJobs_descending {rows : List JobRow} (h : (rows.map JobRow.id).Nodup) :
    Descending JobRow.key (orderJobs rows) := by
  have hsorted : (orderJobs rows).Pairwise fun a b => b.key ≤ a.key :=
    List.pairwise_insertionSort _ rows
  have hids : (orderJobs rows).Pairwise fun a b => a.id ≠ b.id :=
    List.pairwise_map.mp (((orderJobs_perm rows).map JobRow.id).nodup_iff.mpr h)
  exact (hsorted.and hids).imp fun ⟨hle, hne⟩ =>
    lt_of_le_of_ne hle fun heq => hne (JobRow.id_eq_of_key heq).symm

/-- The rows that a request may return, in the order in which they are returned. -/
def JobsTable.matching (table : JobsTable) (status : Option JobStatus) : List JobRow :=
  orderJobs (table.rows.filter (JobRow.matches status))

variable {table : JobsTable} {status : Option JobStatus}

theorem JobsTable.nodup_filter (table : JobsTable) (p : JobRow → Bool) :
    ((table.rows.filter p).map JobRow.id).Nodup :=
  table.primaryKey.sublist (List.filter_sublist.map _)

theorem JobsTable.matching_descending (table : JobsTable) (status : Option JobStatus) :
    Descending JobRow.key (table.matching status) :=
  orderJobs_descending (table.nodup_filter _)

theorem mem_matching {r : JobRow} :
    r ∈ table.matching status ↔ r ∈ table.rows ∧ r.matches status = true := by
  rw [JobsTable.matching, (orderJobs_perm _).mem_iff, List.mem_filter]

/-- The statement returns the first rows below the cursor. -/
theorem selectJobs_eq (cursor : Option RowKey) (limit : Nat) :
    selectJobs table status cursor limit =
      (below JobRow.key cursor (table.matching status)).take limit := by
  have heq : orderJobs (table.rows.filter fun r => r.matches status && cursor.all (r.key < ·)) =
      below JobRow.key cursor (table.matching status) := by
    refine Descending.eq_of_perm (orderJobs_descending (table.nodup_filter _))
      (table.matching_descending status).below ((orderJobs_perm _).trans ?_)
    have hperm := (orderJobs_perm (table.rows.filter (JobRow.matches status))).symm.filter
      fun r => cursor.all (r.key < ·)
    rw [List.filter_filter] at hperm
    exact (List.Perm.of_eq (List.filter_congr fun r _ => Bool.and_comm _ _)).trans hperm
  rw [selectJobs, heq]

end QueueFlow
