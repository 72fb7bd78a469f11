-- SUMMARY: A client that follows nextCursor: it finds every job just when no cursor on its way skips one.
import QueueFlow.Api.Paging

/-!
# Walks over the pages

`walkJobs` follows the cursors over HTTP, while younger jobs are inserted. It is a walk of `Keyset`
with the cursors cut to milliseconds. The cursor of a row may therefore lie below the row itself, and
rows of the same millisecond that should come next are skipped.
-/

namespace QueueFlow

open Keyset IsoTime

/-- The jobs that so many requests return. Request `i` finds the table `tables i`, and the client
sends back the cursor that it was given. -/
def walkJobs (rt : Runtime) (status limit : QueryValue) (tables : Nat → JobsTable) :
    Nat → Nat → QueryValue → List JobRow × Progress
  | 0, _, _ => ([], .more)
  | m + 1, i, cursor =>
      match listJobs rt (tables i) status limit cursor with
      | .page jobs none => (jobs, .ended)
      | .page jobs (some next) =>
          let (rest, progress) := walkJobs rt status limit tables m (i + 1) (.single next)
          (jobs ++ rest, progress)
      | _ => ([], .refused)

/-- Postgres reads the texts of `toISOString` whose year has four digits, and no sign before a
year. -/
structure ReadsISO (rt : Runtime) : Prop where
  plain : ∀ ms t, toISOString ms = some t → year ms ≤ 9999 →
    rt.timestamptz t = some ((ms * 1000 : ℕ) : ℤ)
  signed : ∀ ms t, toISOString ms = some t → 9999 < year ms → rt.timestamptz t = none

/-- The key that a cursor cuts at, when the row is the last of its page. -/
def JobRow.cursorKey (r : JobRow) : RowKey :=
  toLex ((r.createdAt / 1000 * 1000 : ℕ), r.id.value)

/-- The same, where Postgres reads the cursor at all. -/
def JobRow.cut (r : JobRow) : Option RowKey :=
  if year (r.createdAt / 1000) ≤ 9999 then some r.cursorKey else none

/-- A cursor as it is sent, and the key that the handler compares with. -/
def ReadsCursor (rt : Runtime) (raw : QueryValue) (key : Option RowKey) : Prop :=
  ∃ c, decodeCursor rt raw = .ok c ∧ bindCursor rt c = some key

theorem readsCursor_undefined (rt : Runtime) : ReadsCursor rt .undefined none := ⟨none, rfl, rfl⟩

theorem JobRow.cut_le {r : JobRow} {k : RowKey} (h : r.cut = some k) : k ≤ r.key := by
  unfold JobRow.cut at h
  split at h <;> cases h
  rw [JobRow.cursorKey, JobRow.key, Prod.Lex.toLex_le_toLex]
  have hle : r.createdAt / 1000 * 1000 ≤ r.createdAt := Nat.div_mul_le_self _ _
  rcases hle.lt_or_eq with hlt | heq
  · exact .inl (Int.ofNat_lt.mpr hlt)
  · exact .inr ⟨congrArg Int.ofNat heq, le_rfl⟩

variable {rt : Runtime} {tables : Nat → JobsTable} {table table' : JobsTable}
  {statusValue limitValue cursor : QueryValue} {status : Option JobStatus} {n m i : Nat}
  {c : Option Cursor} {key : Option RowKey} {last : JobRow} {rows : List JobRow}

/-! ## One request -/

theorem listJobs_eq (hstatus : parseStatus statusValue = .ok status)
    (hlimit : parseLimit rt limitValue 20 100 = .ok n) (hcursor : decodeCursor rt cursor = .ok c) :
    listJobs rt table statusValue limitValue cursor = listPage rt table status n c := by
  simp only [listJobs, hstatus, hlimit, hcursor]

theorem listPage_short (hc : bindCursor rt c = some key)
    (h : (below JobRow.key key (table.matching status)).length ≤ n) :
    listPage rt table status n c = .page (below JobRow.key key (table.matching status)) none := by
  have hlen : ¬ n < (below JobRow.key key (table.matching status)).length := Nat.not_lt.mpr h
  simp only [listPage, hc, selectJobs_eq, List.take_of_length_le (h.trans (Nat.le_succ n)), hlen,
    if_false]

private theorem listPage_long (hn : 0 < n) (hc : bindCursor rt c = some key)
    (h : n < (below JobRow.key key (table.matching status)).length)
    (hlast : (below JobRow.key key (table.matching status))[n - 1]? = some last) :
    listPage rt table status n c =
      (toISOString (last.createdAt / 1000)).elim .internalError fun t =>
        .page ((below JobRow.key key (table.matching status)).take n)
          (some (encodeCursor ⟨t, uuidOut last.id⟩)) := by
  have hlen : n < ((below JobRow.key key (table.matching status)).take (n + 1)).length := by
    rw [List.length_take]
    omega
  have hget : ((below JobRow.key key (table.matching status)).take n).getLast? = some last := by
    rw [List.getLast?_eq_getElem?, List.length_take, Nat.min_eq_left h.le,
      List.getElem?_take_of_lt (Nat.sub_one_lt_of_lt hn), hlast]
  simp only [listPage, hc, selectJobs_eq, hlen, if_true, List.take_take,
    Nat.min_eq_left (Nat.le_succ n), hget]
  cases toISOString (last.createdAt / 1000) <;> rfl

theorem listPage_next {t : Text} (hn : 0 < n) (hc : bindCursor rt c = some key)
    (h : n < (below JobRow.key key (table.matching status)).length)
    (hlast : (below JobRow.key key (table.matching status))[n - 1]? = some last)
    (ht : toISOString (last.createdAt / 1000) = some t) :
    listPage rt table status n c = .page ((below JobRow.key key (table.matching status)).take n)
      (some (encodeCursor ⟨t, uuidOut last.id⟩)) := by
  rw [listPage_long hn hc h hlast, ht, Option.elim_some]

/-- `toISOString` throws a `RangeError`. -/
theorem listPage_throws (hn : 0 < n) (hc : bindCursor rt c = some key)
    (h : n < (below JobRow.key key (table.matching status)).length)
    (hlast : (below JobRow.key key (table.matching status))[n - 1]? = some last)
    (ht : toISOString (last.createdAt / 1000) = none) :
    listPage rt table status n c = .internalError := by
  rw [listPage_long hn hc h hlast, ht, Option.elim_none]

/-- The cursor of a row is read as the key that it was cut to. -/
theorem readsCursor_next (hrt : ReadsISO rt) {t : Text} {k : RowKey}
    (ht : toISOString (last.createdAt / 1000) = some t) (hk : last.cut = some k) :
    ReadsCursor rt (.single (encodeCursor ⟨t, uuidOut last.id⟩)) (some k) := by
  unfold JobRow.cut at hk
  split at hk <;> cases hk
  rename_i hyear
  refine ⟨_, decodeCursor_encodeCursor (dateParses_toISOString ht), ?_⟩
  simp only [bindCursor, hrt.plain _ _ ht hyear, uuidIn_uuidOut, Option.bind_eq_bind,
    Option.bind_some, Option.pure_def, JobRow.cursorKey]

/-! ## Walks -/

/-- A walk that Postgres refuses to go on with does not end. -/
private theorem not_ended_of_refused (hstatus : parseStatus statusValue = .ok status)
    (hlimit : parseLimit rt limitValue 20 100 = .ok n) (hcursor : decodeCursor rt cursor = .ok c)
    (hc : bindCursor rt c = none) :
    (walkJobs rt statusValue limitValue tables m i cursor).2 ≠ .ended := by
  cases m with
  | zero => nofun
  | succ m =>
      rw [walkJobs, listJobs_eq hstatus hlimit hcursor, listPage, hc]
      nofun

/-- The requests end with the rows that the walk with cut cursors ends with. -/
theorem walkJobs_ended (hrt : ReadsISO rt) (hstatus : parseStatus statusValue = .ok status)
    (hlimit : parseLimit rt limitValue 20 100 = .ok n) (hcursor : ReadsCursor rt cursor key) :
    walkJobs rt statusValue limitValue tables m i cursor = (rows, .ended) ↔
      walk JobRow.key JobRow.cut (fun _ => n) (fun i => (tables i).matching status) m i key =
        (rows, .ended) := by
  have hn : 0 < n := (parseLimit_bounds ⟨by omega, by omega⟩ hlimit).1
  induction m generalizing i cursor key rows with
  | zero => rfl
  | succ m ih =>
    obtain ⟨c, hdecode, hbind⟩ := hcursor
    rw [walkJobs, listJobs_eq hstatus hlimit hdecode]
    rcases Nat.lt_or_ge n (below JobRow.key key ((tables i).matching status)).length with
      hlong | hshort
    · have hlast := List.getElem?_eq_getElem
        (show n - 1 < (below JobRow.key key ((tables i).matching status)).length by omega)
      generalize (below JobRow.key key ((tables i).matching status))[n - 1] = last at hlast
      by_cases hyear : year (last.createdAt / 1000) ≤ 9999
      · have hcut : last.cut = some last.cursorKey := if_pos hyear
        obtain ⟨t, ht⟩ := exists_toISOString hyear
        have hrest (rows : List JobRow) : walkJobs rt statusValue limitValue tables m (i + 1)
            (.single (encodeCursor ⟨t, uuidOut last.id⟩)) = (rows, .ended) ↔ _ :=
          ih (readsCursor_next hrt ht hcut)
        rw [listPage_next hn hbind hlong hlast ht, walk_long rfl hlong hlast hcut]
        constructor
        · intro heq
          obtain ⟨hrows, hended⟩ := Prod.mk.inj heq
          rw [(hrest _).mp (Prod.ext rfl hended), hrows]
        · intro heq
          obtain ⟨hrows, hended⟩ := Prod.mk.inj heq
          dsimp only
          rw [(hrest _).mpr (Prod.ext rfl hended), hrows]
      · have hcut : last.cut = none := if_neg hyear
        rw [walk_refused rfl hlong hlast hcut]
        refine iff_of_false (fun heq => ?_) nofun
        cases ht : toISOString (last.createdAt / 1000) with
        | none =>
            rw [listPage_throws hn hbind hlong hlast ht] at heq
            cases congrArg Prod.snd heq
        | some t =>
            rw [listPage_next hn hbind hlong hlast ht] at heq
            refine not_ended_of_refused hstatus hlimit
              (decodeCursor_encodeCursor (dateParses_toISOString ht)) ?_ (congrArg Prod.snd heq)
            simp only [bindCursor, hrt.signed _ _ ht (Nat.lt_of_not_le hyear), Option.bind_eq_bind,
              Option.bind_none]
    · rw [listPage_short hbind hshort, walk_short rfl hshort]

/-! ## Younger jobs -/

/-- Only rows that are younger than all others are inserted. -/
def JobsTable.Grows (table table' : JobsTable) : Prop :=
  ∃ new, table'.rows.Perm (table.rows ++ new) ∧
    ∀ r ∈ new, ∀ r₀ ∈ table.rows, r₀.createdAt < r.createdAt

namespace JobsTable.Grows

theorem refl (table : JobsTable) : table.Grows table :=
  ⟨[], by rw [List.append_nil], fun _ h => nomatch h⟩

theorem trans {table'' : JobsTable} (h : table.Grows table') (h' : table'.Grows table'') :
    table.Grows table'' := by
  obtain ⟨new, hperm, hnew⟩ := h
  obtain ⟨new', hperm', hnew'⟩ := h'
  refine ⟨new ++ new', ?_, fun r hr r₀ hr₀ => ?_⟩
  · rw [← List.append_assoc]
    exact hperm'.trans (hperm.append_right new')
  · rcases List.mem_append.mp hr with hr | hr
    · exact hnew r hr r₀ hr₀
    · exact hnew' r hr r₀ (hperm.mem_iff.mpr (List.mem_append_left new hr₀))

theorem of_steps (h : ∀ i, (tables i).Grows (tables (i + 1))) (i : Nat) :
    (tables 0).Grows (tables i) := by
  induction i with
  | zero => exact refl _
  | succ i ih => exact ih.trans (h i)

/-- Below a row of the first table, there are no other rows. -/
theorem below_eq (h : table.Grows table') (hlast : last ∈ table.rows) {k : RowKey}
    (hk : k ≤ last.key) :
    below JobRow.key (some k) (table'.matching status) =
      below JobRow.key (some k) (table.matching status) := by
  obtain ⟨new, hperm, hnew⟩ := h
  have hnone : (new.filter (JobRow.matches status)).filter
      (fun r => (some k).all (r.key < ·)) = [] := by
    rw [List.filter_eq_nil_iff]
    intro r hr
    have hlt : last.key < r.key :=
      Prod.Lex.toLex_lt_toLex.mpr (.inl (Int.ofNat_lt.mpr (hnew r (List.mem_of_mem_filter hr) _ hlast)))
    simpa using hk.trans hlt.le
  refine Descending.eq_of_perm (table'.matching_descending status).below
    (table.matching_descending status).below ?_
  have hrows := ((orderJobs_perm _).trans (hperm.filter (JobRow.matches status))).filter
    fun r => (some k).all (r.key < ·)
  rw [List.filter_append, List.filter_append, hnone, List.append_nil] at hrows
  exact hrows.trans ((orderJobs_perm _).symm.filter _)

end JobsTable.Grows

/-! ## Complete walks -/

/-- Every row of the table that matches is there exactly once, in descending order. -/
def Complete (table : JobsTable) (status : Option JobStatus) (rows : List JobRow) : Prop :=
  Descending JobRow.key rows ∧ ∀ r ∈ table.rows, r.matches status = true → rows.count r = 1

/-- Behind every full page, Postgres can read the year of the last row, and the next row lies below
that row's cursor. -/
def CursorsExact (n : Nat) (rows : List JobRow) : Prop :=
  ∀ k a b, rows[k * n + (n - 1)]? = some a → rows[k * n + n]? = some b →
    year (a.createdAt / 1000) ≤ 9999 ∧ b.key < a.cursorKey

theorem cursorsExact_iff : CursorsExact n rows ↔ Exact JobRow.key JobRow.cut n rows := by
  refine forall₃_congr fun k a b => forall₂_congr fun _ _ => ?_
  unfold JobRow.cut
  split <;> rename_i hyear <;> simp [hyear]

/-- Rows of the table in their order are complete only if they are all there. -/
private theorem complete_iff_eq (h : rows.Sublist (table.matching status)) :
    Complete table status rows ↔ rows = table.matching status := by
  have hdesc := table.matching_descending status
  constructor
  · rintro ⟨-, hall⟩
    refine h.eq_of_length_le (List.Subperm.length_le ?_)
    refine List.subperm_of_subset (hdesc.imp fun hlt heq => absurd (heq ▸ hlt) (lt_irrefl _)) ?_
    intro r hr
    obtain ⟨hmem, hmatches⟩ := mem_matching.mp hr
    exact List.count_pos_iff.mp (by rw [hall r hmem hmatches]; exact Nat.one_pos)
  · rintro rfl
    refine ⟨hdesc, fun r hmem hmatches => ?_⟩
    refine List.count_eq_one_of_mem (hdesc.imp fun hlt heq => absurd (heq ▸ hlt) (lt_irrefl _)) ?_
    exact mem_matching.mpr ⟨hmem, hmatches⟩

/-- The walk over the growing table ends with every row that matched at the first request just when
no cursor on its way skips a row. -/
theorem paging_complete (hrt : ReadsISO rt) (hstatus : parseStatus statusValue = .ok status)
    (hlimit : parseLimit rt limitValue 20 100 = .ok n)
    (hgrows : ∀ i, (tables i).Grows (tables (i + 1))) :
    (∃ m rows, walkJobs rt statusValue limitValue tables m 0 .undefined = (rows, .ended) ∧
      Complete (tables 0) status rows) ↔ CursorsExact n ((tables 0).matching status) := by
  have hn : 0 < n := (parseLimit_bounds ⟨by omega, by omega⟩ hlimit).1
  have hsteady (i : Nat) : ∀ a ∈ (tables 0).matching status, ∀ k ≤ a.key,
      below JobRow.key (some k) ((tables i).matching status) =
        below JobRow.key (some k) ((tables 0).matching status) := fun a ha _ hk =>
    (JobsTable.Grows.of_steps hgrows i).below_eq (mem_matching.mp ha).1 hk
  have hall : below JobRow.key none ((tables 0).matching status) = (tables 0).matching status :=
    below_none
  have hdesc := (tables 0).matching_descending status
  have hcut (a : JobRow) (k : RowKey) (h : a.cut = some k) : k ≤ a.key := JobRow.cut_le h
  rw [cursorsExact_iff]
  refine Iff.trans ?_ (hall ▸ walk_ended_iff hdesc hcut hsteady hn (c := none) (i := 0) rfl)
  refine exists_congr fun m => ?_
  have hsub := walk_sublist hdesc hcut hsteady hn m (c := none) (i := 0) rfl
  rw [hall] at hsub
  constructor
  · rintro ⟨rows, hwalk, hcomplete⟩
    have hkeyset := (walkJobs_ended hrt hstatus hlimit (readsCursor_undefined rt)).mp hwalk
    rw [hkeyset] at hsub
    exact hkeyset.trans (congrArg (·, Progress.ended) ((complete_iff_eq hsub).mp hcomplete))
  · intro hkeyset
    rw [hkeyset] at hsub
    exact ⟨_, (walkJobs_ended hrt hstatus hlimit (readsCursor_undefined rt)).mpr hkeyset,
      (complete_iff_eq hsub).mpr rfl⟩

/-! ## Two tables -/

/-- Decimal digits only, and the texts of `toISOString` only. -/
def plainRuntime : Runtime where
  number t :=
    match readNat t.length 0 t with
    | some (n, _) => .finite n
    | none => .nan
  otherDate _ := false
  timestamptz t :=
    ((readISOString t).filter fun ms => year ms ≤ 9999).map fun ms => ((ms * 1000 : ℕ) : ℤ)

theorem plainRuntime_readsISO : ReadsISO plainRuntime where
  plain ms t ht hyear := by
    simp only [plainRuntime, readISOString_toISOString ht, Option.filter_some, hyear, decide_true,
      if_true, Option.map_some]
  signed ms t ht hyear := by
    simp only [plainRuntime, readISOString_toISOString ht, Option.filter_some,
      Nat.not_le.mpr hyear, decide_false, if_false, Option.map_none, reduceCtorEq]

private def zeroBlock : Block := ⟨0, 0, 0, 0⟩

/-- A queued job; the number is the last digit of its id. -/
private def jobAt (last : Hex) (createdAt : Nat) : JobRow :=
  .inserted ⟨zeroBlock, zeroBlock, zeroBlock, ⟨4, 0, 0, 0⟩, ⟨8, 0, 0, 0⟩, zeroBlock, zeroBlock,
    ⟨0, 0, 0, last⟩⟩ none createdAt

/-- Two jobs of one microsecond, and one that is a second older. -/
private def spread : JobsTable where
  rows := [jobAt 1 1700000000000000, jobAt 2 1700000001000000, jobAt 3 1700000001000000]
  primaryKey := by decide

theorem paging_complete_spread : ∃ m rows,
    walkJobs plainRuntime .undefined (.single ['2']) (fun _ => spread) m 0 .undefined =
      (rows, .ended) ∧ Complete spread none rows := by
  refine (paging_complete plainRuntime_readsISO rfl (n := 2) (by decide +kernel)
    fun _ => .refl _).mpr ?_
  have hrows : spread.matching none =
      [jobAt 3 1700000001000000, jobAt 2 1700000001000000, jobAt 1 1700000000000000] := by
    decide +kernel
  intro k a b ha hb
  rw [hrows] at ha hb
  obtain rfl : k = 0 := by
    have := (List.getElem?_eq_some_iff.mp hb).1
    simp only [List.length_cons, List.length_nil] at this
    omega
  cases ha
  cases hb
  decide +kernel

/-- Two jobs of one millisecond. -/
private def close : JobsTable where
  rows := [jobAt 1 1700000000000200, jobAt 2 1700000000000500]
  primaryKey := by decide

/-- The second job is never returned: it lies above the cursor of the first. -/
theorem paging_skips : ¬ ∃ m rows,
    walkJobs plainRuntime .undefined (.single ['1']) (fun _ => close) m 0 .undefined =
      (rows, .ended) ∧ Complete close none rows := by
  rintro ⟨m, rows, hwalk, -, hall⟩
  have hkeyset := (walkJobs_ended plainRuntime_readsISO rfl (n := 1) (by decide +kernel)
    (readsCursor_undefined _)).mp hwalk
  have hfirst (m : Nat) : walk JobRow.key JobRow.cut (fun _ => 1) (fun _ => close.matching none)
      (m + 1) 0 none = _ :=
    walk_long (a := jobAt 2 1700000000000500) rfl (by decide +kernel) (by decide +kernel)
      (k := (jobAt 2 1700000000000500).cursorKey) (by decide +kernel) m
  have hrest (m : Nat) : walk JobRow.key JobRow.cut (fun _ => 1) (fun _ => close.matching none)
      (m + 1) 1 (some (jobAt 2 1700000000000500).cursorKey) = _ :=
    walk_short rfl (by decide +kernel) m
  match m with
  | 0 | 1 => cases congrArg Prod.snd hkeyset
  | m + 2 =>
      rw [hfirst, hrest] at hkeyset
      obtain rfl : _ = rows := congrArg Prod.fst hkeyset
      have hcount := hall (jobAt 1 1700000000000200) (by decide) rfl
      revert hcount
      decide +kernel

end QueueFlow
