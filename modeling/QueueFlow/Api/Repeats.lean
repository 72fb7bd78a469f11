-- SUMMARY: A client that follows nextCursor while the table changes in any way that the statements allow: no job is returned twice.
import QueueFlow.Api.Walk
import QueueFlow.Frame
import QueueFlow.Script

/-!
# Walks over a changing table

Between two requests rows may be inserted anywhere and may change their status any number of times.
No statement sets `id` or `created_at`, and the cursor never lies above the row that it was made of;
nothing else is needed for the pages to descend.
-/

namespace QueueFlow

open Keyset IsoTime Transition

/-! ## Changes of the table -/

/-- The SET clauses of the statements that update `jobs`. -/
inductive IsUpdate : (JobRow → JobRow) → Prop where
  | claimed (lease now : Nat) : IsUpdate (.claimed lease now)
  | succeeded (now : Nat) : IsUpdate (.succeeded now)
  | buried (message : Text) (now : Nat) : IsUpdate (.buried message now)
  | parked (message : Text) (runAt : Nat) : IsUpdate (.parked message runAt)
  | promoted : IsUpdate .promoted
  | requeued : IsUpdate .requeued
  | replayed : IsUpdate .replayed

/-- What becomes of the rows between two requests: any updates of any rows, and any new jobs. -/
inductive Changes (rows : List JobRow) : List JobRow → Prop where
  | refl : Changes rows rows
  | update {rows' : List JobRow} (whr : JobRow → Bool) (set : JobRow → JobRow) (hset : IsUpdate set) :
      Changes rows rows' → Changes rows (rows'.map fun r => if whr r then set r else r)
  | insert {rows' : List JobRow} (r : JobRow) (hnew : ∀ r' ∈ rows', r'.id ≠ r.id) :
      Changes rows rows' → Changes rows (rows' ++ [r])

variable {rows rows' rows'' : List JobRow} {r r' : JobRow}

theorem IsUpdate.id_eq {set : JobRow → JobRow} (h : IsUpdate set) (r : JobRow) : (set r).id = r.id := by
  cases h <;> rfl

theorem IsUpdate.createdAt_eq {set : JobRow → JobRow} (h : IsUpdate set) (r : JobRow) :
    (set r).createdAt = r.createdAt := by
  cases h <;> rfl

namespace Changes

theorem trans (h : Changes rows rows') (h' : Changes rows' rows'') : Changes rows rows'' := by
  induction h' with
  | refl => exact h
  | update whr set hset _ ih => exact .update whr set hset ih
  | insert r hnew _ ih => exact .insert r hnew ih

/-- A row stays in the table, under its id and with the time of its insertion. -/
theorem exists_row (h : Changes rows rows') (hr : r ∈ rows) :
    ∃ r' ∈ rows', r'.id = r.id ∧ r'.createdAt = r.createdAt := by
  induction h with
  | refl => exact ⟨r, hr, rfl, rfl⟩
  | update whr set hset _ ih =>
      obtain ⟨r', hr', hid, hcreated⟩ := ih
      refine ⟨_, List.mem_map_of_mem hr', ?_⟩
      split
      · exact ⟨(hset.id_eq r').trans hid, (hset.createdAt_eq r').trans hcreated⟩
      · exact ⟨hid, hcreated⟩
  | insert _ _ _ ih =>
      obtain ⟨r', hr', hkeeps⟩ := ih
      exact ⟨r', List.mem_append_left _ hr', hkeeps⟩

/-- Ids stay unique. -/
theorem nodup (h : Changes rows rows') (hkey : (rows.map JobRow.id).Nodup) :
    (rows'.map JobRow.id).Nodup := by
  induction h with
  | refl => exact hkey
  | update whr set hset _ ih =>
      rw [List.map_map]
      refine (List.map_congr_left fun r _ => ?_) ▸ ih
      rw [Function.comp_apply]
      split
      · exact (hset.id_eq r).symm
      · rfl
  | insert r hnew _ ih =>
      rw [List.map_append, List.map_singleton]
      refine ih.append (List.nodup_singleton _) ?_
      rintro id hid hid'
      obtain ⟨r', hr', rfl⟩ := List.mem_map.mp hid
      exact hnew r' hr' (List.mem_singleton.mp hid')

end Changes

/-! ## Changes that the system makes -/

section

variable {cfg : Config} {ok : State → Act → Prop} {s t : State} {a : Act}

/-- Every step of a worker, a scheduler, a client or the API is such a change. -/
theorem changes_of_step (h : step cfg s a = some t) : Changes s.db.jobs t.db.jobs := by
  have hdb := db_cases h
  generalize t.db = db at hdb ⊢
  generalize t.claims = claims at hdb
  cases hdb with
  | same => exact .refl
  | inserted key g generated _ hrow =>
      refine .insert _ (fun r hr hid => ?_) .refl
      obtain ⟨r', hr'⟩ := Db.row_isSome_of_mem hr
      rw [hid] at hr'
      cases hrow.symm.trans hr'
  | replayed => exact .update _ _ .replayed .refl
  | claimed => exact .update _ _ (.claimed _ _) .refl
  | settled => exact .update _ _ (.succeeded _) .refl
  | buried => exact .update _ _ (.buried _ _) .refl
  | parked => exact .update _ _ (.parked _ _) .refl
  | promoted => exact .update _ _ .promoted .refl
  | reapBuried => exact .update _ _ (.buried _ _) .refl
  | reapRequeued => exact .update _ _ .requeued .refl
  | reset => exact .update _ _ .requeued .refl

theorem changes_of_run (h : Run (step cfg) ok s t) : Changes s.db.jobs t.db.jobs := by
  induction h with
  | refl => exact .refl
  | tail a _ _ hstep ih => exact ih.trans (changes_of_step hstep)

/-- The table that a request finds in a reachable state. -/
def tableOf (h : Reaches cfg ok s) : JobsTable :=
  ⟨s.db.jobs, (changes_of_run h).nodup List.nodup_nil⟩

end

/-! ## The walk -/

/-- The rows that so many requests return. Request `i` finds the table `tables i` and has a limit of its
own; the client sends back the cursor that it was given. -/
def followCursors (rt : Runtime) (status : QueryValue) (limits : Nat → QueryValue)
    (tables : Nat → JobsTable) : Nat → Nat → QueryValue → List JobRow
  | 0, _, _ => []
  | m + 1, i, cursor =>
      match listJobs rt (tables i) status (limits i) cursor with
      | .page jobs none => jobs
      | .page jobs (some next) =>
          jobs ++ followCursors rt status limits tables m (i + 1) (.single next)
      | _ => []

variable {rt : Runtime} {table : JobsTable} {tables : Nat → JobsTable} {status limit cursor : QueryValue}
  {limits : Nat → QueryValue} {jobs : List JobRow} {next : Option Text} {i m : Nat}

/-- A page: rows of the table below the cursor, in descending order, and the cursor of the last one. -/
theorem listJobs_page (h : listJobs rt table status limit cursor = .page jobs next) :
    ∃ key, ReadsCursor rt cursor key ∧ Descending JobRow.key jobs ∧
      (∀ r ∈ jobs, r ∈ table.rows ∧ ∀ k ∈ key, r.key < k) ∧
      ∀ t ∈ next, ∃ last iso, jobs.getLast? = some last ∧
        toISOString (last.createdAt / 1000) = some iso ∧ t = encodeCursor ⟨iso, uuidOut last.id⟩ := by
  simp only [listJobs] at h
  split at h
  · cases h
  rename_i st _
  split at h
  · cases h
  rename_i n _
  split at h
  · cases h
  rename_i c hcursor
  simp only [listPage] at h
  split at h
  · cases h
  rename_i key hkey
  have hpage {l : List JobRow} (hsub : l.Sublist (selectJobs table st key (n + 1))) :
      Descending JobRow.key l ∧ ∀ r ∈ l, r ∈ table.rows ∧ ∀ k ∈ key, r.key < k := by
    rw [selectJobs_eq] at hsub
    have hbelow := hsub.trans (List.take_sublist _ _)
    refine ⟨(table.matching_descending st).below.sublist hbelow, fun r hr => ?_⟩
    obtain ⟨hmem, hlt⟩ := mem_below.mp (hbelow.subset hr)
    exact ⟨(mem_matching.mp hmem).1, hlt⟩
  refine ⟨key, ⟨c, hcursor, hkey⟩, ?_⟩
  split at h
  · have htake := hpage (List.take_sublist n _)
    split at h
    · cases h
      exact ⟨htake.1, htake.2, by rintro t ⟨⟩⟩
    · rename_i last hlast
      split at h
      · cases h
      · rename_i iso hiso
        cases h
        exact ⟨htake.1, htake.2, fun t ht => ⟨last, iso, hlast, hiso, (Option.some.inj ht).symm⟩⟩
  · cases h
    exact ⟨(hpage (List.Sublist.refl _)).1, (hpage (List.Sublist.refl _)).2, by rintro t ⟨⟩⟩

/-- The key that a cursor is read as does not lie above the row that it was made of. -/
theorem readsCursor_le (hrt : ReadsISO rt) {last : JobRow} {iso : Text} {key : Option RowKey}
    (hiso : toISOString (last.createdAt / 1000) = some iso)
    (h : ReadsCursor rt (.single (encodeCursor ⟨iso, uuidOut last.id⟩)) key) :
    ∃ k ∈ key, k ≤ last.key := by
  obtain ⟨c, hcursor, hbind⟩ := h
  rw [decodeCursor_encodeCursor (dateParses_toISOString hiso)] at hcursor
  cases hcursor
  by_cases hyear : year (last.createdAt / 1000) ≤ 9999
  · have hcut : last.cut = some last.cursorKey := if_pos hyear
    obtain ⟨c, hcursor, hbind'⟩ := readsCursor_next hrt hiso hcut
    rw [decodeCursor_encodeCursor (dateParses_toISOString hiso)] at hcursor
    cases hcursor
    rw [hbind] at hbind'
    cases hbind'
    exact ⟨last.cursorKey, rfl, JobRow.cut_le hcut⟩
  · simp only [bindCursor, hrt.signed _ _ hiso (Nat.lt_of_not_le hyear), Option.bind_eq_bind,
      Option.bind_none, reduceCtorEq] at hbind

theorem ReadsCursor.unique {key key' : Option RowKey} (h : ReadsCursor rt cursor key)
    (h' : ReadsCursor rt cursor key') : key = key' := by
  obtain ⟨c, hcursor, hbind⟩ := h
  obtain ⟨c', hcursor', hbind'⟩ := h'
  cases hcursor.symm.trans hcursor'
  exact Option.some.inj (hbind.symm.trans hbind')

/-- A request that returns rows has read its cursor. -/
theorem exists_readsCursor {r : JobRow} (hr : r ∈ followCursors rt status limits tables m i cursor) :
    ∃ key, ReadsCursor rt cursor key := by
  cases m with
  | zero => cases hr
  | succ m =>
      rw [followCursors] at hr
      split at hr
      · rename_i hpage
        exact (listJobs_page hpage).imp fun _ h => h.1
      · rename_i hpage
        exact (listJobs_page hpage).imp fun _ h => h.1
      · cases hr

/-- The last row of a page is the lowest. -/
theorem key_le_of_getLast? {l : List JobRow} {a last : JobRow} (h : Descending JobRow.key l)
    (hlast : l.getLast? = some last) (ha : a ∈ l) : last.key ≤ a.key := by
  obtain ⟨init, rfl⟩ := List.getLast?_eq_some_iff.mp hlast
  rcases List.mem_append.mp ha with ha | ha
  · exact ((List.pairwise_append.mp h).2.2 a ha last List.mem_cons_self).le
  · rw [List.mem_singleton.mp ha]

/-- What the requests from one cursor on return descends, and lies below that cursor. -/
theorem followCursors_descending (hrt : ReadsISO rt) :
    Descending JobRow.key (followCursors rt status limits tables m i cursor) ∧
      ∀ key, ReadsCursor rt cursor key →
        ∀ r ∈ followCursors rt status limits tables m i cursor, ∀ k ∈ key, r.key < k := by
  induction m generalizing i cursor with
  | zero => exact ⟨.nil, fun _ _ _ hr => nomatch hr⟩
  | succ m ih =>
    rw [followCursors]
    split
    · rename_i jobs hpage
      obtain ⟨key, hread, hdesc, hbelow, -⟩ := listJobs_page hpage
      refine ⟨hdesc, fun key' hread' r hr => ?_⟩
      rw [hread'.unique hread]
      exact (hbelow r hr).2
    · rename_i jobs next hpage
      obtain ⟨key, hread, hdesc, hbelow, hnext⟩ := listJobs_page hpage
      obtain ⟨last, iso, hlast, hiso, rfl⟩ := hnext next rfl
      obtain ⟨hrest, hrestBelow⟩ : Descending JobRow.key (followCursors rt status limits tables m (i + 1)
          (.single (encodeCursor ⟨iso, uuidOut last.id⟩))) ∧ _ := ih
      -- The rows of the later pages lie below the cursor, and so below this page.
      have hlater : ∀ r ∈ followCursors rt status limits tables m (i + 1)
          (.single (encodeCursor ⟨iso, uuidOut last.id⟩)), r.key < last.key := by
        intro r hr
        obtain ⟨key', hread'⟩ := exists_readsCursor hr
        obtain ⟨k, hk, hle⟩ := readsCursor_le hrt hiso hread'
        exact (hrestBelow key' hread' r hr k hk).trans_le hle
      refine ⟨List.pairwise_append.mpr ⟨hdesc, hrest, fun a ha r hr => ?_⟩, fun key' hread' r hr k hk => ?_⟩
      · exact (hlater r hr).trans_le (key_le_of_getLast? hdesc hlast ha)
      · rw [hread'.unique hread] at hk
        rcases List.mem_append.mp hr with hr | hr
        · exact (hbelow r hr).2 k hk
        · exact (hlater r hr).trans ((hbelow last (List.mem_of_getLast? hlast)).2 k hk)
    · exact ⟨.nil, fun _ _ _ hr => nomatch hr⟩

theorem mem_followCursors {r : JobRow} (hr : r ∈ followCursors rt status limits tables m i cursor) :
    ∃ j, r ∈ (tables j).rows := by
  induction m generalizing i cursor with
  | zero => cases hr
  | succ m ih =>
    rw [followCursors] at hr
    split at hr
    · rename_i hpage
      obtain ⟨key, -, -, hbelow, -⟩ := listJobs_page hpage
      exact ⟨i, (hbelow r hr).1⟩
    · rename_i hpage
      obtain ⟨key, -, -, hbelow, -⟩ := listJobs_page hpage
      rcases List.mem_append.mp hr with hr | hr
      · exact ⟨i, (hbelow r hr).1⟩
      · exact ih hr
    · cases hr

/-! ## No repetition -/

theorem changes_of_le (h : ∀ i, Changes (tables i).rows (tables (i + 1)).rows) {j k : Nat} (hle : j ≤ k) :
    Changes (tables j).rows (tables k).rows := by
  induction hle with
  | refl => exact .refl
  | step _ ih => exact ih.trans (h _)

/-- Rows with one id have one key, whenever they were read. -/
theorem key_eq_of_id (h : ∀ i, Changes (tables i).rows (tables (i + 1)).rows) {r r' : JobRow} {j k : Nat}
    (hr : r ∈ (tables j).rows) (hr' : r' ∈ (tables k).rows) (hid : r.id = r'.id) : r.key = r'.key := by
  wlog hle : j ≤ k generalizing r r' j k
  · exact (this hr' hr hid.symm (Nat.le_of_not_le hle)).symm
  obtain ⟨r'', hr'', hid'', hcreated⟩ := (changes_of_le h hle).exists_row hr
  obtain rfl : r'' = r' := List.inj_on_of_nodup_map (tables k).primaryKey hr'' hr' (hid''.trans hid)
  rw [JobRow.key, JobRow.key, hid'', hcreated]

/-- The rows of a whole walk are strictly descending, and no job is among them twice. -/
theorem paging_never_repeats (hrt : ReadsISO rt)
    (hchanges : ∀ i, Changes (tables i).rows (tables (i + 1)).rows) :
    Descending JobRow.key (followCursors rt status limits tables m 0 .undefined) ∧
      ((followCursors rt status limits tables m 0 .undefined).map JobRow.id).Nodup := by
  have hdesc : Descending JobRow.key (followCursors rt status limits tables m 0 .undefined) :=
    (followCursors_descending hrt).1
  refine ⟨hdesc, List.pairwise_map.mpr (List.Pairwise.imp_of_mem ?_ hdesc)⟩
  intro a b ha hb hlt hid
  obtain ⟨j, hj⟩ := mem_followCursors ha
  obtain ⟨k, hk⟩ := mem_followCursors hb
  exact hlt.ne' (key_eq_of_id hchanges hj hk hid)

/-- Two jobs of one microsecond; the second is claimed after the first request. -/
private def claimedMeanwhile (i : Nat) : JobsTable where
  rows := [.inserted (Script.job 1) none 1700000000000000,
    if i = 0 then .inserted (Script.job 2) none 1700000000000000
    else (JobRow.inserted (Script.job 2) none 1700000000000000).claimed 0 1700000001000000]
  primaryKey := by
    split <;> decide

private theorem changes_claimedMeanwhile (i : Nat) :
    Changes (claimedMeanwhile i).rows (claimedMeanwhile (i + 1)).rows := by
  cases i with
  | zero =>
      exact .update (fun r => r.id = Script.job 2) _ (.claimed 0 1700000001000000) .refl
  | succ i => exact .refl

theorem paging_never_repeats_claimed :
    Descending JobRow.key (followCursors plainRuntime .undefined (fun _ => .single ['1'])
      claimedMeanwhile 2 0 .undefined) ∧
    ((followCursors plainRuntime .undefined (fun _ => .single ['1']) claimedMeanwhile 2 0
      .undefined).map JobRow.id).Nodup :=
  paging_never_repeats plainRuntime_readsISO changes_claimedMeanwhile

end QueueFlow
