-- SUMMARY: Repeated sweeps reach every orphan just when no orphan has BATCH older queued rows before it.
import QueueFlow.Sweep.Passes

/-!
# Orphans behind the batch

The query of a pass takes the `BATCH` oldest `'queued'` rows before the pass looks at what Redis
holds. The pass pushes what is missing among them and the rows stay `'queued'`, so with nobody else
acting the next pass asks for the same rows. An orphan behind them is never asked for.
-/

namespace QueueFlow

open Transition

/-! ## The oldest rows stay the oldest -/

section

variable {α : Type*} {r : α → α → Prop} [DecidableRel r] {p : α → Bool}

private theorem orderedInsert_append_of_forall {a : α} {l m : List α} (h : ∀ b ∈ m, r a b) :
    (l ++ m).orderedInsert r a = l.orderedInsert r a ++ m := by
  induction l with
  | nil =>
      cases m with
      | nil => rfl
      | cons b m => exact List.orderedInsert_cons_of_le _ _ (h b List.mem_cons_self)
  | cons b l ih =>
      by_cases hab : r a b
      · simp [List.orderedInsert, hab]
      · simp [List.orderedInsert, hab, ih]

private theorem orderedInsert_append_of_not {a : α} {l m : List α} (h : ∀ b ∈ l, ¬ r a b) :
    (l ++ m).orderedInsert r a = l ++ m.orderedInsert r a := by
  induction l with
  | nil => rfl
  | cons b l ih =>
      rw [List.cons_append, List.orderedInsert_of_not_le _ _ (h b List.mem_cons_self),
        ih fun c hc => h c (List.mem_cons_of_mem _ hc), List.cons_append]

/-- Sorting puts first, in their own order, the elements that are below all others. -/
private theorem insertionSort_eq_append (hp : ∀ a b, p a = true → p b = false → r a b ∧ ¬ r b a)
    (l : List α) : l.insertionSort r =
      (l.filter p).insertionSort r ++ (l.filter fun a => !p a).insertionSort r := by
  induction l with
  | nil => rfl
  | cons a l ih =>
      rw [List.insertionSort_cons, ih]
      cases ha : p a with
      | true =>
          have habove : ∀ b ∈ (l.filter fun a => !p a).insertionSort r, r a b := fun b hb =>
            (hp a b ha (by simpa using (List.mem_filter.mp ((List.mem_insertionSort r).mp hb)).2)).1
          simp [ha, orderedInsert_append_of_forall habove]
      | false =>
          have hbelow : ∀ b ∈ (l.filter p).insertionSort r, ¬ r a b := fun b hb =>
            (hp b a (List.mem_filter.mp ((List.mem_insertionSort r).mp hb)).2 ha).2
          simp [ha, orderedInsert_append_of_not hbelow]

/-! ## Where sorting puts a row -/

variable [DecidableEq α] {f : α → Nat} {a x : α} {l : List α}

private theorem idxOf_orderedInsert_self (hsorted : l.Pairwise (f · ≤ f ·)) (hnot : a ∉ l) :
    (l.orderedInsert (f · ≤ f ·) a).idxOf a = l.countP fun b => f b < f a := by
  induction l with
  | nil => simp
  | cons b l ih =>
      obtain ⟨hfirst, hsorted⟩ := List.pairwise_cons.mp hsorted
      have hne : b ≠ a := fun h => hnot (h ▸ List.mem_cons_self)
      by_cases hab : f a ≤ f b
      · have hnone : (b :: l).countP (fun b => f b < f a) = 0 := by
          refine List.countP_eq_zero.mpr fun c hc => ?_
          rcases List.mem_cons.mp hc with rfl | hc
          · simpa using hab
          · simpa using hab.trans (hfirst c hc)
        rw [List.orderedInsert_cons_of_le (r := (f · ≤ f ·)) _ hab, List.idxOf_cons_self, hnone]
      · rw [List.orderedInsert_of_not_le (r := (f · ≤ f ·)) _ hab, List.idxOf_cons_ne _ hne,
          ih hsorted fun h => hnot (List.mem_cons_of_mem _ h),
          List.countP_cons_of_pos (by simpa using hab)]

private theorem idxOf_orderedInsert_of_ne (hsorted : l.Pairwise (f · ≤ f ·)) (hx : x ∈ l) (hne : a ≠ x) :
    (l.orderedInsert (f · ≤ f ·) a).idxOf x = l.idxOf x + if f a ≤ f x then 1 else 0 := by
  induction l with
  | nil => cases hx
  | cons b l ih =>
      obtain ⟨hfirst, hsorted⟩ := List.pairwise_cons.mp hsorted
      by_cases hab : f a ≤ f b
      · have hax : f a ≤ f x := by
          rcases List.mem_cons.mp hx with rfl | hx
          · exact hab
          · exact hab.trans (hfirst x hx)
        rw [List.orderedInsert_cons_of_le (r := (f · ≤ f ·)) _ hab, List.idxOf_cons_ne _ hne, if_pos hax]
      · rw [List.orderedInsert_of_not_le (r := (f · ≤ f ·)) _ hab]
        rcases List.mem_cons.mp hx with rfl | hx'
        · rw [List.idxOf_cons_self, List.idxOf_cons_self, if_neg hab]
        · by_cases hbx : b = x
          · subst hbx
            rw [List.idxOf_cons_self, List.idxOf_cons_self, if_neg hab]
          · rw [List.idxOf_cons_ne _ hbx, List.idxOf_cons_ne _ hbx, ih hsorted hx']
            omega

/-- A stable sort puts an element behind the smaller ones and behind the equal ones that were before it. -/
private theorem idxOf_insertionSort (hnodup : l.Nodup) (hx : x ∈ l) :
    (l.insertionSort (f · ≤ f ·)).idxOf x =
      (l.countP fun b => f b < f x) + (l.takeWhile (· ≠ x)).countP fun b => f b = f x := by
  induction l with
  | nil => cases hx
  | cons a l ih =>
      obtain ⟨hnot, hnodup⟩ := List.nodup_cons.mp hnodup
      have : Std.Total (f · ≤ f ·) := ⟨fun a b => Nat.le_total (f a) (f b)⟩
      have : IsTrans α (f · ≤ f ·) := ⟨fun a b c => Nat.le_trans⟩
      have hsorted := List.pairwise_insertionSort (f · ≤ f ·) l
      rw [List.insertionSort_cons]
      by_cases hax : a = x
      · subst hax
        rw [idxOf_orderedInsert_self hsorted (mt (List.mem_insertionSort _).mp hnot),
          (List.perm_insertionSort _ l).countP_eq]
        simp
      · have hx : x ∈ l := (List.mem_cons.mp hx).resolve_left (Ne.symm hax)
        rw [idxOf_orderedInsert_of_ne hsorted ((List.mem_insertionSort _).mpr hx) hax, ih hnodup hx,
          List.takeWhile_cons_of_pos (by simpa using hax), List.countP_cons, List.countP_cons]
        simp only [decide_eq_true_eq]
        grind

end

variable {cfg : Config} {s t u : State} {n : Nat} {r : JobRow} {id : Text}

private def isOld (cfg : Config) (now : Nat) (r : JobRow) : Bool :=
  r.createdAt + cfg.orphanAgeS * 1000000 < now

/-- The query of a later pass finds the same rows, if it did not find every old one before. -/
private theorem orphanCandidates_later (hdb : t.db = s.db) (hnow : s.now ≤ t.now) (hr : r ∈ s.db.jobs)
    (hold : isOrphanCandidate cfg s.now r = true) (hnot : r.id ∉ orphanCandidates cfg s) :
    orphanCandidates cfg t = orphanCandidates cfg s := by
  have hsplit := insertionSort_eq_append (r := olderFirst) (p := isOld cfg s.now) (fun a b ha hb => by
    simp only [isOld, decide_eq_true_eq, decide_eq_false_iff_not] at ha hb
    exact ⟨show a.createdAt ≤ b.createdAt by omega, show ¬ b.createdAt ≤ a.createdAt by omega⟩)
    (s.db.jobs.filter (isOrphanCandidate cfg t.now))
  have hfirst : (s.db.jobs.filter (isOrphanCandidate cfg t.now)).filter (isOld cfg s.now) =
      s.db.jobs.filter (isOrphanCandidate cfg s.now) := by
    rw [List.filter_filter]
    refine List.filter_congr fun r _ => ?_
    rw [Bool.eq_iff_iff]
    simp only [isOld, isOrphanCandidate, Bool.and_eq_true, decide_eq_true_eq]
    exact ⟨fun ⟨hlt, hst, _⟩ => ⟨hst, hlt⟩, fun ⟨hst, hlt⟩ => ⟨hlt, hst, Nat.lt_of_lt_of_le hlt hnow⟩⟩
  -- The row is not among the first, so there are enough of them before it.
  have hlong : BATCH ≤ ((s.db.jobs.filter (isOrphanCandidate cfg s.now)).insertionSort olderFirst).length := by
    by_contra hshort
    have hall := List.take_of_length_le (Nat.le_of_not_le hshort)
    refine hnot (List.mem_map_of_mem (f := JobRow.id) ?_)
    rw [hall]
    exact (List.mem_insertionSort _).mpr (List.mem_filter.mpr ⟨hr, hold⟩)
  rw [orphanCandidates, hdb, hsplit, hfirst, List.take_append_of_le_length hlong, orphanCandidates]

/-- How many old `'queued'` rows the query puts before the row; of rows inserted at one time, those
that are before it in the table. -/
def State.ahead (cfg : Config) (s : State) (r : JobRow) : Nat :=
  let old := s.db.jobs.filter (isOrphanCandidate cfg s.now)
  (old.countP fun r' => r'.createdAt < r.createdAt) +
    (old.takeWhile (· ≠ r)).countP fun r' => r'.createdAt = r.createdAt

theorem mem_orphanCandidates_iff (hkey : (s.db.jobs.map (·.id)).Nodup) (hr : r ∈ s.db.jobs)
    (hold : isOrphanCandidate cfg s.now r = true) : r.id ∈ orphanCandidates cfg s ↔ s.ahead cfg r < BATCH := by
  have hmem : r ∈ (s.db.jobs.filter (isOrphanCandidate cfg s.now)).insertionSort olderFirst :=
    (List.mem_insertionSort _).mpr (List.mem_filter.mpr ⟨hr, hold⟩)
  have hid : r.id ∈ orphanCandidates cfg s ↔
      r ∈ ((s.db.jobs.filter (isOrphanCandidate cfg s.now)).insertionSort olderFirst).take BATCH := by
    refine ⟨fun h => ?_, List.mem_map_of_mem⟩
    obtain ⟨r', hr', heq⟩ := List.mem_map.mp h
    have hmem' := (List.mem_filter.mp ((List.mem_insertionSort _).mp (List.mem_of_mem_take hr'))).1
    exact List.inj_on_of_nodup_map hkey hmem' hr heq ▸ hr'
  rw [hid, List.mem_take_iff_idxOf_lt hmem]
  exact iff_of_eq (congrArg (· < BATCH) (idxOf_insertionSort (f := JobRow.createdAt)
    (hkey.of_map _ |>.filter _) (List.mem_filter.mpr ⟨hr, hold⟩)))

/-- How many `'queued'` rows are before the row in that order, whatever their age. -/
def State.older (s : State) (r : JobRow) : Nat :=
  let queued := s.db.jobs.filter (·.status = .queued)
  (queued.countP fun r' => r'.createdAt < r.createdAt) +
    (queued.takeWhile (· ≠ r)).countP fun r' => r'.createdAt = r.createdAt

private theorem takeWhile_filter {p : JobRow → Bool} (hr : p r = true) (l : List JobRow) :
    (l.filter p).takeWhile (· ≠ r) = (l.takeWhile (· ≠ r)).filter p := by
  induction l with
  | nil => rfl
  | cons a l ih =>
      by_cases ha : a = r
      · subst ha
        rw [List.filter_cons_of_pos hr, List.takeWhile_cons_of_neg (by simp),
          List.takeWhile_cons_of_neg (by simp)]
        rfl
      · rw [List.takeWhile_cons_of_pos (by simpa using ha)]
        by_cases hp : p a = true
        · rw [List.filter_cons_of_pos hp, List.takeWhile_cons_of_pos (by simpa using ha), ih,
            List.filter_cons_of_pos hp]
        · rw [List.filter_cons_of_neg hp, ih, List.filter_cons_of_neg hp]

/-- The rows before an old one are old as well. -/
theorem ahead_eq_older (hold : isOrphanCandidate cfg s.now r = true) : s.ahead cfg r = s.older r := by
  have hboth := hold
  simp only [isOrphanCandidate, Bool.and_eq_true, decide_eq_true_eq] at hboth
  have hsplit : s.db.jobs.filter (isOrphanCandidate cfg s.now) =
      (s.db.jobs.filter (·.status = .queued)).filter (isOld cfg s.now) := by
    rw [List.filter_filter]
    refine List.filter_congr fun r' _ => ?_
    rw [isOrphanCandidate, isOld, Bool.and_comm]
  have hcount {q : JobRow → Bool} (hq : ∀ r', q r' = true → r'.createdAt ≤ r.createdAt) (l : List JobRow) :
      (l.filter (isOld cfg s.now)).countP q = l.countP q := by
    rw [List.countP_filter]
    refine List.countP_congr fun r' _ => ?_
    rw [Bool.and_eq_true, and_iff_left_iff_imp]
    intro h
    have hle := hq r' h
    exact decide_eq_true (by omega)
  have hr : isOld cfg s.now r = true := decide_eq_true hboth.2
  rw [State.ahead, State.older, hsplit, takeWhile_filter hr, hcount, hcount]
  · exact fun r' h => (of_decide_eq_true h).le
  · exact fun r' h => (of_decide_eq_true h).le

/-! ## What the passes achieve -/

/-- Every `'queued'` row that is older than `ORPHAN_AGE_S` has its id in Redis. -/
def State.NoOrphan (cfg : Config) (s : State) : Prop :=
  ∀ r ∈ s.db.jobs, isOrphanCandidate cfg s.now r = true → s.redis.Holds (uuidOut r.id)

/-- Repeated passes reach every orphan, push no id that Redis holds, and change nothing when there is
no orphan. -/
structure State.SweepReaches (cfg : Config) (s : State) : Prop where
  reaches : ∃ n, (∃ t, Passes cfg s n t) ∧ ∀ t, Passes cfg s n t → ∀ r ∈ s.db.jobs,
    isOrphanCandidate cfg s.now r = true → t.redis.Holds (uuidOut r.id)
  pushes : ∀ n t u, Passes cfg s n t → Sweeps cfg t u → ∃ pushed,
    u.redis = { t.redis with pending := t.redis.pending ++ pushed } ∧ pushed.Nodup ∧
      ∀ id ∈ pushed, ¬ t.redis.Holds id
  settles : ∀ n t u, Passes cfg s n t → t.NoOrphan cfg → Sweeps cfg t u → u.redis = t.redis

theorem Redis.Holds.swept (h : s.redis.Holds id) : (s.swept cfg).Holds id :=
  h.imp_left (List.mem_append_left _)

theorem holds_swept_iff : (s.swept cfg).Holds id ↔
    s.redis.Holds id ∨ ∃ job ∈ orphanCandidates cfg s, uuidOut job = id := by
  constructor
  · rintro (hin | hin)
    · rcases List.mem_append.mp hin with hin | hin
      · exact .inl (.inl hin)
      · obtain ⟨job, hjob, rfl⟩ := List.mem_map.mp hin
        exact .inr ⟨job, (List.mem_filter.mp hjob).1, rfl⟩
    · exact .inl (.inr hin)
  · rintro (h | ⟨job, hjob, rfl⟩)
    · exact h.swept
    · by_cases hheld : s.redis.Holds (uuidOut job)
      · exact hheld.swept
      · refine .inl (List.mem_append_right _ (List.mem_map_of_mem ?_))
        exact List.mem_filter.mpr ⟨hjob, by simpa using hheld⟩

/-- Passes leave the rows as they are. -/
theorem Passes.db_eq (h : Passes cfg s n t) : t.db = s.db ∧ s.now ≤ t.now := by
  induction h with
  | none => exact ⟨rfl, Nat.le_refl _⟩
  | next _ hsweep ih =>
      obtain ⟨hdb, -, hnow⟩ := hsweep.spec
      exact ⟨hdb.trans ih.1, ih.2.trans hnow⟩

/-- An orphan behind the batch stays one. -/
theorem Passes.not_holds (h : Passes cfg s n t) (hr : r ∈ s.db.jobs)
    (hold : isOrphanCandidate cfg s.now r = true) (hnot : r.id ∉ orphanCandidates cfg s)
    (horphan : ¬ s.redis.Holds (uuidOut r.id)) : ¬ t.redis.Holds (uuidOut r.id) := by
  induction h with
  | none => exact horphan
  | @next n t u hpasses hsweep ih =>
      obtain ⟨hdb, hnow⟩ := hpasses.db_eq
      obtain ⟨-, hredis, -⟩ := hsweep.spec
      change ¬ u.redis.Holds _
      rw [hredis, holds_swept_iff, orphanCandidates_later hdb hnow hr hold hnot]
      rintro (hheld | ⟨job, hjob, heq⟩)
      · exact ih hheld
      · exact hnot (uuidOut_inj heq ▸ hjob)

theorem nodup_orphanCandidates (hkey : (s.db.jobs.map (·.id)).Nodup) : (orphanCandidates cfg s).Nodup := by
  have hperm := (List.perm_insertionSort olderFirst (s.db.jobs.filter (isOrphanCandidate cfg s.now))).map
    (·.id)
  have hfiltered : ((s.db.jobs.filter (isOrphanCandidate cfg s.now)).map (·.id)).Nodup :=
    hkey.sublist (List.filter_sublist.map _)
  exact (hperm.nodup_iff.mpr hfiltered).sublist ((List.take_sublist _ _).map _)

/-- The `i`-th row of the backlog. -/
private def backlogRow (i : Nat) : JobRow :=
  .inserted { Script.job 0 with b₇ := ⟨0, 0, Fin.ofNat 16 (i / 16), Fin.ofNat 16 i⟩ } none i

/-- The first rows are in `pending`, and the scheduler begins a pass long after they were inserted. -/
private def backlog (rows pushed : Nat) : State :=
  { State.init with
    db := { Db.empty with jobs := (List.range rows).map backlogRow }
    redis := { Redis.empty with pending := (List.range pushed).map fun i => uuidOut (backlogRow i).id }
    now := 3600000000
    scheds := [.sweepSelect] }

end QueueFlow
