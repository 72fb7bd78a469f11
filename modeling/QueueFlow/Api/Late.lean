-- SUMMARY: Requests that will never push their id can be left out of the state: every other command does what it did.
import QueueFlow.Api.Repeats
import QueueFlow.Rows.Attempts

/-!
# Late requests

A request that has not pushed its id when the row is `ORPHAN_AGE_S` old has crashed or hangs. As long
as it does not push after all, a run with it is a run without it: no command reads the requests, and a
request in hand of an id holds nothing else.
-/

namespace QueueFlow

open Transition

/-- The request has the id of a row in hand that is older than `ORPHAN_AGE_S`. -/
def State.overdue (cfg : Config) (s : State) (x : Api) : Bool :=
  (x.hand.bind uuidIn).any fun job => (s.db.row job).any fun r =>
    r.createdAt + cfg.orphanAgeS * 1000000 < s.now

@[simps]
def State.withApis (s : State) (l : List Api) : State := { s with apis := l }

/-- The state without the requests that are overdue. -/
def State.pruned (cfg : Config) (s : State) : State :=
  s.withApis (s.apis.filter fun x => !s.overdue cfg x)

variable {cfg : Config} {s s' : State} {a : Act} {l : List Api} {x y : Api} {e : Exec} {o : Outcome}
  {σ : Sched} {pick : Pick} {w : WorkerId}

/-! ## No command reads the requests -/

section

@[simp] theorem withApis_locked (job : Uuid) : (s.withApis l).locked job = s.locked job := by
  simp [State.locked]

@[simp] theorem withApis_claimableRow (job : Uuid) :
    (s.withApis l).claimableRow job = s.claimableRow job := by
  simp [State.claimableRow]

@[simp] theorem withApis_ownRow (h : Holding) : (s.withApis l).ownRow cfg h = s.ownRow cfg h := by
  simp [State.ownRow]

@[simp] theorem withApis_deadRow (job : Uuid) : (s.withApis l).deadRow job = s.deadRow job := by
  simp [State.deadRow]

@[simp] theorem withApis_keyRow (key : Option Text) : (s.withApis l).keyRow key = s.keyRow key := by
  simp [State.keyRow]

@[simp] theorem withApis_inFlight : (s.withApis l).inFlight w = s.inFlight w := by
  simp [State.inFlight]

@[simp] theorem withApis_orphanCandidates :
    orphanCandidates cfg (s.withApis l) = orphanCandidates cfg s := by
  simp [orphanCandidates]

theorem processOne_withApis :
    processOne cfg (s.withApis l) e o = (processOne cfg s e o).map (State.withApis · l) := by
  unfold processOne
  cases e.pc with
  | select =>
      cases uuidIn e.id with
      | none => rfl
      | some job =>
          simp only [State.withApis_db]
          cases s.db.row job <;> rfl
  | claim job =>
      simp only [withApis_locked, withApis_claimableRow]
      by_cases hlocked : s.locked job = true
      · rw [if_pos hlocked, if_pos hlocked]
        rfl
      · rw [if_neg hlocked, if_neg hlocked]
        cases s.claimableRow job <;> rfl
  | handler => cases o <;> rfl
  | txUpdate h | bury h | park h =>
      simp only [withApis_locked, withApis_ownRow]
      by_cases hlocked : s.locked h.job = true
      · rw [if_pos hlocked, if_pos hlocked]
        rfl
      · rw [if_neg hlocked, if_neg hlocked]
        cases s.ownRow cfg h <;> rfl
  | discard | txBegin | txInsert | txCommit | txRollback | zadd | release => rfl

theorem recoverOwnProcessing_withApis {deadline : Bool} :
    recoverOwnProcessing (s.withApis l) w deadline =
      (recoverOwnProcessing s w deadline).map (State.withApis · l) := by
  unfold recoverOwnProcessing
  simp only [State.withApis_procs, State.withApis_redis, State.withApis_db, withApis_locked]
  repeat' split
  all_goals rfl

theorem take_withApis : take (s.withApis l) w = (take s w).map (State.withApis · l) := by
  unfold take
  simp only [State.withApis_procs, State.withApis_redis, withApis_inFlight]
  cases s.procs w with
  | running concurrency =>
      by_cases hslot : s.inFlight w < concurrency
      · simp only [if_pos hslot, Option.map_map]
        rfl
      · simp only [if_neg hslot]
        rfl
  | fresh | starting | gone => rfl

theorem promoteDue_withApis :
    promoteDue (s.withApis l) σ = (promoteDue s σ).map (State.withApis · l) := by
  unfold promoteDue
  simp only [State.withApis_redis, withApis_locked]
  repeat' split
  all_goals rfl

theorem reapDead_withApis :
    reapDead (s.withApis l) σ pick = (reapDead s σ pick).map (State.withApis · l) := by
  unfold reapDead
  simp only [State.withApis_redis, State.withApis_db, withApis_locked]
  repeat' split
  all_goals first
    | rfl
    | rw [Option.map_map]; rfl

theorem sweepOrphans_withApis :
    sweepOrphans cfg (s.withApis l) σ pick = (sweepOrphans cfg s σ pick).map (State.withApis · l) := by
  unfold sweepOrphans
  simp only [State.withApis_redis, withApis_orphanCandidates]
  repeat' split
  all_goals first
    | rfl
    | rw [Option.map_map]; rfl

theorem schedule_withApis :
    schedule cfg (s.withApis l) σ pick = (schedule cfg s σ pick).map (State.withApis · l) := by
  unfold schedule
  repeat' split
  all_goals first
    | rfl
    | exact promoteDue_withApis
    | exact reapDead_withApis
    | exact sweepOrphans_withApis

/-- The command of a worker or of a scheduler. -/
theorem step_withApis (hapi : ∀ x g, a ≠ .api x g) (hcrash : ∀ x, a ≠ .apiCrash x)
    (hrequest : ∀ req, a ≠ .request req) (hfail : a.isFailure = false) (h : step cfg s a = some s') :
    step cfg (s.withApis l) a = some (s'.withApis l) := by
  have hmap {f : Option State} (hf : f = (step cfg s a).map (State.withApis · l)) :
      f = some (s'.withApis l) := by
    rw [hf, h]
    rfl
  apply hmap
  cases a with
  | request req => exact absurd rfl (hrequest req)
  | api x g => exact absurd rfl (hapi x g)
  | apiCrash x => exact absurd rfl (hcrash x)
  | execFail => cases hfail
  | tick | startSched => rfl
  | spawn w c =>
      simp only [step, spawn, State.withApis_procs]
      repeat' split
      all_goals rfl
  | recoverOwn => exact recoverOwnProcessing_withApis
  | beat w =>
      simp only [step, beat, State.withApis_procs, State.withApis_redis]
      split <;> rfl
  | expire w =>
      simp only [step, expire, State.withApis_redis]
      split <;> rfl
  | take => exact take_withApis
  | kill w =>
      simp only [step, kill, State.withApis_procs]
      split <;> rfl
  | exec e o =>
      simp only [step, State.withApis_execs]
      split
      · exact processOne_withApis
      · rfl
  | sched σ pick =>
      simp only [step, State.withApis_scheds]
      split
      · exact schedule_withApis
      · rfl
  | schedFail σ =>
      simp only [step, State.withApis_scheds, abandonPass]
      repeat' split
      all_goals rfl
  | schedKill σ =>
      simp only [step, State.withApis_scheds]
      split <;> rfl

end

/-! ## What is overdue stays so -/

/-- Only time makes a request overdue. -/
theorem overdue_of_step (lease : LeaseWf cfg s) (h : step cfg s a = some s') (htick : ∀ d, a ≠ .tick d) :
    s'.overdue cfg x = s.overdue cfg x := by
  have hnow := now_of_step h htick
  unfold State.overdue
  congr 1
  funext job
  rw [hnow]
  cases hrow' : s'.db.row job with
  | none =>
      cases hrow : s.db.row job with
      | none => rfl
      | some r =>
          obtain ⟨r', hr'⟩ := row_of_step h hrow
          rw [hrow'] at hr'
          cases hr'
  | some r' =>
      rcases row_cases lease h hrow' with ⟨key, g, -, hnone, rfl⟩ | ⟨r, hrow, hmove⟩
      · rw [hnone, Option.any_none, Option.any_some]
        exact decide_eq_false (Nat.not_lt.mpr (Nat.le_add_right s.now _))
      · rw [hrow, Option.any_some, Option.any_some, hmove.createdAt]

theorem overdue_of_tick {d : Nat} (h : s.overdue cfg x = true) :
    State.overdue cfg { s with now := s.now + d } x = true := by
  obtain ⟨job, hjob, h⟩ := (Option.any_eq_true _ _).mp h
  obtain ⟨r, hrow, hlt⟩ := (Option.any_eq_true _ _).mp h
  refine (Option.any_eq_true _ _).mpr ⟨job, hjob, (Option.any_eq_true _ _).mpr ⟨r, hrow, ?_⟩⟩
  exact decide_eq_true (Nat.lt_of_lt_of_le (of_decide_eq_true hlt) (Nat.le_add_right _ _))

/-! ## Commands without the overdue requests -/

theorem not_overdue_of_hand (h : x.hand = none) : s.overdue cfg x = false := by
  simp [State.overdue, h]

/-- A request that moves on is not overdue. -/
private theorem not_overdue_of_swap {g : Uuid} (h : handle s x g = some s')
    (hreplay : (Act.api x g).replays? s = none) (hapis : s'.apis = Bag.swap s.apis x y) :
    s.overdue cfg y = false := by
  have hhead {y' : Api} (heq : Bag.swap s.apis x y' = Bag.swap s.apis x y) : y' = y :=
    (List.cons.inj heq).1
  cases handle_cases h with
  | turned y' _ hhand' =>
      obtain rfl := hhead hapis
      exact not_overdue_of_hand hhand'
  | inserted key g _ _ hrow =>
      obtain rfl := hhead hapis
      simp [State.overdue, Api.hand, uuidIn_uuidOut, hrow]
  | replayed id job r hpc hid _ hrow hdead =>
      subst hpc
      rw [replays?_eq_some.mpr ⟨id, g, rfl, hid, r, hrow, hdead⟩] at hreplay
      cases hreplay
  | answered | pushed => exact absurd hapis.symm (List.cons_ne_self _ _)

/-- The command of a request reads no other request. -/
private theorem handle_withApis {g : Uuid} (h : handle s x g = some s') :
    (∃ y, s'.apis = Bag.swap s.apis x y ∧
        handle (s.withApis l) x g = some (s'.withApis (Bag.swap l x y))) ∨
      s'.apis = s.apis.erase x ∧ handle (s.withApis l) x g = some (s'.withApis (l.erase x)) := by
  cases x with
  | insert key =>
      simp only [handle, State.withApis_db, withApis_keyRow] at h ⊢
      split at h
      · rename_i hgen
        rw [if_pos hgen]
        split at h <;> cases h <;> exact .inl ⟨_, rfl, rfl⟩
      · cases h
  | lookup key =>
      simp only [handle, withApis_keyRow] at h ⊢
      split at h <;> cases h <;> exact .inr ⟨rfl, rfl⟩
  | replay id =>
      simp only [handle, withApis_deadRow, withApis_locked] at h ⊢
      split at h
      · cases h
        exact .inr ⟨rfl, rfl⟩
      · split at h
        · cases h
        · rename_i hlocked
          rw [if_neg hlocked]
          split at h <;> cases h <;> exact .inl ⟨_, rfl, rfl⟩
  | refuse id =>
      have hbind : (uuidIn id).bind (s.withApis l).db.row = (uuidIn id).bind s.db.row := rfl
      simp only [handle, hbind] at h ⊢
      cases hrow : (uuidIn id).bind s.db.row <;> rw [hrow] at h <;> cases h <;> exact .inr ⟨rfl, rfl⟩
  | push req id =>
      cases h
      exact .inr ⟨rfl, rfl⟩

/-- A step that is neither a crash of a request nor the passing of time is a step without the
requests that are overdue, as long as none of them pushes. -/
theorem step_pruned (lease : LeaseWf cfg s) (hfail : a.isFailure = false) (htick : ∀ d, a ≠ .tick d)
    (hcrash : ∀ x, a ≠ .apiCrash x)
    (hapi : ∀ x g, a = .api x g → a.replays? s = none ∧ s.overdue cfg x = false)
    (h : step cfg s a = some s') : step cfg (s.pruned cfg) a = some (s'.pruned cfg) := by
  have hover : (fun x => !s'.overdue cfg x) = fun x => !s.overdue cfg x := by
    funext x
    rw [overdue_of_step lease h htick]
  unfold State.pruned
  rw [hover]
  rcases apis_of_step h with ⟨hnot, hapis, -⟩ | ⟨req, rfl, rfl⟩ | ⟨x, rfl, -⟩ | ⟨x, g, rfl, hx, hhandle⟩
  · rw [hapis]
    refine step_withApis hnot hcrash ?_ hfail h
    rintro req rfl
    cases h
    exact List.cons_ne_self _ _ hapis
  · have hstart : s.overdue cfg req.start = false := by
      cases req <;> exact not_overdue_of_hand rfl
    rw [State.addApi_apis, List.filter_cons_of_pos (by rw [hstart]; rfl)]
    rfl
  · exact absurd rfl (hcrash x)
  · obtain ⟨hreplay, hx'⟩ := hapi x g rfl
    have hmem : x ∈ s.apis.filter fun x => !s.overdue cfg x :=
      List.mem_filter.mpr ⟨hx, by rw [hx']; rfl⟩
    have herase := List.erase_filter (a := x) (f := fun x => !s.overdue cfg x) (l := s.apis)
    simp only [step, State.withApis_apis, if_pos hmem]
    rcases handle_withApis hhandle with ⟨y, hapis, heq⟩ | ⟨hapis, heq⟩ <;> rw [heq, hapis]
    · rw [Bag.swap, Bag.swap, List.filter_cons_of_pos
        (by rw [not_overdue_of_swap hhandle hreplay hapis]; rfl), herase]
    · rw [herase]

end QueueFlow
