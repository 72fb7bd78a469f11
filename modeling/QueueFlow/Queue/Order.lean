-- SUMMARY: The order in which ids are taken from the pending list: first in, first out, except that recovered ids go first.
import QueueFlow.Frame
import QueueFlow.Script

/-!
# The order of the queue

A submission, a replay and a promotion push at the left end of the pending list, and workers take from the right
end. What is recovered, from the list of a dead worker or as an orphan, is put back at the right end: it is taken
next. An id that waits is overtaken by such ids only.
-/

namespace QueueFlow

open Transition

/-- What has happened to the pending list, the latest first. -/
structure QueueLog where
  /-- Pushed at the left end. -/
  joined : List Text
  taken : List Text
  /-- Put back at the right end. -/
  returned : List Text

namespace QueueLog

def start : QueueLog := ⟨[], [], []⟩

def note (s : State) (a : Act) (t : State) (log : QueueLog) : QueueLog :=
  match a with
  | .take _ => { log with taken := s.redis.pending.getLast?.toList ++ log.taken }
  | .api (.push _ id) _ | .sched (.promotePush id _) _ => { log with joined := id :: log.joined }
  | _ => { log with returned := t.redis.pending.drop s.redis.pending.length ++ log.returned }

theorem note_sched {s t : State} {σ : Sched} {pick : Pick} {log : QueueLog} (h : ∀ id due, σ ≠ .promotePush id due) :
    note s (.sched σ pick) t log =
      { log with returned := t.redis.pending.drop s.redis.pending.length ++ log.returned } := by
  cases σ with
  | promotePush id due => exact absurd rfl (h id due)
  | _ => rfl

end QueueLog

variable {cfg : Config} {ok : State → Act → Prop} {s t : State} {a : Act} {log : QueueLog} {id : Text} {ahead : Nat}

/-- What a step does to the pending list, and what is noted of it. -/
inductive PendingMove (s : State) (log : QueueLog) : List Text → QueueLog → Prop where
  | same : PendingMove s log s.redis.pending log
  | joined (id : Text) : PendingMove s log (id :: s.redis.pending) { log with joined := id :: log.joined }
  | taken (rest : List Text) (id : Text) (h : s.redis.pending = rest ++ [id]) :
      PendingMove s log rest { log with taken := id :: log.taken }
  | returned (id : Text) :
      PendingMove s log (s.redis.pending ++ [id]) { log with returned := id :: log.returned }

theorem pending_cases (h : step cfg s a = some t) : PendingMove s log t.redis.pending (QueueLog.note s a t log) := by
  have hsame (ht : t.redis.pending = s.redis.pending) : PendingMove s log t.redis.pending
      { log with returned := t.redis.pending.drop s.redis.pending.length ++ log.returned } := by
    rw [ht, List.drop_length]
    exact .same
  have hreturned {id : Text} (ht : t.redis.pending = s.redis.pending ++ [id]) : PendingMove s log t.redis.pending
      { log with returned := t.redis.pending.drop s.redis.pending.length ++ log.returned } := by
    rw [ht, List.drop_left]
    exact .returned id
  cases a with
  | tick | request | startSched =>
      cases h
      exact hsame rfl
  | api x =>
      obtain ⟨-, h⟩ := Option.ite_none_right_eq_some.mp h
      cases x with
      | push req id =>
          cases h
          exact .joined id
      | insert | lookup | replay | refuse =>
          cases handle_cases h with
          | pushed _ _ hpc => cases hpc
          | turned | answered | inserted | replayed => exact hsame rfl
  | apiCrash | schedKill =>
      obtain ⟨-, h⟩ := Option.ite_none_right_eq_some.mp h
      cases h
      exact hsame rfl
  | spawn =>
      obtain ⟨-, -, rfl⟩ := spawn_cases h
      exact hsame rfl
  | recoverOwn =>
      cases recoverOwnProcessing_cases h with
      | moved => exact hreturned rfl
      | wait | refrain | proceed | nothing | read | reset | done | beat => exact hsame rfl
  | beat =>
      obtain ⟨-, rfl⟩ := beat_cases h
      exact hsame rfl
  | expire =>
      cases expire_cases h
      exact hsame rfl
  | take w =>
      obtain ⟨c, rest, id, -, hpending, rfl⟩ := take_cases h
      simp only [QueueLog.note, hpending, List.getLast?_concat, Option.toList_some, List.singleton_append]
      exact .taken rest id hpending
  | exec =>
      obtain ⟨-, h⟩ := Option.ite_none_right_eq_some.mp h
      cases processOne_cases h <;> exact hsame rfl
  | execFail =>
      obtain ⟨-, h⟩ := Option.ite_none_right_eq_some.mp h
      cases fails_cases h <;> exact hsame rfl
  | kill =>
      cases kill_cases h
      exact hsame rfl
  | sched σ =>
      obtain ⟨-, h⟩ := Option.ite_none_right_eq_some.mp h
      have hmove := schedule_cases h
      by_cases hpush : ∃ id due, σ = .promotePush id due
      · obtain ⟨id, due, rfl⟩ := hpush
        cases hmove with
        | pushed id due hpc =>
            cases hpc
            exact .joined id
        | quiet _ hhand => cases hhand
        | removed _ _ hpc | promoted _ _ _ hpc | crashed _ _ hpc | check _ _ hpc | peek _ _ _ hpc | junk _ _ _ hpc
        | select _ _ _ _ hpc | dropped _ _ _ hpc | buried _ _ _ _ hpc | requeued _ _ _ _ hpc | moved _ _ _ _ hpc
        | emptied _ _ _ hpc | swept _ _ _ hpc => cases hpc
      · rw [QueueLog.note_sched fun id due heq => hpush ⟨id, due, heq⟩]
        cases hmove with
        | pushed id due hpc => exact absurd ⟨id, due, hpc⟩ hpush
        | moved | swept => exact hreturned rfl
        | quiet | removed | promoted | crashed | check | peek | junk | select | dropped | buried | requeued
        | emptied => exact hsame rfl
  | schedFail =>
      obtain ⟨-, h⟩ := Option.ite_none_right_eq_some.mp h
      unfold abandonPass at h
      split at h
      · cases h
        exact hsame rfl
      · cases h

/-! ## Whole runs -/

/-- An id that had `ahead` others in front of it waits, with as many fewer in front of it as have been taken, and
as many more as have been put back. -/
def Waits (id : Text) (ahead : Nat) (s : State) (log : QueueLog) : Prop :=
  ∃ later earlier, s.redis.pending = later ++ id :: earlier ∧
    earlier.length + log.taken.length = ahead + log.returned.length

/-- It has been taken, after at most as many others as were in front of it or have been put back. -/
def Taken (id : Text) (ahead : Nat) (log : QueueLog) : Prop :=
  ∃ k ≤ ahead + log.returned.length, log.taken.reverse[k]? = some id

theorem Waits.step (h : Waits id ahead s log) (hstep : step cfg s a = some t) :
    Waits id ahead t (QueueLog.note s a t log) ∨ Taken id ahead (QueueLog.note s a t log) := by
  obtain ⟨later, earlier, hpending, hahead⟩ := h
  have hmove : PendingMove s log t.redis.pending (QueueLog.note s a t log) := pending_cases hstep
  unfold Waits
  generalize t.redis.pending = pending at hmove
  generalize QueueLog.note s a t log = log' at hmove
  cases hmove with
  | same => exact .inl ⟨later, earlier, hpending, hahead⟩
  | joined x =>
      refine .inl ⟨x :: later, earlier, ?_, hahead⟩
      rw [hpending, List.cons_append]
  | returned x =>
      refine .inl ⟨later, earlier ++ [x], ?_, ?_⟩
      · rw [hpending, List.append_assoc, List.cons_append]
      · simp only [List.length_append, List.length_cons, List.length_nil]
        omega
  | taken rest x hx =>
      rw [hpending] at hx
      rcases List.eq_nil_or_concat' earlier with rfl | ⟨front, y, rfl⟩
      · -- Nothing is in front of it.
        obtain ⟨-, hlast⟩ := List.append_inj' hx rfl
        obtain rfl : id = x := List.singleton_inj.mp hlast
        refine .inr ⟨log.taken.length, ?_, ?_⟩
        · show log.taken.length ≤ ahead + log.returned.length
          rw [List.length_nil, Nat.zero_add] at hahead
          exact hahead.le
        · rw [List.reverse_cons, ← List.length_reverse, List.getElem?_concat_length]
      · rw [← List.cons_append, ← List.append_assoc] at hx
        obtain ⟨rfl, -⟩ := List.append_inj' hx rfl
        refine .inl ⟨later, front, rfl, ?_⟩
        simp only [List.length_append, List.length_cons, List.length_nil] at hahead ⊢
        omega

theorem Taken.step (h : Taken id ahead log) (hstep : step cfg s a = some t) :
    Taken id ahead (QueueLog.note s a t log) := by
  obtain ⟨k, hk, htaken⟩ := h
  have hmove : PendingMove s log t.redis.pending (QueueLog.note s a t log) := pending_cases hstep
  generalize t.redis.pending = pending at hmove
  generalize QueueLog.note s a t log = log' at hmove
  cases hmove with
  | same | joined => exact ⟨k, hk, htaken⟩
  | returned => exact ⟨k, hk.trans (Nat.add_le_add_left (Nat.le_succ _) _), htaken⟩
  | taken rest x =>
      refine ⟨k, hk, ?_⟩
      rw [List.reverse_cons, List.getElem?_append_left (List.getElem?_eq_some_iff.mp htaken).1, htaken]

/-- Nothing that was on the list gets lost, and nothing comes from nowhere. -/
theorem PendingMove.perm {pending base : List Text} {log' : QueueLog} (hmove : PendingMove s log pending log')
    (h : (s.redis.pending ++ log.taken).Perm (log.joined ++ base ++ log.returned)) :
    (pending ++ log'.taken).Perm (log'.joined ++ base ++ log'.returned) := by
  cases hmove with
  | same => exact h
  | joined id => exact h.cons id
  | taken rest id hpending =>
      rw [hpending, List.append_assoc] at h
      exact h
  | returned id =>
      rw [List.append_assoc, List.singleton_append]
      exact List.perm_middle.trans ((h.cons id).trans List.perm_middle.symm)

theorem PendingMove.in_order {pending base : List Text} {log' : QueueLog} (hmove : PendingMove s log pending log')
    (h : log.returned = [] → s.redis.pending ++ log.taken = log.joined ++ base) (hreturned : log'.returned = []) :
    pending ++ log'.taken = log'.joined ++ base := by
  cases hmove with
  | same => exact h hreturned
  | joined id => exact congrArg (id :: ·) (h hreturned)
  | taken rest id hpending =>
      have hold := h hreturned
      rw [hpending, List.append_assoc] at hold
      exact hold
  | returned => cases hreturned

/-- Along every run from here: what is on the list and what was taken is what was on it, what was pushed and what
was put back; as long as nothing is put back, the order is that of a queue; and an id that waits is overtaken by
what was put back only. -/
theorem taken_in_turn (hrun : Observed (step cfg) ok QueueLog.note s .start t log) :
    (t.redis.pending ++ log.taken).Perm (log.joined ++ s.redis.pending ++ log.returned) ∧
      (log.returned = [] → t.redis.pending ++ log.taken = log.joined ++ s.redis.pending) ∧
        ∀ later id earlier, s.redis.pending = later ++ id :: earlier →
          Waits id earlier.length t log ∨ Taken id earlier.length log := by
  refine ⟨?_, ?_, fun later id earlier hpending => ?_⟩
  · refine hrun.invariant (P := fun t log => (t.redis.pending ++ log.taken).Perm
      (log.joined ++ s.redis.pending ++ log.returned)) (.of_eq (by simp [QueueLog.start])) ?_
    exact fun u log b v h _ hstep => (pending_cases hstep).perm h
  · refine hrun.invariant (P := fun t log => log.returned = [] →
      t.redis.pending ++ log.taken = log.joined ++ s.redis.pending) (fun _ => List.append_nil _) ?_
    exact fun u log b v h _ hstep => (pending_cases hstep).in_order h
  · refine hrun.invariant (P := fun t log => Waits id earlier.length t log ∨ Taken id earlier.length log)
      (.inl ⟨later, earlier, hpending, rfl⟩) ?_
    rintro u log b v (h | h) _ hstep
    · exact h.step hstep
    · exact .inr (h.step hstep)

/-- Two jobs wait. -/
private def waiting : State :=
  (State.init.withDb ⟨[.inserted (Script.job 1) none 0, .inserted (Script.job 2) none 0], [], 0⟩).withRedis
    { Redis.empty with pending := [uuidOut (Script.job 2), uuidOut (Script.job 1)] }

/-- A worker takes the first job and dies, the scheduler puts the job back, and the next worker takes it again. -/
theorem taken_in_turn_recovered : ∃ t log, Observed (step Script.defaults) always QueueLog.note waiting .start t log ∧
    (log.taken = [uuidOut (Script.job 1), uuidOut (Script.job 1)] ∧ log.returned = [uuidOut (Script.job 1)]) ∧
      Waits (uuidOut (Script.job 2)) 1 t log := by
  have hplay : ∃ q, Run (observe (step Script.defaults) QueueLog.note) (fun _ _ => True) (waiting, .start) q ∧
      q.2.taken = [uuidOut (Script.job 1), uuidOut (Script.job 1)] ∧ q.2.returned = [uuidOut (Script.job 1)] :=
    exists_run_of_perform (f := fun q => resolve q.1)
      (Script.start ['a'] ++ .act (.take ['a']) :: Script.dies ['a'] ++ .act .startSched :: Script.reaps ['a'] 6 ++
        Script.start ['b'] ++ [.act (.take ['b'])]) (by decide +kernel)
  obtain ⟨⟨t, log⟩, hrun, htaken, hreturned⟩ := hplay
  have hrun : Observed (step Script.defaults) always QueueLog.note waiting .start t log := hrun
  have hturn := (taken_in_turn hrun).2.2 [] (uuidOut (Script.job 2)) [uuidOut (Script.job 1)] rfl
  refine ⟨t, log, hrun, ⟨htaken, hreturned⟩, hturn.resolve_right ?_⟩
  rintro ⟨k, -, hk⟩
  rw [htaken] at hk
  exact absurd (List.mem_of_getElem? hk) (by decide +kernel)

end QueueFlow
