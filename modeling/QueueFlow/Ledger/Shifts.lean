-- SUMMARY: How the copies of an id shift when one list, the delayed set or one thread changes.
import QueueFlow.Ledger.Tokens

/-!
# Shifts of copies

One lemma for each command of Redis and for each way in which a thread appears, moves
or ends. What a step of the system does to the copies is composed of these. A thread
keeps its id from one command to the next, so that only the place of its copy changes.
-/

namespace QueueFlow

open Marking

/-- Copies of the job's id go from the places in `out` to those in `into`. -/
abbrev State.Moved (s s' : State) (job : Uuid) (out into : List Place) : Prop :=
  Shift (s.tokens job) (s'.tokens job) out into

/-- The members of the delayed set are spelled as Postgres spells them. -/
def State.Canonical (s : State) : Prop := ∀ m ∈ s.redis.delayed, ∃ u, m.1 = uuidOut u

namespace State

variable {s : State} {job job' : Uuid} {w : WorkerId} {id : Text} {e : Exec} {σ σ' : Sched}
  {a a' : Api}

/-! ## Lists -/

theorem moved_lpush : s.Moved (s.withRedis (s.redis.lpush id)) job [] (idAt .pending job id) :=
  shift_cons.left

theorem moved_rpush : s.Moved (s.withRedis (s.redis.rpush id)) job [] (idAt .pending job id) :=
  shift_concat.left

private theorem moved_of_perm {l : List (WorkerId × Text)}
    (h : s.redis.processing.Perm ((w, id) :: l)) :
    s.Moved (s.withRedis { s.redis with processing := l }) job (idAt .listed job id) [] :=
  (shift_of_perm_cons (f := fun k => idAt .listed job k.2) h).left.right

theorem moved_lrem (h : (w, id) ∈ s.redis.processing) :
    s.Moved (s.withRedis (s.redis.lrem w id)) job (idAt .listed job id) [] :=
  moved_of_perm (KeyedList.perm_cons_removeLeft h)

theorem moved_lremTail (h : (w, id) ∈ s.redis.processing) :
    s.Moved (s.withRedis (s.redis.lremTail w id)) job (idAt .listed job id) [] :=
  moved_of_perm ((KeyedList.perm_cons_removeLeft h).trans (KeyedList.removeRight_perm.symm.cons _))

theorem moved_blmove {rest : List Text} (h : s.redis.pending = rest ++ [id]) :
    s.Moved (s.withRedis { s.redis with
      pending := rest, processing := KeyedList.pushLeft s.redis.processing w id }) job
        (idAt .pending job id) (idAt .listed job id) := by
  have htaken : s.Moved (s.withRedis { s.redis with pending := rest }) job
      (idAt .pending job id) [] := by
    have hshift := shift_of_concat (f := idAt .pending job) (b := rest) (x := id)
    rw [← h] at hshift
    exact hshift.left
  have hlisted := shift_cons (f := fun k : WorkerId × Text => idAt .listed job k.2)
    (b := s.redis.processing) (x := (w, id))
  have hshift := htaken.trans hlisted.left.right
  simp only [List.append_nil, List.nil_append] at hshift
  exact hshift

theorem moved_lmove (h : (w, id) ∈ s.redis.processing) :
    s.Moved (s.withRedis { s.redis with
      pending := s.redis.pending ++ [id],
      processing := KeyedList.removeRight s.redis.processing w id }) job
        (idAt .listed job id) (idAt .pending job id) := by
  have hpushed := shift_concat (f := idAt .pending job) (b := s.redis.pending) (x := id)
  have hshift := (moved_lremTail h).trans hpushed.left
  simp only [List.append_nil, List.nil_append] at hshift
  exact hshift

/-! ## The delayed set -/

theorem moved_zadd {score : Nat} : s.Moved (s.withRedis (s.redis.zadd score (uuidOut job))) job []
    (if s.redis.isDelayed (uuidOut job) then [] else [.delayed]) := by
  have hadded : (s.redis.zadd score (uuidOut job)).isDelayed (uuidOut job) = true :=
    Redis.isDelayed_iff.mpr ⟨score, Redis.mem_zadd.mpr (.inl rfl)⟩
  have hshift : Shift (delayedAt s.redis job) (delayedAt (s.redis.zadd score (uuidOut job)) job) []
      (if s.redis.isDelayed (uuidOut job) then [] else [.delayed]) := by
    rw [delayedAt, delayedAt, if_pos hadded]
    split
    · exact .refl
    · exact fun _ => Nat.add_comm _ _
  exact hshift.left.right.right

theorem moved_zadd_ne {score : Nat} (hne : job' ≠ job) :
    s.Moved (s.withRedis (s.redis.zadd score (uuidOut job'))) job [] [] := by
  have hsame : (s.redis.zadd score (uuidOut job')).isDelayed (uuidOut job) =
      s.redis.isDelayed (uuidOut job) := by
    have hout : uuidOut job ≠ uuidOut job' := fun heq => hne (uuidOut_inj heq).symm
    rw [Bool.eq_iff_iff, Redis.isDelayed_iff, Redis.isDelayed_iff]
    simp [Redis.mem_zadd, hout]
  have hshift : Shift (delayedAt s.redis job) (delayedAt (s.redis.zadd score (uuidOut job')) job)
      [] [] := by
    rw [delayedAt, delayedAt, hsame]
    exact .refl
  exact hshift.left.right.right

theorem moved_zrem (canonical : s.Canonical) (h : s.redis.isDelayed id = true) :
    s.Moved (s.withRedis (s.redis.zrem id)) job (idAt .delayed job id) [] := by
  obtain ⟨score, hmem⟩ := Redis.isDelayed_iff.mp h
  obtain ⟨u, rfl⟩ := canonical _ hmem
  have hshift : Shift (delayedAt s.redis job) (delayedAt (s.redis.zrem (uuidOut u)) job)
      (idAt .delayed job (uuidOut u)) [] := by
    by_cases hu : u = job
    · subst hu
      have hgone : (s.redis.zrem (uuidOut u)).isDelayed (uuidOut u) = false := by
        simp [Redis.isDelayed, Redis.zrem]
      rw [delayedAt, delayedAt, hgone, h, idAt_of_names (uuidIn_uuidOut u)]
      exact fun _ => Nat.add_comm _ _
    · have hout : uuidOut job ≠ uuidOut u := fun heq => hu (uuidOut_inj heq).symm
      have hsame : (s.redis.zrem (uuidOut u)).isDelayed (uuidOut job) =
          s.redis.isDelayed (uuidOut job) := by
        rw [Bool.eq_iff_iff, Redis.isDelayed_iff, Redis.isDelayed_iff]
        simp [Redis.mem_zrem, hout]
      rw [delayedAt, delayedAt, hsame, idAt_of_not (by simpa [uuidIn_uuidOut] using hu)]
      exact .refl
  exact hshift.left.right.right

/-! ## Threads -/

theorem moved_addExec : s.Moved (s.addExec e) job [] (e.places job) :=
  shift_cons.left.right.right.right

/-- An execution that moves takes its copy along. -/
theorem moved_swapExec {pc : ExecPc} (h : e ∈ s.execs) :
    s.Moved (s.setExec e pc) job (e.places job) (idAt pc.phase.place job e.id) :=
  (shift_swap (f := Exec.places job) (y := { e with pc }) h).left.right.right.right

theorem moved_setExec {pc : ExecPc} (h : e ∈ s.execs) (hid : uuidIn e.id = some job) :
    s.Moved (s.setExec e pc) job [e.pc.phase.place] [pc.phase.place] := by
  have hshift := shift_swap (f := Exec.places job) (y := { e with pc }) h
  rw [Exec.places_of_names hid, Exec.places_of_names (e := { e with pc }) hid] at hshift
  exact hshift.left.right.right.right

theorem moved_setExec_of_not {pc : ExecPc} (h : e ∈ s.execs) (hid : uuidIn e.id ≠ some job) :
    s.Moved (s.setExec e pc) job [] [] := by
  have hshift := shift_swap (f := Exec.places job) (y := { e with pc }) h
  rw [Exec.places_of_not hid, Exec.places_of_not (e := { e with pc }) hid] at hshift
  exact hshift.left.right.right.right

theorem moved_endExec (h : e ∈ s.execs) : s.Moved (s.endExec e) job (e.places job) [] :=
  (shift_erase h).left.right.right.right

/-- An execution takes its entry off the list and ends. -/
theorem moved_letGo (h : e ∈ s.execs) (hmem : (e.worker, e.id) ∈ s.redis.processing) :
    s.Moved ((s.withRedis (s.redis.lrem e.worker e.id)).endExec e) job
      (idAt .listed job e.id ++ e.places job) [] :=
  (moved_lrem hmem).trans (moved_endExec (s := s.withRedis (s.redis.lrem e.worker e.id)) h)

theorem moved_setSched (h : σ ∈ s.scheds) :
    s.Moved (s.setSched σ σ') job (σ.places job) (σ'.places job) :=
  (shift_swap h).left.right.right.right.right

theorem moved_endSched (h : σ ∈ s.scheds) : s.Moved (s.endSched σ) job (σ.places job) [] :=
  (shift_erase h).left.right.right.right.right

theorem moved_addSched : s.Moved (s.addSched σ) job [] (σ.places job) :=
  shift_cons.left.right.right.right.right

theorem moved_setApi (h : a ∈ s.apis) : s.Moved (s.setApi a a') job (a.places job) (a'.places job) :=
  (shift_swap h).right.right.right.right.right

theorem moved_endApi (h : a ∈ s.apis) : s.Moved (s.endApi a) job (a.places job) [] :=
  (shift_erase h).right.right.right.right.right

theorem moved_respond {req : Request} {code : Nat} {body : Body} (h : a ∈ s.apis) :
    s.Moved (s.respond a req code body) job (a.places job) [] :=
  (shift_erase h).right.right.right.right.right

theorem moved_addApi : s.Moved (s.addApi a) job [] (a.places job) :=
  shift_cons.right.right.right.right.right

end State

end QueueFlow
