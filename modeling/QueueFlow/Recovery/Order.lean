-- SUMMARY: The order in which pending gives out what a recovery path has put back, against the order in which it had been taken.
import QueueFlow.Recovery.Reap
import Mathlib.Data.List.Palindrome

/-!
# The order of what is put back

`BLMOVE` takes the right end of `pending` and pushes at the left end of the processing list, so that
the list, read from its right end, is in the order of the takes. Both recovery paths move its right
end to the right end of `pending`, entry by entry, and the entry moved last is taken first.
-/

namespace QueueFlow

open Transition

/-! ## Taking -/

/-- The entries of `pending` in the order in which `BLMOVE` takes them. -/
def Redis.pops (r : Redis) : List Text := r.pending.reverse

/-- Only `w` takes entries. -/
def Taking (w : WorkerId) (_ : State) (a : Act) : Prop := a = .take w

variable {cfg : Config} {w : WorkerId} {s s' t : State} {back : List Text}

theorem pops_of_take (h : take s w = some s') : ∃ id, s.redis.pops = id :: s'.redis.pops ∧
    s'.redis.lrange w = id :: s.redis.lrange w := by
  unfold take at h
  split at h
  · obtain ⟨-, h⟩ := Option.ite_none_right_eq_some.mp h
    obtain ⟨⟨id, redis⟩, hmove, rfl⟩ := Option.map_eq_some_iff.mp h
    obtain ⟨last, hlast, heq⟩ := Option.map_eq_some_iff.mp hmove
    cases heq
    refine ⟨id, ?_, KeyedList.get_pushLeft_self⟩
    have hpending : s.redis.pending = s.redis.pending.dropLast ++ [id] :=
      (List.dropLast_append_getLast? id hlast).symm
    calc s.redis.pops = (s.redis.pending.dropLast ++ [id]).reverse := congrArg List.reverse hpending
      _ = id :: s.redis.pending.dropLast.reverse := List.reverse_concat
  · cases h

/-- A list that was empty holds, from its right end, what was taken. -/
theorem pops_of_takes (h : Run (step cfg) (Taking w) s t) : ∃ taken,
    s.redis.pops = taken ++ t.redis.pops ∧ t.redis.lrange w = taken.reverse ++ s.redis.lrange w := by
  induction h with
  | refl => exact ⟨[], rfl, rfl⟩
  | tail a hrun hok hstep ih =>
    obtain ⟨taken, hpops, hlist⟩ := ih
    cases hok
    obtain ⟨id, hpops', hlist'⟩ := pops_of_take hstep
    refine ⟨taken ++ [id], ?_, ?_⟩
    · rw [hpops, hpops', List.append_assoc, List.singleton_append]
    · rw [hlist', hlist, List.reverse_concat, List.cons_append]

/-! ## Putting back -/

/-- The entries that `reapWorker` puts back into `pending`, the oldest first. -/
def State.rescued (s : State) (w : WorkerId) : List Text :=
  (s.redis.lrange w).reverse.filter s.rescues

/-- One of the two recovery paths has gone through the list of `w` alone, and has put back these
entries, in the order in which they were taken. -/
inductive Recovers (cfg : Config) (w : WorkerId) (s t : State) : List Text → Prop where
  | reap (keys : List WorkerId) (hσ : s.scheds = [.reapPeek w keys])
      (hfree : ∀ job, s.locked job = false) (ht : Run (step cfg) (Reaping w) s t)
      (hpassed : t.Passed) : Recovers cfg w s t (s.rescued w)
  | own (c : Nat) (hp : s.procs w = .starting .checkAlive c) (halive : w ∉ s.redis.alive)
      (hfree : ∀ job, s.locked job = false) (ht : Completes (step cfg) (SelfAlone w) s t) :
      Recovers cfg w s t (s.recovered w)

/-- What was put back is taken next, the newest entry first. -/
theorem pops_of_recovers (h : Recovers cfg w s t back) :
    t.redis.pops = back.reverse ++ s.redis.pops := by
  have hpending : t.redis.pending = s.redis.pending ++ back := by
    cases h with
    | reap keys hσ hfree ht hpassed =>
      exact (reaped_of_passed (.begin hfree hσ) hσ ht hpassed).pending
    | own c hp halive hfree ht =>
      obtain ⟨t', ht', -, -, hpending⟩ := @self_completes cfg w s c hp halive hfree
      obtain rfl := ht.unique (selfAlone_deterministic w) ht'
      exact hpending
  rw [Redis.pops, hpending, List.reverse_append]
  rfl

theorem palindrome_iff_of_nodup {α : Type*} {l : List α} (h : l.Nodup) : l.Palindrome ↔ l.length ≤ 1 := by
  constructor
  · intro hl
    cases hl with
    | nil => exact Nat.zero_le 1
    | singleton x => exact le_rfl
    | cons_concat x hl =>
      have hnot := (List.nodup_cons.mp h).1
      exact absurd (List.mem_append_right _ (List.mem_singleton_self x)) hnot
  · intro hl
    cases l with
    | nil => exact .nil
    | cons x l =>
      cases l with
      | nil => exact .singleton x
      | cons y l => exact absurd (Nat.le_of_succ_le_succ hl) (Nat.not_succ_le_zero _)

/-- What is put back goes ahead of everything that waits. It keeps the order in which it was taken,
and a take followed by a recovery that drops nothing restores the order of `pending`, just when that
order reads the same from both ends: of distinct entries, when there is at most one. -/
theorem recovery_keeps_order_iff (h : Recovers cfg w s t back) :
    (∃ l, l.Perm back ∧ t.redis.pops = l ++ s.redis.pops) ∧
      (t.redis.pops = back ++ s.redis.pops ↔ back.Palindrome) ∧
      (back.Nodup → (t.redis.pops = back ++ s.redis.pops ↔ back.length ≤ 1)) ∧
      ∀ s₀ s₁, s₀.redis.lrange w = [] → Run (step cfg) (Taking w) s₀ s₁ →
        s.redis.pending = s₁.redis.pending → s.redis.lrange w = s₁.redis.lrange w →
        back = (s.redis.lrange w).reverse → (t.redis.pops = s₀.redis.pops ↔ back.Palindrome) := by
  have hpops := pops_of_recovers h
  have hkept : t.redis.pops = back ++ s.redis.pops ↔ back.Palindrome := by
    rw [hpops, List.append_left_inj, List.Palindrome.iff_reverse_eq]
  refine ⟨⟨back.reverse, List.reverse_perm back, hpops⟩, hkept,
    fun hnodup => hkept.trans (palindrome_iff_of_nodup hnodup), ?_⟩
  intro s₀ s₁ hnil hrun hpending hlist hback
  obtain ⟨taken, hpops₀, hlist₁⟩ := pops_of_takes hrun
  have htaken : back = taken := by
    rw [hback, hlist, hlist₁, hnil, List.append_nil, List.reverse_reverse]
  have hsame : s₀.redis.pops = back ++ s.redis.pops := by
    rw [hpops₀, htaken, Redis.pops, Redis.pops, hpending]
  rw [hsame]
  exact hkept

open Script in
/-- Of a list with entries of every kind one job is put back, ahead of the one that waits. -/
theorem recovery_keeps_order_single : ∃ t, Recovers defaults ['a'] leftMixed t [uuidOut (job 1)] ∧
    t.redis.pops = [uuidOut (job 1), uuidOut (job 3)] := by
  have hrun : ∃ t, Run (step defaults) (Reaping ['a']) leftMixed t ∧ t.scheds = [.reapCheck []] :=
    exists_run_of_play (List.replicate 13 (.sched .next)) (by decide +kernel)
  obtain ⟨t, ht, hscheds⟩ := hrun
  have hrescued : leftMixed.rescued ['a'] = [uuidOut (job 1)] := by decide +kernel
  have hrecovers : Recovers defaults ['a'] leftMixed t [uuidOut (job 1)] :=
    hrescued ▸ .reap [] rfl (fun _ => rfl) ht ⟨[], hscheds⟩
  exact ⟨t, hrecovers, (recovery_keeps_order_iff hrecovers).2.1.mpr (.singleton _)⟩

namespace Script

/-- A worker takes two jobs and is killed; a scheduler finds its list. -/
def takesTwo : List Cue :=
  start ['a'] ++ submit (job 1) ++ submit (job 2) ++ [.act (.take ['a']), .act (.take ['a']),
    .act (.kill ['a']), .act (.expire ['a']), .act .startSched, .sched .recover,
    .sched (.visit ['a']), .sched .next, .sched .next]

end Script

open Script in
/-- The worker took the first job before the second; after the pass the second is taken first. -/
theorem recovery_reverses : ∃ s t, Reaches defaults always s ∧
    Recovers defaults ['a'] s t [uuidOut (job 1), uuidOut (job 2)] ∧
      t.redis.pops = [uuidOut (job 2), uuidOut (job 1)] ∧
      t.redis.pops ≠ [uuidOut (job 1), uuidOut (job 2)] ++ s.redis.pops := by
  have hruns : ∃ s t, Reaches defaults always s ∧ (s.execs = [] ∧ s.scheds = [.reapPeek ['a'] []] ∧
      s.rescued ['a'] = [uuidOut (job 1), uuidOut (job 2)] ∧ s.redis.pops = []) ∧
      Run (step defaults) (Reaping ['a']) s t ∧ t.scheds = [.reapCheck []] ∧
        t.redis.pops = [uuidOut (job 2), uuidOut (job 1)] :=
    exists_runs_of_play takesTwo (List.replicate 9 (.sched .next)) (by decide +kernel)
  obtain ⟨s, t, hs, ⟨hexecs, hscheds, hrescued, hempty⟩, ht, hpassed, hpops⟩ := hruns
  have hfree : ∀ job, s.locked job = false := fun job => by simp [State.locked, hexecs]
  refine ⟨s, t, hs, hrescued ▸ .reap [] hscheds hfree ht ⟨[], hpassed⟩, hpops, ?_⟩
  rw [hpops, hempty]
  decide +kernel

end QueueFlow
