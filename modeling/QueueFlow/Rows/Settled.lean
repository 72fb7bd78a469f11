-- SUMMARY: Every succeeded row has an effect, recorded by a worker whose handler for the job returned.
import QueueFlow.Rows.Moves
import QueueFlow.Script

/-!
# Success is backed by an effect

Only `COMMIT` makes a row `'succeeded'`, and the same transaction inserts the effect,
so that whatever fails or is killed in between leaves neither. An observer notes whose
handlers return; an execution reaches its transaction only after its own has.
-/

namespace QueueFlow

open Transition

/-- Notes the worker and the job of every handler that returns. -/
def handlersReturned (_ : State) (a : Act) (_ : State) (log : List (WorkerId × Uuid)) :
    List (WorkerId × Uuid) :=
  match a with
  | .exec ⟨w, _, .handler h⟩ .returned => (w, h.job) :: log
  | _ => log

/-- What an execution holds between the return of its handler and the end of its transaction. -/
def ExecPc.settling : ExecPc → Option Holding
  | .txBegin h => some h
  | .txUpdate h _ => some h
  | .txInsert h _ => some h
  | .txCommit h _ => some h
  | _ => none

/-- The audit of `job_effects`: a succeeded row has an effect, and effects come from handlers
that returned. -/
structure SettledWf (s : State) (log : List (WorkerId × Uuid)) : Prop where
  returned : ∀ e ∈ s.execs, ∀ h, e.pc.settling = some h → (e.worker, h.job) ∈ log
  backed : ∀ job r, s.db.row job = some r → r.status = .succeeded →
    ∃ eff ∈ s.db.effects, eff.jobId = job ∧ (eff.workerId, job) ∈ log

variable {cfg : Config} {s s' : State} {a : Act} {e e' : Exec} {h : Holding}
  {log : List (WorkerId × Uuid)}

theorem mem_handlersReturned {p : WorkerId × Uuid} (hp : p ∈ log) :
    p ∈ handlersReturned s a s' log := by
  unfold handlersReturned
  split
  · exact List.mem_cons_of_mem _ hp
  · exact hp

theorem caught_settling (cfg : Config) (s : State) (h : Holding) (message : Text) (random : Random) :
    (caught cfg s h message random).settling = none := by
  unfold caught
  split <;> rfl

/-! ## How an execution comes to its transaction -/

private theorem settling_of_processOne {o : Outcome} (hstep : processOne cfg s e o = some s')
    (he' : e' ∈ s'.execs) (hpc : e'.pc.settling = some h) : e' ∈ s.execs ∨
      e'.worker = e.worker ∧ (e.pc.settling = some h ∨ e.pc = .handler h ∧ o = .returned) := by
  have hswap {pc : ExecPc} (hmem : e' ∈ Bag.swap s.execs e { e with pc })
      (hfrom : pc.settling = some h → e.pc.settling = some h ∨ e.pc = .handler h ∧ o = .returned) :
      e' ∈ s.execs ∨
        e'.worker = e.worker ∧ (e.pc.settling = some h ∨ e.pc = .handler h ∧ o = .returned) := by
    rcases Bag.mem_of_mem_swap hmem with rfl | hmem
    · exact .inr ⟨rfl, hfrom hpc⟩
    · exact .inl hmem
  cases hpc₀ : e.pc with
  | discard | release =>
      simp only [processOne, hpc₀] at hstep
      cases hstep
      exact .inl (List.mem_of_mem_erase he')
  | select =>
      simp only [processOne, hpc₀] at hstep
      repeat' split at hstep
      all_goals cases hstep
      · exact .inl (List.mem_of_mem_erase he')
      all_goals exact hpc₀ ▸ hswap he' (by rintro ⟨⟩)
  | handler hold =>
      simp only [processOne, hpc₀] at hstep
      split at hstep <;> cases hstep
      · exact hpc₀ ▸ hswap he' fun heq => .inr ⟨by rw [hpc₀, Option.some.inj heq], rfl⟩
      · exact hpc₀ ▸ hswap he' fun heq => by rw [caught_settling] at heq; cases heq
  | txBegin hold | txInsert hold began =>
      simp only [processOne, hpc₀] at hstep
      cases hstep
      exact hpc₀ ▸ hswap he' fun heq => .inl (by rw [hpc₀]; exact heq)
  | txUpdate hold began =>
      simp only [processOne, hpc₀] at hstep
      repeat' split at hstep
      all_goals cases hstep
      · exact hpc₀ ▸ hswap he' (by rintro ⟨⟩)
      · exact hpc₀ ▸ hswap he' fun heq => .inl (by rw [hpc₀]; exact heq)
  | claim | txCommit | txRollback | bury | park | zadd =>
      simp only [processOne, hpc₀] at hstep
      repeat' split at hstep
      all_goals cases hstep
      all_goals exact hpc₀ ▸ hswap he' (by rintro ⟨⟩)

/-- The catch block leads away from the transaction. -/
private theorem settling_of_fails {took : Bool} {message : Text} {random : Random}
    (hstep : fails cfg s e took message random = some s') (he' : e' ∈ s'.execs)
    (hpc : e'.pc.settling = some h) : e' ∈ s.execs := by
  have hswap (h' : Holding)
      (hmem : e' ∈ Bag.swap s.execs e { e with pc := caught cfg s h' message random }) :
      e' ∈ s.execs := by
    rcases Bag.mem_of_mem_swap hmem with rfl | hmem
    · rw [caught_settling] at hpc
      cases hpc
    · exact hmem
  unfold fails at hstep
  repeat' split at hstep
  all_goals cases hstep
  all_goals first
    | exact List.mem_of_mem_erase he'
    | exact hswap _ he'

theorem settling_of_step (hstep : step cfg s a = some s') (he' : e' ∈ s'.execs)
    (hpc : e'.pc.settling = some h) : e' ∈ s.execs ∨ ∃ e ∈ s.execs, e'.worker = e.worker ∧
      (e.pc.settling = some h ∨ e.pc = .handler h ∧ a = .exec e .returned) := by
  rcases exec_origin hstep he' with hmem | ⟨w, rest, -, -, -, hselect⟩ |
    ⟨e, o, rfl, he, hstep⟩ | ⟨e, took, message, random, -, -, hstep⟩
  · exact .inl hmem
  · rw [hselect] at hpc
    split at hpc <;> cases hpc
  · rcases settling_of_processOne hstep he' hpc with hmem | ⟨hw, hfrom | ⟨hfrom, rfl⟩⟩
    · exact .inl hmem
    · exact .inr ⟨e, he, hw, .inl hfrom⟩
    · exact .inr ⟨e, he, hw, .inr ⟨hfrom, rfl⟩⟩
  · exact .inl (settling_of_fails hstep he' hpc)

/-! ## Steps and runs -/

/-- Effects are never deleted. -/
theorem mem_effects_of_step {eff : Effect} (hstep : step cfg s a = some s')
    (heff : eff ∈ s.db.effects) : eff ∈ s'.db.effects := by
  have hdb := db_cases hstep
  generalize s'.db = db at hdb
  generalize s'.claims = claims at hdb
  cases hdb with
  | settled => exact List.mem_cons_of_mem _ heff
  | same | inserted | replayed | claimed | buried | parked | promoted | reapBuried | reapRequeued
  | reset => exact heff

namespace SettledWf

theorem step (wf : SettledWf s log) (lease : LeaseWf cfg s)
    (hstep : QueueFlow.step cfg s a = some s') : SettledWf s' (handlersReturned s a s' log) where
  returned e' he' h hpc := by
    rcases settling_of_step hstep he' hpc with hmem | ⟨e, he, hw, hfrom | ⟨hfrom, rfl⟩⟩
    · exact mem_handlersReturned (wf.returned e' hmem h hpc)
    · rw [hw]
      exact mem_handlersReturned (wf.returned e he h hfrom)
    · obtain ⟨w, id, pc⟩ := e
      obtain rfl : pc = .handler h := hfrom
      rw [hw]
      exact List.mem_cons_self
  backed job r' hrow' hsucc := by
    rcases row_cases lease hstep hrow' with ⟨key, g, -, -, rfl⟩ | ⟨r, hrow, hmove⟩
    · cases hsucc
    cases hmove with
    | same =>
        obtain ⟨eff, heff, hjob, hlog⟩ := wf.backed job r' hrow hsucc
        exact ⟨eff, mem_effects_of_step hstep heff, hjob, mem_handlersReturned hlog⟩
    | settled e h began he ha hpc hjob =>
        have hdb := db_of_effective hstep ha
        rw [hpc] at hdb
        refine ⟨⟨h.job, e.worker, began⟩, ?_, hjob,
          mem_handlersReturned (hjob ▸ wf.returned e he h (by rw [hpc]; rfl))⟩
        rw [hdb]
        exact List.mem_cons_self
    | replayed | claimed | buried | parked | promoted | reapBuried | reapRequeued | reset =>
        cases hsucc

end SettledWf

/-- In every run, whatever fails or is killed, a succeeded row has an effect that was recorded by
a worker whose handler for this job returned. -/
theorem succeeded_has_effect (hrun : Observed (step cfg) always handlersReturned .init [] s log)
    {job : Uuid} {r : JobRow} (hrow : s.db.row job = some r) (hsucc : r.status = .succeeded) :
    ∃ eff ∈ s.db.effects, eff.jobId = job ∧ (eff.workerId, job) ∈ log := by
  have hwf : LeaseWf cfg s ∧ SettledWf s log := by
    refine hrun.invariant (P := fun s log => LeaseWf cfg s ∧ SettledWf s log)
      ⟨.init, nofun, nofun⟩ ?_
    exact fun t log a u ⟨lease, wf⟩ _ hstep => ⟨lease.step hstep, wf.step lease hstep⟩
  exact hwf.2.backed job r hrow hsucc

open Script in
/-- The first `COMMIT` fails, the retry succeeds. -/
theorem succeeded_has_effect_retried : ∃ s log,
    Observed (step defaults) always handlersReturned .init [] s log ∧
      ∃ eff ∈ s.db.effects, eff.jobId = job 1 ∧ (eff.workerId, job 1) ∈ log := by
  have hrun : ∃ s, Reaches defaults always s ∧
      (s.db.row (job 1)).any (fun r => r.status = .succeeded) = true :=
    exists_run_of_play
      (start ['a'] ++ submit (job 1) ++ takes ['a'] 6 ++
        [.act (.execFail ⟨['a'], uuidOut (job 1), .txCommit ⟨job 1, 0, 1, 5⟩ 0⟩ false
          "connection lost".toList noJitter)] ++
        List.replicate 3 (.work ['a'] .returned) ++
        [.act .startSched, .act (.tick 60000000)] ++ List.replicate 5 (.sched .next) ++ takes ['a'] 8)
      (by decide +kernel)
  obtain ⟨s, hs, hany⟩ := hrun
  obtain ⟨r, hrow, hsucc⟩ := (Option.any_eq_true _ _).mp hany
  obtain ⟨log, hlog⟩ := hs.observed handlersReturned []
  exact ⟨s, log, hlog, succeeded_has_effect hlog hrow (of_decide_eq_true hsucc)⟩

end QueueFlow
