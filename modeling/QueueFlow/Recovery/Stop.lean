-- SUMMARY: Which processes there are in any run, and that all of them can be stopped without touching either store.
import QueueFlow.Ids.Canonical
import QueueFlow.Promotion.Backoff

/-!
# Stopping everything

An operator may kill every process. What is left is what Postgres and Redis hold: the state is `Cold`.
`StaffWf` is what every run, whatever fails in it, says about its processes: finitely many ids have been
used, none of them empty, and executions belong to running processes.
-/

namespace QueueFlow

open Transition

/-- No client sends a request. -/
def Unasked (_ : State) : Act → Prop
  | .request _ => False
  | _ => True

/-- The state can be followed by the other one without any request. -/
abbrev Continues (cfg : Config) (s t : State) : Prop := Run (step cfg) Unasked s t

/-- Workers and schedulers run, are killed and are started; none of their commands fails, and the handler of
a job ends as it can. Requests in flight issue no command more. -/
def Tended (can : Uuid → Outcome → Prop) (_ : State) : Act → Prop
  | .request _ | .api _ _ | .execFail _ _ _ _ | .schedFail _ => False
  | .exec e o => ∀ h, e.pc = .handler h → can h.job o
  | _ => True

/-- The state can be followed by the other one with nobody acting but those who tend the queue. -/
abbrev Tends (cfg : Config) (can : Uuid → Outcome → Prop) (s t : State) : Prop := Run (step cfg) (Tended can) s t

theorem Tends.of_step {cfg : Config} {can : Uuid → Outcome → Prop} {s t : State} {a : Act} (h : step cfg s a = some t)
    (ha : Tended can s a) : Tends cfg can s t := .single ha h

theorem Tends.continues {cfg : Config} {can : Uuid → Outcome → Prop} {s t : State} (h : Tends cfg can s t) :
    Continues cfg s t := by
  refine h.mono fun s a ha => ?_
  cases a with
  | request => cases ha
  | _ => trivial

/-- The process has ended, or there was none. -/
def Proc.isDown : Proc → Bool
  | .fresh | .gone => true
  | _ => false

theorem Proc.isDown_iff {p : Proc} : p.isDown = true ↔ p = .fresh ∨ p = .gone := by
  cases p <;> simp [Proc.isDown]

theorem Proc.not_isRunning_of_isDown {p : Proc} (h : p.isDown = true) : p.isRunning = false := by
  cases p with
  | fresh | gone => rfl
  | starting | running => cases h

variable {cfg : Config} {can : Uuid → Outcome → Prop} {s s' t u : State} {a : Act} {w : WorkerId} {e : Exec}

/-! ## The processes of a run -/

/-- A process goes on running until it is killed. -/
theorem isRunning_of_step (h : step cfg s a = some s') (hrun : (s.procs w).isRunning = true) :
    (s'.procs w).isRunning = true ∨ a = .kill w := by
  rcases procs_of_step h with heq | ⟨w', c, rfl, hp, heq⟩ | ⟨w', rfl, heq⟩ | ⟨w', deadline, rfl, hmove⟩
  · rw [heq]
    exact .inl hrun
  · rw [heq, Function.update_apply]
    split
    · rename_i hw
      subst hw
      rcases hp with hp | hp <;> rw [hp] at hrun <;> cases hrun
    · exact .inl hrun
  · rw [heq, Function.update_apply]
    split
    · rename_i hw
      exact .inr (by rw [hw])
    · exact .inl hrun
  · left
    have hstarting {pc : StartPc} {c : Nat} (hp : s.procs w' = .starting pc c) : w ≠ w' := by
      intro hw
      rw [hw, hp] at hrun
      cases hrun
    cases hmove with
    | wait | moved => exact hrun
    | refrain c hp | proceed c hp | nothing c hp | read c hp | reset c _ hp | done c hp | beat c hp =>
        rw [State.setProc_procs, Function.update_of_ne (hstarting hp)]
        exact hrun

/-- An execution has been taken just now, or was there before, with the same entry. -/
theorem exec_entry_of_step (h : step cfg s a = some s') (he : e ∈ s'.execs) :
    (∃ e₀ ∈ s.execs, e₀.worker = e.worker ∧ e₀.id = e.id) ∨
      a = .take e.worker ∧ e.id ∈ s.redis.pending := by
  have hswap {e₀ : Exec} {pc : ExecPc} (he₀ : e₀ ∈ s.execs)
      (hmem : e ∈ Bag.swap s.execs e₀ { e₀ with pc }) :
      ∃ e₀ ∈ s.execs, e₀.worker = e.worker ∧ e₀.id = e.id := by
    rcases Bag.mem_of_mem_swap hmem with rfl | hmem
    · exact ⟨e₀, he₀, rfl, rfl⟩
    · exact ⟨e, hmem, rfl, rfl⟩
  have herase {e₀ : Exec} (hmem : e ∈ s.execs.erase e₀) :
      ∃ e₀ ∈ s.execs, e₀.worker = e.worker ∧ e₀.id = e.id :=
    ⟨e, List.mem_of_mem_erase hmem, rfl, rfl⟩
  rcases exec_origin h he with hmem | ⟨w, rest, rfl, hpending, rfl, -⟩ |
    ⟨e₀, o, -, he₀, h⟩ | ⟨e₀, took, message, random, -, he₀, h⟩
  · exact .inl ⟨e, hmem, rfl, rfl⟩
  · exact .inr ⟨rfl, by simp [hpending]⟩
  · left
    cases processOne_cases h with
    | letGo | rejected => exact herase he
    | found | missing | notClaimable | claimed | work | lock | unowned | insert | settled | fenced
    | buried | parked | zadded => exact hswap he₀ he
  · left
    cases fails_cases h with
    | lost | released | claimed | buried | parked | zadded => exact herase he
    | caught | settled => exact hswap he₀ he

/-- What every run says about its processes. -/
structure StaffWf (s : State) : Prop where
  /-- Executions belong to running processes. -/
  hosted : ∀ e ∈ s.execs, (s.procs e.worker).isRunning = true
  /-- Finitely many worker ids have been used. -/
  finite : ∃ ws : List WorkerId, ∀ w, s.procs w = .fresh ∨ w ∈ ws
  /-- A WORKER_ID is not empty. -/
  nameless : s.procs [] = .fresh
  listed : ∀ k ∈ s.redis.processing, k.1 ≠ []

namespace StaffWf

theorem init : StaffWf .init where
  hosted := by rintro e ⟨⟩
  finite := ⟨[], fun _ => .inl rfl⟩
  nameless := rfl
  listed := by rintro k ⟨⟩

theorem step (wf : StaffWf s) (h : QueueFlow.step cfg s a = some s') : StaffWf s' where
  hosted e he := by
    rcases exec_entry_of_step h he with ⟨e₀, he₀, hworker, -⟩ | ⟨rfl, -⟩
    · have hrun := wf.hosted e₀ he₀
      rw [hworker] at hrun
      refine (isRunning_of_step h hrun).resolve_right ?_
      rintro rfl
      have hkilled := kill_cases h
      subst hkilled
      simpa using (List.mem_filter.mp he).2
    · obtain ⟨c, rest, id, hp, -, rfl⟩ := take_cases h
      exact congrArg Proc.isRunning hp
  finite := by
    obtain ⟨ws, hws⟩ := wf.finite
    have hupdate {p : Proc} {w' : WorkerId} (hprocs : s'.procs = Function.update s.procs w' p) :
        ∃ ws : List WorkerId, ∀ w, s'.procs w = .fresh ∨ w ∈ ws := by
      refine ⟨w' :: ws, fun w => ?_⟩
      rw [hprocs, Function.update_apply]
      split
      · rename_i hw
        exact .inr (hw ▸ List.mem_cons_self)
      · exact (hws w).imp_right (List.mem_cons_of_mem _)
    rcases procs_of_step h with heq | ⟨w', c, rfl, -, heq⟩ | ⟨w', rfl, heq⟩ | ⟨w', deadline, rfl, hmove⟩
    · exact ⟨ws, by rwa [heq]⟩
    · exact hupdate heq
    · exact hupdate heq
    · cases hmove with
      | wait | moved => exact ⟨ws, hws⟩
      | refrain | proceed | nothing | read | reset | done | beat => exact hupdate rfl
  nameless := by
    rcases procs_of_step h with heq | ⟨w', c, rfl, -, heq⟩ | ⟨w', rfl, -⟩ | ⟨w', deadline, rfl, hmove⟩
    · rw [heq]
      exact wf.nameless
    · obtain ⟨-, hne, -⟩ := spawn_cases h
      rw [heq, Function.update_of_ne hne.symm]
      exact wf.nameless
    · have hne : [] ≠ w' := by
        rintro rfl
        have hkill : kill s [] = some s' := h
        rw [kill, wf.nameless] at hkill
        cases hkill
      rw [kill_cases h, State.dropExecs_procs, State.setProc_procs, Function.update_of_ne hne]
      exact wf.nameless
    · have hne {pc : StartPc} {c : Nat} (hp : s.procs w' = .starting pc c) : [] ≠ w' := by
        rintro rfl
        rw [wf.nameless] at hp
        cases hp
      cases hmove with
      | wait | moved => exact wf.nameless
      | refrain c hp | proceed c hp | nothing c hp | read c hp | reset c _ hp | done c hp
      | beat c hp =>
          rw [State.setProc_procs, Function.update_of_ne (hne hp)]
          exact wf.nameless
  listed k hk := by
    rcases processing_of_step h hk with hk | rfl
    · exact wf.listed k hk
    · intro hnil
      obtain ⟨c, rest, id, hp, -, -⟩ := take_cases h
      rw [hnil, wf.nameless] at hp
      cases hp

theorem of_run {ok : State → Act → Prop} (wf : StaffWf s) (h : Run (QueueFlow.step cfg) ok s t) : StaffWf t :=
  h.invariant wf fun _ _ _ wf _ h => wf.step h

end StaffWf

/-! ## The cold state -/

/-- No process runs. -/
structure State.Cold (s : State) : Prop where
  execs : s.execs = []
  scheds : s.scheds = []
  apis : s.apis = []
  procs : ∀ w, (s.procs w).isDown = true

/-- The requests in flight are lost. -/
private theorem crash_apis (cfg : Config) (can : Uuid → Outcome → Prop) : ∀ (l : List Api) (s : State), s.apis = l →
    Tends cfg can s { s with apis := [] } := by
  intro l
  induction l with
  | nil =>
      rintro s h
      rw [← h]
      exact .refl
  | cons x l ih =>
      rintro s h
      have hstep : step cfg s (.apiCrash x) = some { s with apis := l } := by
        simp [step, State.endApi, h]
      exact (Tends.of_step hstep trivial).trans (ih _ rfl)

private theorem kill_scheds (cfg : Config) (can : Uuid → Outcome → Prop) :
    ∀ (l : List Sched) (s : State), s.scheds = l →
    Tends cfg can s { s with scheds := [] } := by
  intro l
  induction l with
  | nil =>
      rintro s h
      rw [← h]
      exact .refl
  | cons σ l ih =>
      rintro s h
      have hstep : step cfg s (.schedKill σ) = some { s with scheds := l } := by
        simp [step, State.endSched, h]
      exact (Tends.of_step hstep trivial).trans (ih _ rfl)

/-- The stores and the threads that a worker process does not own. -/
private structure Spared (s t : State) : Prop where
  db : t.db = s.db
  redis : t.redis = s.redis
  scheds : t.scheds = s.scheds
  apis : t.apis = s.apis

private theorem kill_workers (cfg : Config) (can : Uuid → Outcome → Prop) :
    ∀ (ws : List WorkerId) (s : State), ∃ t, Tends cfg can s t ∧
    Spared s t ∧ (∀ w ∈ ws, (t.procs w).isDown = true) ∧
      ∀ w, (s.procs w).isDown = true → (t.procs w).isDown = true := by
  intro ws
  induction ws with
  | nil =>
      intro s
      exact ⟨s, .refl, ⟨rfl, rfl, rfl, rfl⟩, by rintro w ⟨⟩, fun _ => id⟩
  | cons w ws ih =>
      intro s
      by_cases hdown : (s.procs w).isDown = true
      · obtain ⟨t, hrun, hspared, hws, hkeep⟩ := ih s
        refine ⟨t, hrun, hspared, fun w' hw' => ?_, hkeep⟩
        rcases List.mem_cons.mp hw' with rfl | hw'
        · exact hkeep _ hdown
        · exact hws w' hw'
      · have hup : (s.procs w).isRunning || (s.procs w).isStarting := by
          cases hp : s.procs w with
          | fresh | gone => rw [hp] at hdown; exact absurd rfl hdown
          | starting | running => rfl
        have hstep : step cfg s (.kill w) = some ((s.setProc w .gone).dropExecs w) := if_pos hup
        obtain ⟨t, hrun, hspared, hws, hkeep⟩ := ih ((s.setProc w .gone).dropExecs w)
        have hgone (w' : WorkerId) (h : w' = w ∨ (s.procs w').isDown = true) :
            (((s.setProc w .gone).dropExecs w).procs w').isDown = true := by
          rw [State.dropExecs_procs, State.setProc_procs, Function.update_apply]
          split
          · rfl
          · rename_i hne
            exact h.resolve_left hne
        refine ⟨t, (Tends.of_step hstep trivial).trans hrun,
          ⟨hspared.db, hspared.redis, hspared.scheds, hspared.apis⟩, fun w' hw' => ?_,
          fun w' hw' => hkeep w' (hgone w' (.inr hw'))⟩
        rcases List.mem_cons.mp hw' with rfl | hw'
        · exact hkeep _ (hgone _ (.inl rfl))
        · exact hws w' hw'

variable (cfg can) in
/-- Every process can be killed, wherever it is. -/
theorem StaffWf.exists_cold (wf : StaffWf s) :
    ∃ t, Tends cfg can s t ∧ t.Cold ∧ t.db = s.db ∧ t.redis = s.redis := by
  obtain ⟨ws, hws⟩ := wf.finite
  obtain ⟨t, hrun, hspared, hdown, hkeep⟩ := kill_workers cfg can ws s
  have hprocs (w : WorkerId) : (t.procs w).isDown = true := by
    rcases hws w with hfresh | hw
    · exact hkeep w (by rw [hfresh]; rfl)
    · exact hdown w hw
  have hexecs : t.execs = [] := by
    refine List.eq_nil_iff_forall_not_mem.mpr fun e he => ?_
    have hrunning := (wf.of_run hrun).hosted e he
    rw [Proc.not_isRunning_of_isDown (hprocs e.worker)] at hrunning
    cases hrunning
  have hscheds := kill_scheds cfg can t.scheds t rfl
  have hapis := crash_apis cfg can t.apis { t with scheds := [] } rfl
  exact ⟨_, hrun.trans (hscheds.trans hapis), ⟨hexecs, rfl, rfl, hprocs⟩, hspared.db, hspared.redis⟩

end QueueFlow
