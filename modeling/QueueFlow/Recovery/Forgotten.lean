-- SUMMARY: Once everything is stopped, a job that is not recoverable is forgotten: no process that starts later ever changes its row.
import QueueFlow.Recovery.Revive

/-!
# Forgotten jobs

When nothing runs, a job is forgotten when its row says 'running' or 'retrying' and its id is in no list
and not in the delayed set. Programs come across a job through texts that circulate in Redis and through
the sweep, which asks for queued rows only. So nobody comes across a forgotten job, and it stays so.
-/

namespace QueueFlow

open Transition

section

variable {cfg : Config} {s s' t : State} {a : Act} {w : WorkerId} {id : Text} {job : Uuid} {r : JobRow}
  {e' : Exec} {τ : Sched}

/-! ## Where a process has an id from -/

/-- An execution that may write was there before, or is of an id that is pending. -/
private theorem accepted_origin (h : step cfg s a = some s') (he' : e' ∈ s'.execs) (hpc : e'.pc ≠ .discard) :
    (∃ e ∈ s.execs, e.id = e'.id ∧ e.pc ≠ .discard) ∨ e'.id ∈ s.redis.pending ∧ isUuid e'.id = true := by
  have hswap {e : Exec} {pc : ExecPc} (he : e ∈ s.execs) (hmem : e' ∈ Bag.swap s.execs e { e with pc })
      (hnot : e.pc ≠ .discard) : ∃ e ∈ s.execs, e.id = e'.id ∧ e.pc ≠ .discard := by
    rcases Bag.mem_of_mem_swap hmem with rfl | hmem
    · exact ⟨e, he, rfl, hnot⟩
    · exact ⟨e', hmem, rfl, hpc⟩
  have herase {e : Exec} (hmem : e' ∈ s.execs.erase e) : ∃ e ∈ s.execs, e.id = e'.id ∧ e.pc ≠ .discard :=
    ⟨e', List.mem_of_mem_erase hmem, rfl, hpc⟩
  rcases exec_origin h he' with hmem | ⟨w, rest, rfl, hpending, rfl, hpc'⟩ |
    ⟨e, o, -, he, h⟩ | ⟨e, took, message, random, -, he, h⟩
  · exact .inl ⟨e', hmem, rfl, hpc⟩
  · refine .inr ⟨by simp [hpending], ?_⟩
    by_contra hnot
    rw [if_neg hnot] at hpc'
    exact hpc hpc'
  · left
    cases processOne_cases h with
    | letGo | rejected => exact herase he'
    | found _ _ hpc | missing _ hpc | notClaimable _ _ hpc | claimed _ _ _ hpc | work _ _ hpc
    | lock _ _ _ hpc | unowned _ _ hpc | insert _ _ hpc | settled _ _ hpc | fenced _ hpc
    | buried _ _ _ hpc | parked _ _ _ _ hpc | zadded _ _ hpc =>
        refine hswap he he' fun hdiscard => ?_
        rw [hdiscard] at hpc
        cases hpc
  · left
    cases fails_cases h with
    | lost | released | claimed | buried | parked | zadded => exact herase he'
    | caught _ _ hpc | settled _ _ _ _ hpc =>
        refine hswap he he' fun hdiscard => ?_
        rw [hdiscard] at hpc
        cases hpc

/-- The id whose job `reapWorker` is about to look up or to write. -/
def Sched.examines : Sched → Option Text
  | .reapSelect _ id _ => some id
  | .reapBury _ id _ => some id
  | .reapRequeue _ id _ => some id
  | _ => none

theorem Sched.examines_of_reaping (h : τ.reaping = none) : τ.examines = none := by
  cases τ <;> first | rfl | cases h

/-- The reaper examines an id that it examined before, or one that it has just read from a list. -/
private theorem examined_origin (h : step cfg s a = some s') (hτ : τ ∈ s'.scheds) (hid : τ.examines = some id) :
    (∃ σ ∈ s.scheds, σ.examines = some id) ∨ (∃ w, (w, id) ∈ s.redis.processing) ∧ isUuid id = true := by
  cases ha : a.sched? with
  | none =>
      rcases scheds_of_step h ha with heq | ⟨-, heq⟩ <;> rw [heq] at hτ
      · exact .inl ⟨τ, hτ, hid⟩
      · rcases List.mem_cons.mp hτ with rfl | hτ
        · cases hid
        · exact .inl ⟨τ, hτ, hid⟩
  | some σ =>
      have hset {σ' : Sched} (hmem : τ ∈ Bag.swap s.scheds σ σ') (hnone : σ'.examines = none) :
          ∃ σ ∈ s.scheds, σ.examines = some id := by
        rcases Bag.mem_of_mem_swap hmem with rfl | hmem
        · rw [hnone] at hid
          cases hid
        · exact ⟨τ, hmem, hid⟩
      obtain ⟨hσ, hmove | ⟨-, rfl⟩⟩ := sched_move_of_step h ha
      · cases hmove with
        | quiet σ' _ _ hreap => exact .inl (hset hτ (Sched.examines_of_reaping hreap))
        | crashed => exact .inl ⟨τ, List.mem_of_mem_erase hτ, hid⟩
        | removed | promoted | pushed | check | junk | dropped | buried | requeued | moved | emptied | swept =>
            exact .inl (hset hτ rfl)
        | peek key id' keys _ hlast huuid =>
            rcases Bag.mem_of_mem_swap hτ with rfl | hmem
            · cases hid
              exact .inr ⟨⟨key, KeyedList.mem_of_last? hlast⟩, huuid⟩
            · exact .inl ⟨τ, hmem, hid⟩
        | select key id' keys job hpc =>
            rcases Bag.mem_of_mem_swap hτ with rfl | hmem
            · left
              refine ⟨σ, hσ, ?_⟩
              rcases judge_cases key id' keys (s.db.row job) with
                ⟨heq, -⟩ | ⟨r, -, -, -, ⟨heq, -⟩ | ⟨heq, -⟩⟩ <;> rw [heq] at hid <;> cases hid <;> rw [hpc] <;> rfl
            · exact .inl ⟨τ, hmem, hid⟩
      · exact .inl ⟨τ, List.mem_of_mem_erase hτ, hid⟩

/-- A starting process resets the jobs of the ids that it has read from its list. -/
private theorem stranded_origin {stranded : List Text} {c : Nat} (h : step cfg s a = some s')
    (hp : s'.procs w = .starting (.reset stranded) c) (hid : id ∈ stranded) :
    (∃ c, s.procs w = .starting (.reset stranded) c) ∨ (w, id) ∈ s.redis.processing ∧ isUuid id = true := by
  have hupdate {w' : WorkerId} {p : Proc} (hprocs : s'.procs = Function.update s.procs w' p)
      (hne : ∀ c, p ≠ .starting (.reset stranded) c) : ∃ c, s.procs w = .starting (.reset stranded) c := by
    rw [hprocs, Function.update_apply] at hp
    split at hp
    · exact absurd hp (hne c)
    · exact ⟨c, hp⟩
  rcases procs_of_step h with heq | ⟨w', c', rfl, -, heq⟩ | ⟨w', rfl, heq⟩ | ⟨w', deadline, rfl, hmove⟩
  · exact .inl ⟨c, heq ▸ hp⟩
  · exact .inl (hupdate heq (by rintro _ ⟨⟩))
  · exact .inl (hupdate heq (by rintro _ ⟨⟩))
  · cases hmove with
    | wait | moved => exact .inl ⟨c, hp⟩
    | refrain | proceed | nothing | reset | done | beat => exact .inl (hupdate rfl (by rintro _ ⟨⟩))
    | read c' hp' hlist =>
        rw [State.setProc_procs, Function.update_apply] at hp
        split at hp
        · rename_i hw
          cases hp
          obtain ⟨hmem, huuid⟩ := List.mem_filter.mp hid
          exact .inr ⟨hw ▸ KeyedList.mem_get.mp hmem, huuid⟩
        · exact .inl ⟨c, hp⟩

/-! ## Forgotten jobs -/

/-- Nobody will come across the job. -/
structure Forgotten (s : State) (job : Uuid) (r : JobRow) : Prop where
  row : s.db.row job = some r
  unfinished : r.status.terminal = false
  unqueued : r.status ≠ .queued
  texts : ∀ id, s.Circulates id → ¬ Names id job
  execs : ∀ e ∈ s.execs, e.pc ≠ .discard → uuidIn e.id ≠ some job
  hands : ∀ σ ∈ s.scheds, ∀ id, σ.hand = some id → uuidIn id ≠ some job
  reaps : ∀ σ ∈ s.scheds, ∀ id, σ.examines = some id → uuidIn id ≠ some job
  sweeps : ∀ σ ∈ s.scheds, job ∉ σ.candidates
  resets : ∀ w stranded c, s.procs w = .starting (.reset stranded) c → ∀ id ∈ stranded, uuidIn id ≠ some job
  apis : s.apis = []

namespace Forgotten

/-- A job that is not recoverable is forgotten when nothing runs. -/
theorem of_cold (wf : RestartWf cfg s) (cold : s.Cold) (hrow : s.db.row job = some r)
    (hterm : r.status.terminal = false) (hnot : ¬ s.Recoverable job) : Forgotten s job r where
  row := hrow
  unfinished := hterm
  unqueued hqueued := hnot (.inr ⟨r, hrow, hqueued⟩)
  texts id hid hnames := by
    cases hid with
    | pending hid => exact hnot (.inl (.inl ⟨id, hid, hnames⟩))
    | listed w hid => exact hnot (.inl (.inr (.inl ⟨(w, id), hid, hnames⟩)))
    | delayed score hid =>
        obtain ⟨u, rfl⟩ : ∃ u, id = uuidOut u := wf.canonical _ hid
        obtain rfl : u = job := Option.some.inj ((uuidIn_uuidOut u).symm.trans hnames.2)
        exact hnot (.inl (.inr (.inr (Redis.isDelayed_iff.mpr ⟨score, hid⟩))))
    | promoting σ hσ =>
        rw [cold.scheds] at hσ
        cases hσ
    | pushing x hx =>
        rw [cold.apis] at hx
        cases hx
  execs e he := by
    rw [cold.execs] at he
    cases he
  hands σ hσ := by
    rw [cold.scheds] at hσ
    cases hσ
  reaps σ hσ := by
    rw [cold.scheds] at hσ
    cases hσ
  sweeps σ hσ := by
    rw [cold.scheds] at hσ
    cases hσ
  resets w stranded c hp := by
    have hdown := cold.procs w
    rw [hp] at hdown
    cases hdown
  apis := cold.apis

/-- No command writes the row. -/
private theorem row_eq (forgotten : Forgotten s job r) (lease : LeaseWf cfg s) (h : step cfg s a = some s') :
    s'.db.row job = some r := by
  obtain ⟨r', hrow'⟩ := row_of_step h forgotten.row
  have hnamed {e : Exec} (he : e ∈ s.execs) (hjob : e.pc.job? = some job) : False := by
    refine forgotten.execs e he ?_ (lease.named e he job hjob)
    intro hpc
    rw [hpc] at hjob
    cases hjob
  have hapi {x : Api} {g : Uuid} (ha : a = .api x g) : False := by
    subst ha
    obtain ⟨hx, -⟩ := Option.ite_none_right_eq_some.mp h
    rw [forgotten.apis] at hx
    cases hx
  rcases row_cases lease h hrow' with ⟨key, g, ha, -⟩ | ⟨r₀, hr₀, hmove⟩
  · exact (hapi ha).elim
  obtain rfl := Option.some.inj (forgotten.row.symm.trans hr₀)
  cases hmove with
  | same => exact hrow'
  | replayed id g ha => exact (hapi ha).elim
  | claimed e m he _ hpc => exact (hnamed he (by rw [hpc]; rfl)).elim
  | settled e h began he _ hpc hjob => exact (hnamed he (by rw [hpc, ← hjob]; rfl)).elim
  | buried e h message he _ hpc hjob => exact (hnamed he (by rw [hpc, ← hjob]; rfl)).elim
  | parked e h message runAt he _ hpc hjob => exact (hnamed he (by rw [hpc, ← hjob]; rfl)).elim
  | promoted id due pick hσ _ hid => exact absurd hid (forgotten.hands _ hσ id rfl)
  | reapBuried key id keys pick hσ _ hid => exact absurd hid (forgotten.reaps _ hσ id rfl)
  | reapRequeued key id keys pick hσ _ hid => exact absurd hid (forgotten.reaps _ hσ id rfl)
  | reset w c stranded deadline _ hp hstranded =>
      simp only [strandedRow, Bool.and_eq_true, List.any_eq_true, decide_eq_true_eq] at hstranded
      obtain ⟨⟨id, hid, heq⟩, -⟩ := hstranded
      rw [Db.id_of_row forgotten.row] at heq
      exact absurd heq (forgotten.resets w stranded c hp id hid)

/-- No command puts a text of the job into circulation. -/
private theorem texts_of_step (forgotten : Forgotten s job r) (lease : LeaseWf cfg s)
    (h : step cfg s a = some s') (hid : s'.Circulates id) : ¬ Names id job := by
  intro hnames
  have hjob {u : Uuid} (ht : id = uuidOut u) : u = job :=
    Option.some.inj ((uuidIn_uuidOut u).symm.trans (ht ▸ hnames.2))
  rcases circulates_cases h hid with hid | hid
  · exact forgotten.texts id hid hnames
  cases hid with
  | swept u candidates held pick _ hσ ht =>
      obtain rfl := hjob ht
      exact forgotten.sweeps _ hσ List.mem_cons_self
  | parked e hold runAt ha hpc ht =>
      have he := exec_mem_of_step h ha
      refine forgotten.execs e he (by rw [hpc]; rintro ⟨⟩) ?_
      rw [← hjob ht]
      exact lease.named e he _ (by rw [hpc]; rfl)
  | inserted u hnew _ ht =>
      obtain rfl := hjob ht
      rw [forgotten.row] at hnew
      cases hnew
  | replayed g u ha =>
      subst ha
      obtain ⟨hx, -⟩ := Option.ite_none_right_eq_some.mp h
      rw [forgotten.apis] at hx
      cases hx

/-- A forgotten job stays forgotten, whatever starts, as long as no client sends a request. -/
theorem step (forgotten : Forgotten s job r) (wf : RestartWf cfg s) (hok : Unasked s a)
    (h : QueueFlow.step cfg s a = some s') : Forgotten s' job r where
  row := forgotten.row_eq wf.lease h
  unfinished := forgotten.unfinished
  unqueued := forgotten.unqueued
  texts _ hid := forgotten.texts_of_step wf.lease h hid
  execs e' he' hpc := by
    rcases accepted_origin h he' hpc with ⟨e, he, hid, hnot⟩ | ⟨hid, huuid⟩
    · rw [← hid]
      exact forgotten.execs e he hnot
    · exact fun heq => forgotten.texts _ (.pending hid) ⟨huuid, heq⟩
  hands τ hτ id hhand := by
    cases sched_origin h hτ with
    | stays hτ => exact forgotten.hands τ hτ id hhand
    | rests hrest =>
        rw [hrest] at hhand
        cases hhand
    | removed id' due hdue =>
        cases hhand
        obtain ⟨score, hmem⟩ := Redis.isDelayed_iff.mp hdue
        obtain ⟨u, rfl⟩ : ∃ u, id = uuidOut u := wf.canonical _ hmem
        intro heq
        refine forgotten.texts _ (.delayed score hmem) ⟨?_, heq⟩
        obtain rfl := Option.some.inj ((uuidIn_uuidOut u).symm.trans heq)
        exact (wf.names forgotten.row).1
    | promoted id' due hσ =>
        cases hhand
        exact forgotten.hands _ hσ id rfl
    | judges key id' keys u =>
        rcases judge_cases key id' keys (s.db.row u) with
          ⟨heq, -⟩ | ⟨r, -, -, -, ⟨heq, -⟩ | ⟨heq, -⟩⟩ <;> rw [heq] at hhand <;> cases hhand
    | peeks | reads | rejects | buried | requeued => cases hhand
  reaps τ hτ id hid := by
    rcases examined_origin h hτ hid with ⟨σ, hσ, hid⟩ | ⟨⟨w, hmem⟩, huuid⟩
    · exact forgotten.reaps σ hσ id hid
    · exact fun heq => forgotten.texts _ (.listed w hmem) ⟨huuid, heq⟩
  sweeps τ hτ hjob := by
    rcases candidates_of_step h hτ hjob with ⟨σ, hσ, hjob⟩ | horphan
    · exact forgotten.sweeps σ hσ hjob
    · obtain ⟨r', hr', rfl⟩ := List.mem_map.mp horphan
      obtain ⟨hmem, hold⟩ := List.mem_filter.mp ((List.mem_insertionSort _).mp (List.mem_of_mem_take hr'))
      obtain rfl := Option.some.inj (forgotten.row.symm.trans (wf.row_of_mem hmem))
      simp only [isOrphanCandidate, Bool.and_eq_true, decide_eq_true_eq] at hold
      exact forgotten.unqueued hold.1
  resets w stranded c hp id hid := by
    rcases stranded_origin h hp hid with ⟨c', hp'⟩ | ⟨hmem, huuid⟩
    · exact forgotten.resets w stranded c' hp' id hid
    · exact fun heq => forgotten.texts _ (.listed w hmem) ⟨huuid, heq⟩
  apis := by
    rcases apis_of_step h with ⟨-, heq, -⟩ | ⟨req, rfl, -⟩ | ⟨x, rfl, -⟩ | ⟨x, g, rfl, hx, -⟩
    · rw [heq, forgotten.apis]
    · exact hok.elim
    · obtain ⟨hx, -⟩ := Option.ite_none_right_eq_some.mp h
      rw [forgotten.apis] at hx
      cases hx
    · rw [forgotten.apis] at hx
      cases hx

end Forgotten

/-- When nothing runs any more: no process that may start later changes the row of an unfinished job, unless
a client sends a request, exactly when the job is not recoverable. -/
theorem forgotten_iff_not_recoverable {ok : State → Act → Prop} (hrun : Reaches cfg ok s) (cold : s.Cold)
    (hrow : s.db.row job = some r) (hterm : r.status.terminal = false) :
    (∀ t, Continues cfg s t → t.db.row job = some r) ↔ ¬ s.Recoverable job := by
  have wf := RestartWf.init.of_run hrun
  constructor
  · intro hkeeps hrec
    obtain ⟨t, htends, hstatus, -⟩ := wf.exists_succeeds (fun _ _ => True) trivial
      (fun _ => ⟨.returned, trivial⟩) hrow hterm hrec
    rw [State.HasStatus, hkeeps t htends.continues, Option.map_some] at hstatus
    rw [Option.some.inj hstatus] at hterm
    cases hterm
  · intro hnot t hcont
    refine (hcont.invariant (P := fun t => RestartWf cfg t ∧ Forgotten t job r)
      ⟨wf, .of_cold wf cold hrow hterm hnot⟩ ?_).2.row
    rintro u a v ⟨wf, forgotten⟩ hok h
    exact ⟨wf.step h, forgotten.step wf hok h⟩

end

open Script in
/-- The scheduler dies between its `ZREM` and its UPDATE, and then everything is stopped. -/
theorem forgotten_iff_not_recoverable_promoted : ∃ s r, Reaches defaults (fun _ _ => True) s ∧ s.Cold ∧
    s.db.row (job 1) = some r ∧ r.status = .retrying ∧
      ∀ t, Continues defaults s t → t.db.row (job 1) = some r := by
  have hplay : ∃ s, Reaches defaults (fun _ _ => True) s ∧
      ((s.db.row (job 1)).any (·.status = .retrying) = true ∧ ¬ s.Recoverable (job 1)) :=
    exists_run_of_play (start ['a'] ++ submit (job 1) ++ throws ['a'] 3 ++
      [.act .startSched, .act (.tick 60000000), .sched .next, .sched .next, .killSched]) (by decide +kernel)
  obtain ⟨s, hrun, hany, hnot⟩ := hplay
  obtain ⟨r, hrow, hstatus⟩ := (Option.any_eq_true _ _).mp hany
  have hretrying : r.status = .retrying := of_decide_eq_true hstatus
  obtain ⟨t, hstop, cold, hdb, hredis⟩ :=
    (RestartWf.init.of_run hrun).staff.exists_cold defaults fun _ _ => True
  have hrunₜ : Reaches defaults (fun _ _ => True) t := hrun.trans (hstop.mono fun _ _ _ => trivial)
  have hrowₜ : t.db.row (job 1) = some r := by rw [hdb, hrow]
  have hnotₜ : ¬ t.Recoverable (job 1) := by
    simpa only [State.Recoverable, State.Held, hdb, hredis] using hnot
  exact ⟨t, r, hrunₜ, cold, hrowₜ, hretrying,
    (forgotten_iff_not_recoverable hrunₜ cold hrowₜ (by rw [hretrying]; rfl)).mpr hnotₜ⟩

end QueueFlow
