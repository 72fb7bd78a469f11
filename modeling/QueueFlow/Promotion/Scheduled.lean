-- SUMMARY: promoteDue sets rows that are 'retrying', as long as nobody else takes a row out of that status while its promotion is scheduled.
import QueueFlow.Ledger.Shifts
import QueueFlow.Recovery.Retry
import QueueFlow.Rows.Moves
import QueueFlow.Script

/-!
# Scheduled promotions

`promoteDue` sets a row without looking at its status. What it relies on is that a job whose
promotion is scheduled stays `'retrying'` until then. The park establishes it; every other
statement that finds the row `'retrying'` breaks it.
-/

namespace QueueFlow

open Transition

/-! ## Statements that leave a promotion behind -/

/-- The command takes no row out of `'retrying'` whose promotion is scheduled. -/
def ExecPc.SparesScheduled (cfg : Config) (s : State) : ExecPc → Prop
  | .claim job _ => ¬ s.Scheduled job
  | .txCommit h _ => ¬ s.Scheduled h.job
  | .bury h _ => (s.ownRow cfg h).isSome = true → ¬ s.Scheduled h.job
  | _ => True

/-- The same for a scheduler; its own promotion is the only one that its UPDATE may end. -/
def Sched.SparesScheduled (s : State) : Sched → Prop
  | .promoteUpdate id due =>
      ∀ job ∈ uuidIn id, ¬ (s.endSched (.promoteUpdate id due)).Scheduled job
  | .reapBury _ id _ | .reapRequeue _ id _ => ∀ job ∈ uuidIn id, ¬ s.Scheduled job
  | _ => True

/-- No statement takes a row out of `'retrying'` and leaves a promotion of the job scheduled. -/
def SparesScheduled (cfg : Config) (s : State) : Act → Prop
  | .exec e _ | .execFail e true _ _ => e.pc.SparesScheduled cfg s
  | .sched σ _ => σ.SparesScheduled s
  | _ => True

instance (cfg : Config) (s : State) (pc : ExecPc) : Decidable (pc.SparesScheduled cfg s) := by
  induction pc using ExecPc.casesOn with
  | claim | txCommit => exact inferInstanceAs (Decidable (¬ _))
  | bury => exact inferInstanceAs (Decidable (_ → _))
  | _ => exact .isTrue trivial

instance (s : State) (σ : Sched) : Decidable (σ.SparesScheduled s) := by
  induction σ using Sched.casesOn with
  | promoteUpdate | reapBury | reapRequeue =>
      exact inferInstanceAs (Decidable (∀ _ ∈ uuidIn _, _))
  | _ => exact .isTrue trivial

instance (cfg : Config) (s : State) (a : Act) : Decidable (SparesScheduled cfg s a) := by
  induction a using Act.casesOn with
  | exec e => exact inferInstanceAs (Decidable (e.pc.SparesScheduled cfg s))
  | execFail e took =>
      induction took using Bool.casesOn with
      | true => exact inferInstanceAs (Decidable (e.pc.SparesScheduled cfg s))
      | false => exact .isTrue trivial
  | sched σ => exact inferInstanceAs (Decidable (σ.SparesScheduled s))
  | _ => exact .isTrue trivial

section

variable {cfg : Config} {s s' : State} {a : Act} {job : Uuid} {τ : Sched} {t : Text}

theorem SparesScheduled.exec {e : Exec} (hok : SparesScheduled cfg s a)
    (ha : a.effective? = some e) : e.pc.SparesScheduled cfg s := by
  rcases Act.effective?_eq_some ha with ⟨o, rfl⟩ | ⟨message, random, rfl⟩ <;> exact hok

/-! ## Where a promotion comes from -/

/-- A promoter has removed the id from the delayed set, now or before. -/
private theorem promotes_origin (canonical : s.Canonical) (h : step cfg s a = some s')
    (hτ : τ ∈ s'.scheds) (ht : τ.promotes = some t) :
    τ ∈ s.scheds ∨ s.redis.isDelayed t = true ∧ ∃ u, t = uuidOut u := by
  cases sched_origin h hτ with
  | stays hτ => exact .inl hτ
  | rests hhand =>
      cases τ with
      | promoteUpdate => cases hhand
      | _ => cases ht
  | removed id due hdue =>
      cases ht
      obtain ⟨score, hmem⟩ := Redis.isDelayed_iff.mp hdue
      exact .inr ⟨hdue, canonical _ hmem⟩
  | judges key id keys u =>
      rcases judge_cases key id keys (s.db.row u) with
        ⟨heq, -⟩ | ⟨r, -, -, -, ⟨heq, -⟩ | ⟨heq, -⟩⟩ <;> rw [heq] at ht <;> cases ht
  | promoted | peeks | reads | rejects | buried | requeued => cases ht

/-- Only the park leads to the `ZADD`, and it makes the row `'retrying'`. -/
private theorem parks_origin {e' : Exec} (h : step cfg s a = some s') (he' : e' ∈ s'.execs)
    (hparks : e'.pc.parks = some job) :
    e' ∈ s.execs ∨ ∃ r, s'.db.row job = some r ∧ r.status = .retrying := by
  have hswap {e : Exec} {pc : ExecPc} (hmem : e' ∈ Bag.swap s.execs e { e with pc })
      (hpc : pc.parks = none) : e' ∈ s.execs := by
    rcases Bag.mem_of_mem_swap hmem with rfl | hmem
    · rw [hpc] at hparks
      cases hparks
    · exact hmem
  have howning {pc : ExecPc} {hold : Holding} (hphase : pc.phase = .owning hold) :
      pc.parks = none := by
    cases pc <;> first | rfl | cases hphase
  rcases exec_origin h he' with hmem | ⟨w, rest, -, -, -, htaken⟩ |
    ⟨e, o, -, -, h⟩ | ⟨e, took, message, random, -, -, h⟩
  · exact .inl hmem
  · rw [htaken] at hparks
    split at hparks <;> cases hparks
  · cases processOne_cases h with
    | letGo | rejected => exact .inl (List.mem_of_mem_erase he')
    | parked hold message runAt r hpc hfree hown =>
        rcases Bag.mem_of_mem_swap he' with rfl | he'
        · cases hparks
          exact .inr ⟨_, Db.row_updateRow_self (Db.keepsId_parked _ _)
            (State.ownRow_some hown).1, rfl⟩
        · exact .inl he'
    | work hold pc _ _ hphase => exact .inl (hswap he' (howning hphase))
    | found | missing | notClaimable | claimed | lock | unowned | insert | settled | fenced | buried
    | zadded => exact .inl (hswap he' rfl)
  · left
    cases fails_cases h with
    | lost | released | claimed | buried | parked | zadded => exact List.mem_of_mem_erase he'
    | caught hold pc _ hphase | settled hold _ pc _ _ hphase => exact hswap he' (howning hphase)

/-- A promotion that is scheduled was scheduled before, or the row has just been parked. -/
theorem scheduled_origin (canonical : s.Canonical) (h : step cfg s a = some s')
    (hsched : s'.Scheduled job) :
    s.Scheduled job ∨ ∃ r, s'.db.row job = some r ∧ r.status = .retrying := by
  rcases hsched with hdelayed | ⟨τ, hτ, hpromotes⟩ | ⟨e', he', hparks⟩
  · left
    obtain ⟨score, hmem⟩ := Redis.isDelayed_iff.mp hdelayed
    rcases delayed_of_step h hmem with hmem | ⟨e, hold, runAt, ha, hpc, heq⟩
    · exact .inl (Redis.isDelayed_iff.mpr ⟨score, hmem⟩)
    · have hjob : job = hold.job := uuidOut_inj (congrArg Prod.fst heq)
      exact .inr (.inr ⟨e, exec_mem_of_step h ha, by rw [hpc, hjob]; rfl⟩)
  · left
    rcases promotes_origin canonical h hτ hpromotes with hτ | ⟨hdelayed, -⟩
    · exact .inr (.inl ⟨τ, hτ, hpromotes⟩)
    · exact .inl hdelayed
  · exact (parks_origin h he' hparks).imp_left fun he => .inr (.inr ⟨e', he, hparks⟩)

/-- After the UPDATE of a promotion only other promotions are scheduled. -/
private theorem scheduled_after_promotion {id : Text} {due : List Text} {pick : Pick}
    (h : step cfg s (.sched (.promoteUpdate id due) pick) = some s') (hid : uuidIn id = some job)
    (hsched : s'.Scheduled job) : (s.endSched (.promoteUpdate id due)).Scheduled job := by
  obtain ⟨-, h⟩ := Option.ite_none_right_eq_some.mp h
  simp only [schedule, promoteDue, hid] at h
  split at h <;> cases h
  rcases hsched with hdelayed | ⟨τ, hτ, hpromotes⟩ | hparks
  · exact .inl hdelayed
  · rcases List.mem_cons.mp hτ with rfl | hτ
    · cases hpromotes
    · exact .inr (.inl ⟨τ, hτ, hpromotes⟩)
  · exact .inr (.inr hparks)

/-! ## The invariant -/

/-- Jobs whose promotion is scheduled are `'retrying'`, and promoters hold canonical ids. -/
structure PromotionWf (s : State) : Prop where
  canonical : s.Canonical
  texts : ∀ τ ∈ s.scheds, ∀ t, τ.promotes = some t → ∃ u, t = uuidOut u
  waits : ∀ job, s.Scheduled job → ∃ r, s.db.row job = some r ∧ r.status = .retrying

namespace PromotionWf

theorem init : PromotionWf .init where
  canonical := nofun
  texts := nofun
  waits job hsched := by
    rcases hsched with h | ⟨τ, h, -⟩ | ⟨e, h, -⟩ <;> cases h

theorem step (wf : PromotionWf s) (lease : LeaseWf cfg s) (hok : SparesScheduled cfg s a)
    (h : QueueFlow.step cfg s a = some s') : PromotionWf s' where
  canonical m hm := by
    rcases delayed_of_step h hm with hm | ⟨e, hold, runAt, -, -, rfl⟩
    · exact wf.canonical m hm
    · exact ⟨hold.job, rfl⟩
  texts τ hτ t ht := by
    rcases promotes_origin wf.canonical h hτ ht with hτ | ⟨-, hcanonical⟩
    · exact wf.texts τ hτ t ht
    · exact hcanonical
  waits job hsched' := by
    rcases scheduled_origin wf.canonical h hsched' with hsched | hparked
    case inr => exact hparked
    obtain ⟨r, hrow, hretrying⟩ := wf.waits job hsched
    obtain ⟨r', hrow', hmove⟩ := rowMove_of_step lease h hrow
    refine ⟨r', hrow', ?_⟩
    cases hmove with
    | same => exact hretrying
    | parked => rfl
    | replayed id g ha hid hdead =>
        rw [hretrying] at hdead
        cases hdead
    | reset w c stranded deadline ha hp hstranded =>
        rw [running_of_strandedRow hstranded] at hretrying
        cases hretrying
    | claimed e m he ha hpc =>
        have hspares := hok.exec ha
        rw [hpc] at hspares
        exact absurd hsched hspares
    | settled e hold began he ha hpc hjob =>
        have hspares := hok.exec ha
        rw [hpc] at hspares
        exact absurd (hjob ▸ hsched) hspares
    | buried e hold message he ha hpc hjob hown =>
        have hspares := hok.exec ha
        rw [hpc] at hspares
        have hfound := State.ownRow_isSome.mpr ⟨r, hjob ▸ hrow, hown⟩
        exact absurd (hjob ▸ hsched) (hspares hfound)
    | promoted id due pick hσ ha hid =>
        subst ha
        exact absurd (scheduled_after_promotion h hid hsched') (hok job hid)
    | reapBuried key id keys pick hσ ha hid =>
        subst ha
        exact absurd hsched (hok job hid)
    | reapRequeued key id keys pick hσ ha hid =>
        subst ha
        exact absurd hsched (hok job hid)

end PromotionWf

/-- In every run in which no statement takes a row out of `'retrying'` and leaves a promotion of
its job scheduled, a scheduler that comes to the UPDATE of `promoteDue` finds the row `'retrying'`. -/
theorem promotion_reopens_retrying (hrun : Reaches cfg (SparesScheduled cfg) s) {id : Text}
    {due : List Text} (hσ : .promoteUpdate id due ∈ s.scheds) :
    ∃ job r, uuidIn id = some job ∧ s.db.row job = some r ∧ r.status = .retrying := by
  have hwf : LeaseWf cfg s ∧ PromotionWf s := by
    refine hrun.invariant (P := fun s => LeaseWf cfg s ∧ PromotionWf s) ⟨.init, .init⟩ ?_
    exact fun t a u ⟨lease, wf⟩ hok h => ⟨lease.step h, wf.step lease hok h⟩
  obtain ⟨job, rfl⟩ := hwf.2.texts _ hσ id rfl
  obtain ⟨r, hrow, hretrying⟩ := hwf.2.waits job (.inr (.inl ⟨_, hσ, rfl⟩))
  exact ⟨job, r, uuidIn_uuidOut job, hrow, hretrying⟩

end

/-! ## Runs -/

open Script in
/-- A failed attempt is parked, and its promotion comes to the UPDATE. -/
theorem promotion_reopens_retrying_parked : ∃ s, Reaches defaults (SparesScheduled defaults) s ∧
    .promoteUpdate (uuidOut (job 1)) [] ∈ s.scheds ∧
      ∃ u r, uuidIn (uuidOut (job 1)) = some u ∧ s.db.row u = some r ∧ r.status = .retrying := by
  have hrun : ∃ s, Reaches defaults (SparesScheduled defaults) s ∧
      .promoteUpdate (uuidOut (job 1)) [] ∈ s.scheds :=
    exists_run_of_play
      (start ['a'] ++ submit (job 1) ++ throws ['a'] 3 ++
        [.act .startSched, .act (.tick 60000000), .sched .next, .sched .next])
      (by decide +kernel)
  obtain ⟨s, hs, hσ⟩ := hrun
  exact ⟨s, hs, hσ, promotion_reopens_retrying hs hσ⟩

open Script in
/-- A worker is killed between its `ZADD` and its `LREM` and restarted under its id. It takes the
entry again and claims the row, which is `'retrying'`, and the promotion resets it while it runs. -/
theorem promotion_hits_running : ∃ s, Reaches defaults always s ∧
    .promoteUpdate (uuidOut (job 1)) [] ∈ s.scheds ∧
      ∃ r ∈ s.db.row (job 1), r.status = .running :=
  exists_run_of_play
    (start ['a'] ++ submit (job 1) ++ throws ['a'] 2 ++ dies ['a'] ++
      [.act (.spawn ['a'] 5)] ++ List.replicate 6 (.act (.recoverOwn ['a'] false)) ++ takes ['a'] 2 ++
      [.act .startSched, .act (.tick 60000000), .sched .next, .sched .next])
    (by decide +kernel)

end QueueFlow
