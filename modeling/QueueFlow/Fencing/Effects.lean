-- SUMMARY: How often a job's effect is recorded: at most once while no unguarded UPDATE hits a succeeded row, and twice in a run where one does.
import QueueFlow.Fencing.Lease
import QueueFlow.Script

/-!
# Recorded effects

The success transaction records an effect and makes the row `'succeeded'`. With
fencing on, a second effect needs a second claim, hence a row that has left
`'succeeded'`. The claim and the guarded writes never take a row out of that
status; the three UPDATEs of the scheduler that name only the id do.
-/

namespace QueueFlow

open Transition

/-- The id whose row the next command of a scheduler sets without looking at its status. -/
def Sched.overwrites : Sched → Option Text
  | .promoteUpdate id _ => some id
  | .reapBury _ id _ => some id
  | .reapRequeue _ id _ => some id
  | _ => none

/-- The command commits the success transaction. -/
def ExecPc.commits : ExecPc → Bool
  | .txCommit _ _ => true
  | _ => false

/-- No scheduler overwrites a succeeded row, and no reply to a COMMIT is lost. -/
def SparesSucceeded (s : State) : Act → Prop
  | .sched σ _ => (σ.overwrites.bind fun id => (uuidIn id).bind s.db.row).all
      (fun r => r.status ≠ .succeeded) = true
  | .execFail e took _ _ => (took && e.pc.commits) = false
  | _ => True

/-- An effect is recorded at most once, and only for a row that is `'succeeded'`;
nobody is about to write to such a row under its own lease. -/
structure EffectWf (s : State) : Prop where
  once : ∀ job, s.db.effectsFor job ≤ 1
  settled : ∀ job, 0 < s.db.effectsFor job → ∃ r, s.db.row job = some r ∧ r.status = .succeeded
  spent : ∀ e ∈ s.execs, ∀ h, e.pc.phase = .owning h → ∀ r, s.db.row h.job = some r →
    r.status = .succeeded → r.leaseId ≠ some h.lease

namespace EffectWf

variable {cfg : Config} {s s' : State}

theorem init : EffectWf .init where
  once _ := by simp [State.init, Db.empty, Db.effectsFor]
  settled _ h := by simp [State.init, Db.empty, Db.effectsFor] at h
  spent := nofun

/-- Statements that leave succeeded rows alone and make no row succeeded. -/
theorem congr (wf : EffectWf s) (heffects : s'.db.effects = s.db.effects)
    (hstay : ∀ job r, s.db.row job = some r → r.status = .succeeded → s'.db.row job = some r)
    (hback : ∀ job r, s'.db.row job = some r → r.status = .succeeded → s.db.row job = some r)
    (hexecs : ∀ e ∈ s'.execs, ∀ h, e.pc.phase = .owning h →
      (∃ e₀ ∈ s.execs, e₀.pc.phase = .owning h) ∨
        ∀ r, s'.db.row h.job = some r → r.status ≠ .succeeded) : EffectWf s' := by
  have hcount : ∀ job, s'.db.effectsFor job = s.db.effectsFor job := fun job => by
    simp only [Db.effectsFor, heffects]
  refine ⟨fun job => hcount job ▸ wf.once job, ?_, ?_⟩
  · intro job hpos
    obtain ⟨r, hrow, hsucc⟩ := wf.settled job (hcount job ▸ hpos)
    exact ⟨r, hstay job r hrow hsucc, hsucc⟩
  · intro e he h hpc r hrow hsucc
    rcases hexecs e he h hpc with ⟨e₀, he₀, hpc₀⟩ | hnot
    · exact wf.spent e₀ he₀ h hpc₀ r (hback _ r hrow hsucc) hsucc
    · exact absurd hsucc (hnot r hrow)

/-- Only threads change, and none of them comes to own a job. -/
theorem threads (wf : EffectWf s) (hdb : s'.db = s.db)
    (hexecs : ∀ e ∈ s'.execs, ∀ h, e.pc.phase = .owning h →
      ∃ e₀ ∈ s.execs, e₀.pc.phase = .owning h) : EffectWf s' :=
  wf.congr (by rw [hdb]) (fun _ _ h _ => by rwa [hdb]) (fun _ _ h _ => by rwa [← hdb])
    fun e he h hpc => .inl (hexecs e he h hpc)

theorem same (wf : EffectWf s) (hdb : s'.db = s.db) (hexecs : s'.execs = s.execs) : EffectWf s' :=
  wf.threads hdb fun e he _ hpc => ⟨e, hexecs ▸ he, hpc⟩

theorem withRedis (wf : EffectWf s) {r : Redis} : EffectWf (s.withRedis r) := wf.same rfl rfl

theorem endExec (wf : EffectWf s) {e : Exec} : EffectWf (s.endExec e) :=
  wf.threads rfl fun e' he' _ hpc => ⟨e', List.mem_of_mem_erase he', hpc⟩

/-- An execution moves without coming to own a job. -/
theorem setExec (wf : EffectWf s) {e : Exec} {pc : ExecPc} (he : e ∈ s.execs)
    (hpc : ∀ h, pc.phase = .owning h → e.pc.phase = .owning h) : EffectWf (s.setExec e pc) := by
  refine wf.threads rfl fun e' he' h hh => ?_
  rcases Bag.mem_of_mem_swap he' with rfl | he'
  · exact ⟨e, he, hpc h hh⟩
  · exact ⟨e', he', hh⟩

/-- An UPDATE that only matches rows that are not succeeded and makes none succeeded. -/
theorem update (wf : EffectWf s) {whr : JobRow → Bool} {set : JobRow → JobRow}
    (hid : Db.KeepsId set) (hset : ∀ r, (set r).status ≠ .succeeded)
    (hwhr : ∀ job r, s.db.row job = some r → whr r = true → r.status ≠ .succeeded) :
    EffectWf (s.withDb (s.db.update whr set)) := by
  refine wf.congr rfl ?_ ?_ fun e he h hpc => .inl ⟨e, he, hpc⟩
  · intro job r hrow hsucc
    have hno : ¬ whr r = true := fun hw => hwhr job r hrow hw hsucc
    simp [Db.row_update hid, hrow, hno]
  · intro job r hrow hsucc
    rw [State.withDb_db, Db.row_update hid] at hrow
    obtain ⟨r₀, hrow₀, rfl⟩ := Option.map_eq_some_iff.mp hrow
    split at hsucc
    · exact absurd hsucc (hset r₀)
    · rename_i hno
      simpa [hno] using hrow₀

theorem write (wf : EffectWf s) {job : Uuid} {set : JobRow → JobRow} (hid : Db.KeepsId set)
    (hset : ∀ r, (set r).status ≠ .succeeded)
    (hrow : ∀ r, s.db.row job = some r → r.status ≠ .succeeded) : EffectWf (s.write job set) :=
  wf.update hid hset fun _ r hr hw => by
    have : r.id = job := by simpa using hw
    exact hrow r (by rw [← this, Db.id_of_row hr]; exact hr)

theorem insertJob (wf : EffectWf s) {r : JobRow} (hnew : s.db.row r.id = none)
    (hstatus : r.status ≠ .succeeded) : EffectWf (s.withDb (s.db.insertJob r)) := by
  refine wf.congr rfl ?_ ?_ fun e he h hpc => .inl ⟨e, he, hpc⟩
  · rintro job r' hrow -
    have hne : job ≠ r.id := by
      rintro rfl
      rw [hnew] at hrow
      cases hrow
    rw [State.withDb_db, Db.row_insertJob hnew, if_neg hne, hrow]
  · intro job r' hrow hsucc
    rw [State.withDb_db, Db.row_insertJob hnew] at hrow
    split at hrow
    · cases hrow
      exact absurd hsucc hstatus
    · exact hrow

/-- A row that an execution owns is not succeeded. -/
theorem ownRow_not_succeeded (wf : EffectWf s) (hfence : cfg.fencing = true) {e : Exec}
    {h : Holding} (he : e ∈ s.execs) (hpc : e.pc.phase = .owning h)
    (hown : (s.ownRow cfg h).isSome = true) :
    ∀ r, s.db.row h.job = some r → r.status ≠ .succeeded := by
  intro r hrow hsucc
  obtain ⟨r', hrow', hlease⟩ := State.ownRow_isSome.mp hown
  rw [hrow] at hrow'
  cases hrow'
  exact wf.spent e he h hpc r hrow hsucc (hlease hfence)

/-- `COMMIT` by the execution that owns the row: the first effect of the job. -/
theorem settle (wf : EffectWf s) (lease : LeaseWf cfg s) (hfence : cfg.fencing = true) {e : Exec}
    {h : Holding} {began : Nat} (he : e ∈ s.execs) (hpc : e.pc = .txCommit h began) :
    EffectWf ((s.settle e h began).setExec e .release) := by
  have hhold : e.pc.holding? = some h := by rw [hpc]; rfl
  have hown := lease.locking e he h hhold (by rw [hpc]; rfl)
  have hphase : e.pc.phase = .owning h := by rw [hpc]; rfl
  have hnot := wf.ownRow_not_succeeded hfence he hphase hown
  obtain ⟨r₀, hrow₀, hlease₀⟩ := State.ownRow_isSome.mp hown
  have hrow : ∀ job, (s.settle e h began).db.row job =
      if job = h.job then (s.db.row job).map (.succeeded began) else s.db.row job := fun job =>
    Db.row_updateRow (Db.keepsId_succeeded began)
  have hcount : ∀ job, (s.settle e h began).db.effectsFor job =
      s.db.effectsFor job + if h.job = job then 1 else 0 := fun job =>
    Db.effectsFor_insertEffect _
  have hzero : s.db.effectsFor h.job = 0 := by
    by_contra hpos
    obtain ⟨r, hr, hsucc⟩ := wf.settled h.job (Nat.pos_of_ne_zero hpos)
    exact hnot r hr hsucc
  refine ⟨?_, ?_, ?_⟩
  · intro job
    rw [State.setExec_db, hcount]
    split
    · rename_i heq
      subst heq
      omega
    · exact wf.once job
  · intro job hpos
    rw [State.setExec_db] at hpos ⊢
    rw [hcount] at hpos
    rw [hrow]
    split
    · rename_i heq
      subst heq
      exact ⟨_, by rw [hrow₀, Option.map_some], rfl⟩
    · rename_i hne
      rw [if_neg (Ne.symm hne)] at hpos
      exact wf.settled job hpos
  · intro e' he' h' hpc' r hr hsucc
    rcases List.mem_cons.mp he' with rfl | he'
    · cases hpc'
    rw [State.setExec_db, hrow] at hr
    split at hr
    · rename_i heq
      -- The row carries the lease of this execution, which no other one remembers.
      intro hl
      rw [heq, hrow₀, Option.map_some] at hr
      cases hr
      have hhold' := ExecPc.holding?_of_owning hpc'
      have heqLease : h'.lease = h.lease := by
        have := hlease₀ hfence
        simp only [JobRow.succeeded] at hl
        rw [this] at hl
        exact (Option.some.inj hl).symm
      have hone := lease.unique h.lease
      have hswap := Bag.countP_swap (p := Exec.holds h.lease) (b := { e with pc := .release }) he
      have hpos : 0 < (Bag.swap s.execs e { e with pc := .release }).countP (Exec.holds h.lease) :=
        Bag.countP_pos_of_mem (List.mem_cons_of_mem _ he')
          (Exec.holds_iff.mpr ⟨h', hhold', heqLease⟩)
      have h1 : Exec.holds h.lease e = true := Exec.holds_iff.mpr ⟨h, hhold, rfl⟩
      have h2 : Exec.holds h.lease { e with pc := .release } = false := rfl
      simp only [Bag.unit, h1, h2, if_true, Bool.false_eq_true, if_false] at hswap
      omega
    · exact wf.spent e' (List.mem_of_mem_erase he') h' hpc' r hr hsucc

/-- The claim takes effect on a claimable row. -/
theorem claim (wf : EffectWf s) {e : Exec} {job : Uuid} {r : JobRow}
    (hrow : s.claimableRow job = some r) : EffectWf (s.claim e job) := by
  obtain ⟨hrow, hclaimable⟩ := State.claimableRow_some hrow
  have hwrite : EffectWf (s.write job (.claimed s.db.nextLease s.now)) := by
    refine wf.write (Db.keepsId_claimed _ _) (fun _ => nofun) ?_
    intro r' hr' hsucc
    rw [hrow] at hr'
    cases hr'
    rw [hsucc] at hclaimable
    cases hclaimable
  exact hwrite.congr rfl (fun _ _ h _ => h) (fun _ _ h _ => h) fun e he h hpc => .inl ⟨e, he, hpc⟩

/-! ## Steps -/

theorem execMove (wf : EffectWf s) (lease : LeaseWf cfg s) (hfence : cfg.fencing = true) {e : Exec}
    (he : e ∈ s.execs) (h : ExecMove cfg s e s') : EffectWf s' := by
  cases h with
  | letGo => exact wf.withRedis.endExec
  | rejected => exact wf.endExec
  | found | missing | notClaimable | fenced => exact wf.setExec he nofun
  | claimed job m r hpc hfree hrow =>
      have hclaim : EffectWf (s.claim e job) := wf.claim hrow
      refine hclaim.congr rfl (fun _ _ h _ => h) (fun _ _ h _ => h) ?_
      intro e' he' h hh
      rcases Bag.mem_of_mem_swap he' with rfl | he'
      · -- The row this execution now owns has just become 'running'.
        cases hh
        refine .inr fun r' hr' hsucc => ?_
        have hr' : (s.db.updateRow job (.claimed s.db.nextLease s.now)).row job = some r' := hr'
        rw [Db.row_updateRow_self (Db.keepsId_claimed _ _) (State.claimableRow_some hrow).1] at hr'
        cases hr'
        cases hsucc
      · exact .inl ⟨e', he', hh⟩
  | work h pc hpc _ hpc' => exact wf.setExec he fun h' hh => by rw [hpc, ← hpc', hh]
  | lock h began r hpc | unowned h began hpc | insert h began hpc =>
      exact wf.setExec he fun h' hh => by rw [hpc]; exact hh
  | settled h began hpc => exact wf.settle lease hfence he hpc
  | buried h message r hpc hfree hrow =>
      have hnot := wf.ownRow_not_succeeded hfence he (by rw [hpc]; rfl) (by rw [hrow]; rfl)
      exact (wf.write (Db.keepsId_buried _ _) (fun _ => nofun) hnot).setExec he nofun
  | parked h message runAt r hpc hfree hrow =>
      have hnot := wf.ownRow_not_succeeded hfence he (by rw [hpc]; rfl) (by rw [hrow]; rfl)
      exact (wf.write (Db.keepsId_parked _ _) (fun _ => nofun) hnot).setExec he nofun
  | zadded => exact wf.withRedis.setExec he nofun

theorem failMove (wf : EffectWf s) (hfence : cfg.fencing = true) {e : Exec} {took : Bool}
    (he : e ∈ s.execs) (hreply : (took && e.pc.commits) = false) (h : FailMove cfg s e took s') :
    EffectWf s' := by
  cases h with
  | lost => exact wf.endExec
  | released | zadded => exact wf.withRedis.endExec
  | claimed job m r hpc hfree hrow => exact (wf.claim hrow).endExec
  | caught h pc hpc hpc' => exact wf.setExec he fun h' hh => by rw [hpc, ← hpc', hh]
  | settled h began pc htook hpc => simp [htook, hpc, ExecPc.commits] at hreply
  | buried h message r hpc hfree hrow =>
      have hnot := wf.ownRow_not_succeeded hfence he (by rw [hpc]; rfl) (by rw [hrow]; rfl)
      exact (wf.write (Db.keepsId_buried _ _) (fun _ => nofun) hnot).endExec
  | parked h message runAt r hpc hfree hrow =>
      have hnot := wf.ownRow_not_succeeded hfence he (by rw [hpc]; rfl) (by rw [hrow]; rfl)
      exact (wf.write (Db.keepsId_parked _ _) (fun _ => nofun) hnot).endExec

theorem schedMove (wf : EffectWf s) {σ : Sched}
    (hspare : (σ.overwrites.bind fun id => (uuidIn id).bind s.db.row).all
      (fun r => r.status ≠ .succeeded) = true) (h : SchedMove s σ s') : EffectWf s' := by
  have hnot : ∀ id job, σ.overwrites = some id → uuidIn id = some job →
      ∀ r, s.db.row job = some r → r.status ≠ .succeeded := by
    intro id job hσ hid r hrow
    simpa [hσ, hid, hrow] using hspare
  cases h with
  | promoted id due job hpc hid =>
      have hrow := hnot id job (by rw [hpc]; rfl) hid
      exact (wf.write Db.keepsId_promoted (fun _ => nofun) hrow).same rfl rfl
  | buried key id keys job hpc hid =>
      have hrow := hnot id job (by rw [hpc]; rfl) hid
      exact (wf.write (Db.keepsId_buried _ _) (fun _ => nofun) hrow).same rfl rfl
  | requeued key id keys job hpc hid =>
      have hrow := hnot id job (by rw [hpc]; rfl) hid
      exact (wf.write Db.keepsId_requeued (fun _ => nofun) hrow).same rfl rfl
  | quiet | removed | crashed | pushed | check | peek | junk | select | dropped | moved | emptied
  | swept => exact wf.same rfl rfl

theorem apiMove (wf : EffectWf s) {a : Api} (h : ApiMove s a s') : EffectWf s' := by
  cases h with
  | inserted key generated _ _ hrow => exact (wf.insertJob hrow (by simp [JobRow.inserted])).same rfl rfl
  | replayed id job r _ _ _ hrow hdead =>
      refine (wf.write Db.keepsId_replayed (fun _ => nofun) ?_).same rfl rfl
      intro r' hr' hsucc
      rw [hrow] at hr'
      cases hr'
      rw [hdead] at hsucc
      cases hsucc
  | turned | answered | pushed => exact wf.same rfl rfl

theorem startMove (wf : EffectWf s) {w : WorkerId} {deadline : Bool}
    (h : StartMove s w deadline s') : EffectWf s' := by
  cases h with
  | reset c stranded =>
      refine (wf.update Db.keepsId_requeued (fun _ => nofun) ?_).same rfl rfl
      intro job r _ hw hsucc
      simp [strandedRow, hsucc] at hw
  | wait => exact wf
  | refrain | proceed | nothing | read | moved | done | beat => exact wf.same rfl rfl

/-- A step that spares succeeded rows records no second effect. -/
theorem step {a : Act} (wf : EffectWf s) (lease : LeaseWf cfg s) (hfence : cfg.fencing = true)
    (hok : SparesSucceeded s a) (h : QueueFlow.step cfg s a = some s') : EffectWf s' := by
  cases a with
  | tick | request | startSched => cases h; exact wf.same rfl rfl
  | api a generated =>
      obtain ⟨-, h⟩ := Option.ite_none_right_eq_some.mp h
      exact wf.apiMove (handle_cases h)
  | apiCrash | schedKill =>
      obtain ⟨-, h⟩ := Option.ite_none_right_eq_some.mp h
      cases h
      exact wf.same rfl rfl
  | spawn =>
      obtain ⟨-, -, rfl⟩ := spawn_cases h
      exact wf.same rfl rfl
  | recoverOwn => exact wf.startMove (recoverOwnProcessing_cases h)
  | beat =>
      obtain ⟨-, rfl⟩ := beat_cases h
      exact wf.same rfl rfl
  | expire =>
      cases expire_cases h
      exact wf.same rfl rfl
  | take =>
      obtain ⟨c, rest, id, -, -, rfl⟩ := take_cases h
      refine wf.threads rfl fun e he h hpc => ?_
      rcases List.mem_cons.mp he with rfl | he
      · simp only at hpc
        split at hpc <;> cases hpc
      · exact ⟨e, he, hpc⟩
  | exec e =>
      obtain ⟨he, h⟩ := Option.ite_none_right_eq_some.mp h
      exact wf.execMove lease hfence he (processOne_cases h)
  | execFail e =>
      obtain ⟨he, h⟩ := Option.ite_none_right_eq_some.mp h
      exact wf.failMove hfence he hok (fails_cases h)
  | kill =>
      cases kill_cases h
      exact wf.threads rfl fun e he _ hpc => ⟨e, List.mem_of_mem_filter he, hpc⟩
  | sched σ =>
      obtain ⟨-, h⟩ := Option.ite_none_right_eq_some.mp h
      exact wf.schedMove hok (schedule_cases h)
  | schedFail σ =>
      obtain ⟨-, h⟩ := Option.ite_none_right_eq_some.mp h
      unfold abandonPass at h
      split at h
      · cases h
        exact wf.same rfl rfl
      · cases h

end EffectWf

/-- With fencing on, in every run in which no scheduler overwrites a succeeded row,
no job has more than one effect. -/
theorem effectsFor_le_one {cfg : Config} (hfence : cfg.fencing = true) {s : State}
    (hs : Reaches cfg SparesSucceeded s) (job : Uuid) : s.db.effectsFor job ≤ 1 := by
  have hinv := hs.invariant (P := fun s => LeaseWf cfg s ∧ EffectWf s) ⟨.init, .init⟩
    fun _ _ _ ⟨lease, wf⟩ hok hstep => ⟨lease.step hstep, wf.step lease hfence hok hstep⟩
  exact hinv.2.once job

instance (s : State) (a : Act) : Decidable (SparesSucceeded s a) := by
  induction a using Act.casesOn with
  | sched | execFail => exact inferInstanceAs (Decidable (_ = _))
  | _ => exact .isTrue trivial

open Script in
/-- Worker `a` runs the job and is suspected, the reaper rescues the job, `b` takes it to its effect, and
the handler of `a` returns after that. -/
theorem effectsFor_le_one_submitted : ∃ s : State, s.db.effectsFor (job 1) = 1 ∧
    s.execs = [] ∧ s.claims.length = 2 ∧ s.db.effectsFor (job 1) ≤ 1 := by
  have hrun : ∃ s, Reaches defaults SparesSucceeded s ∧ s.db.effectsFor (job 1) = 1 ∧ s.execs = [] ∧
      s.claims.length = 2 :=
    exists_run_of_play (start ['a'] ++ start ['b'] ++ submit (job 1) ++ takes ['a'] 2 ++
      [.act .startSched, .act (.expire ['a'])] ++ reaps ['a'] 6 ++ takes ['b'] 8 ++
        List.replicate 5 (.work ['a'] .returned)) (by decide +kernel)
  obtain ⟨s, hs, hone, hends, hclaims⟩ := hrun
  exact ⟨s, hone, hends, hclaims, effectsFor_le_one rfl hs (job 1)⟩

/-! ## Two effects -/

open Script in
/-- Worker `a` runs the job and is suspected. The reaper selects the row while it is
'running', `a` commits, and the reaper then sets the row back to 'queued', so that
`b` claims it and commits as well. -/
theorem two_effects_after_false_suspicion :
    ∃ s, Reaches defaults (fun _ a => a.isFault = false) s ∧ s.db.effectsFor (job 1) = 2 :=
  exists_run_of_play
    (start ['a'] ++ start ['b'] ++ submit (job 1) ++ takes ['a'] 2 ++
      [.act .startSched, .act (.expire ['a'])] ++ reaps ['a'] 4 ++
      List.replicate 5 (.work ['a'] .returned) ++ [.sched .next, .sched .next] ++ takes ['b'] 7)
    (by decide +kernel)

end QueueFlow
