-- SUMMARY: What an execution remembers of its claim agrees with the row, and the catch block judges by it.
import QueueFlow.Rows.Moves

/-!
# Holdings and rows

An execution compares the number of attempts that its claim returned with the limit
that its SELECT read. The limit never changes; the attempts of a row never exceed those
of the execution whose lease it carries, because only a claim counts them up, and a
replay starts them from zero.
-/

namespace QueueFlow

/-- The catch block has judged by the attempts that the claim returned. -/
def ExecPc.Judged : ExecPc → Prop
  | .bury h _ => h.maxAttempts ≤ h.attempts
  | .park h _ _ => h.attempts < h.maxAttempts
  | _ => True

/-- What a point of `processOne` remembers agrees with the row. -/
structure State.Knows (s : State) (pc : ExecPc) : Prop where
  selected : ∀ job m, pc = .claim job m → ∃ r, s.db.row job = some r ∧ r.maxAttempts = m
  held : ∀ h, pc.holding? = some h → ∃ r, s.db.row h.job = some r ∧
    r.maxAttempts = h.maxAttempts ∧ (r.leaseId = some h.lease → r.attempts ≤ h.attempts)

/-- What executions remember and have decided, in every run. -/
structure HoldingWf (s : State) : Prop where
  knows : ∀ e ∈ s.execs, s.Knows e.pc
  judged : ∀ e ∈ s.execs, e.pc.Judged

variable {cfg : Config} {s s' : State} {a : Act} {e e' : Exec} {h : Holding} {job : Uuid}
  {r r' : JobRow}

theorem caught_judged (cfg : Config) (s : State) (h : Holding) (message : Text) (random : Random) :
    (caught cfg s h message random).Judged := by
  unfold caught
  split
  · assumption
  · exact Nat.lt_of_not_le ‹_›

private theorem judged_of_processOne {o : Outcome} (hstep : processOne cfg s e o = some s')
    (he' : e' ∈ s'.execs) : e' ∈ s.execs ∨ e'.pc.Judged := by
  have hswap {pc : ExecPc} (hmem : e' ∈ Bag.swap s.execs e { e with pc }) (hpc : pc.Judged) :
      e' ∈ s.execs ∨ e'.pc.Judged := by
    rcases Bag.mem_of_mem_swap hmem with rfl | hmem
    · exact .inr hpc
    · exact .inl hmem
  unfold processOne at hstep
  repeat' split at hstep
  all_goals cases hstep
  all_goals first
    | exact .inl (List.mem_of_mem_erase he')
    | exact hswap he' trivial
    | exact hswap he' (caught_judged ..)

private theorem judged_of_fails {took : Bool} {message : Text} {random : Random}
    (hstep : fails cfg s e took message random = some s') (he' : e' ∈ s'.execs) :
    e' ∈ s.execs ∨ e'.pc.Judged := by
  have hswap (h' : Holding)
      (hmem : e' ∈ Bag.swap s.execs e { e with pc := caught cfg s h' message random }) :
      e' ∈ s.execs ∨ e'.pc.Judged := by
    rcases Bag.mem_of_mem_swap hmem with rfl | hmem
    · exact .inr (caught_judged ..)
    · exact .inl hmem
  unfold fails at hstep
  repeat' split at hstep
  all_goals cases hstep
  all_goals first
    | exact .inl (List.mem_of_mem_erase he')
    | exact hswap _ he'

/-- Whoever comes to the writes of the catch block has been judged. -/
theorem judged_of_step (hstep : step cfg s a = some s') (he' : e' ∈ s'.execs) :
    e' ∈ s.execs ∨ e'.pc.Judged := by
  rcases exec_origin hstep he' with hmem | ⟨w, rest, -, -, -, hselect⟩ |
    ⟨e, o, -, -, hstep⟩ | ⟨e, took, message, random, -, -, hstep⟩
  · exact .inl hmem
  · refine .inr ?_
    rw [hselect]
    split <;> trivial
  · exact judged_of_processOne hstep he'
  · exact judged_of_fails hstep he'

/-- A row that carries an older lease has carried it before, and counts no more attempts. -/
theorem RowMove.attempts_le (hmove : RowMove cfg s a job r r') {l : Nat}
    (hlease : r'.leaseId = some l) (hold : l < s.db.nextLease) :
    r.leaseId = some l ∧ r'.attempts ≤ r.attempts := by
  cases hmove with
  | claimed =>
      have heq : s.db.nextLease = l := Option.some.inj hlease
      omega
  | replayed => exact ⟨hlease, Nat.zero_le _⟩
  | same | settled | buried | parked | promoted | reapBuried | reapRequeued | reset =>
      exact ⟨hlease, Nat.le_refl _⟩

/-! ## What is known stays known -/

private theorem knows_nothing {pc : ExecPc} (hclaim : ∀ job m, pc ≠ .claim job m)
    (hhold : pc.holding? = none) : s.Knows pc :=
  ⟨fun job m hpc => absurd hpc (hclaim job m), fun h hh => by rw [hhold] at hh; cases hh⟩

theorem State.Knows.step (lease : LeaseWf cfg s) (he : e ∈ s.execs) (hknows : s.Knows e.pc)
    (hstep : QueueFlow.step cfg s a = some s') : s'.Knows e.pc where
  selected job m hpc := by
    obtain ⟨r, hrow, hmax⟩ := hknows.selected job m hpc
    obtain ⟨r', hrow', hmove⟩ := rowMove_of_step lease hstep hrow
    exact ⟨r', hrow', hmove.maxAttempts.trans hmax⟩
  held h hh := by
    obtain ⟨r, hrow, hmax, hle⟩ := hknows.held h hh
    obtain ⟨r', hrow', hmove⟩ := rowMove_of_step lease hstep hrow
    refine ⟨r', hrow', hmove.maxAttempts.trans hmax, fun hlease => ?_⟩
    obtain ⟨hlease, hattempts⟩ := hmove.attempts_le hlease (lease.bound _ (lease.held e he h hh))
    exact hattempts.trans (hle hlease)

/-- A point that remembers what the one before it did. -/
private theorem State.Knows.congr {pc pc' : ExecPc} (hknows : s.Knows pc)
    (hclaim : ∀ job m, pc' ≠ .claim job m) (hhold : pc'.holding? = pc.holding?) : s.Knows pc' :=
  ⟨fun job m hpc => absurd hpc (hclaim job m), fun h hh => hknows.held h (hhold ▸ hh)⟩

private theorem ExecPc.ne_claim_of_owning {pc : ExecPc} (hpc : pc.phase = .owning h) (job : Uuid)
    (m : Nat) : pc ≠ .claim job m := by
  rintro rfl
  cases hpc

private theorem knows_of_execMove (wf : HoldingWf s) (he : e ∈ s.execs)
    (hmove : ExecMove cfg s e s') (hold : ∀ e ∈ s.execs, s'.Knows e.pc) (he' : e' ∈ s'.execs) :
    s'.Knows e'.pc := by
  have hswap {pc : ExecPc} (hmem : e' ∈ Bag.swap s.execs e { e with pc }) (hpc : s'.Knows pc) :
      s'.Knows e'.pc := by
    rcases Bag.mem_of_mem_swap hmem with rfl | hmem
    · exact hpc
    · exact hold e' hmem
  cases hmove with
  | letGo | rejected => exact hold e' (List.mem_of_mem_erase he')
  | missing | notClaimable | settled | fenced | buried | zadded =>
      exact hswap he' (knows_nothing nofun rfl)
  | found job r hpc hid hrow =>
      refine hswap he' ⟨?_, nofun⟩
      rintro job' m ⟨⟩
      exact ⟨r, hrow, rfl⟩
  | claimed job m r hpc hfree hrow =>
      obtain ⟨r₀, hrow₀, hmax⟩ := (wf.knows e he).selected job m hpc
      have hrow := (State.claimableRow_some hrow).1
      obtain rfl := Option.some.inj (hrow.symm.trans hrow₀)
      refine hswap he' ⟨nofun, ?_⟩
      rintro h ⟨⟩
      exact ⟨_, Db.row_updateRow_self (Db.keepsId_claimed _ _) hrow, hmax, fun _ => Nat.le_refl _⟩
  | work h pc hpc _ hpc' =>
      refine hswap he' ((hold e he).congr (ExecPc.ne_claim_of_owning hpc') ?_)
      rw [ExecPc.holding?_of_owning hpc, ExecPc.holding?_of_owning hpc']
  | lock h began r hpc | unowned h began hpc | insert h began hpc | parked h message runAt r hpc =>
      exact hswap he' ((hold e he).congr nofun (by rw [hpc]; rfl))

private theorem knows_of_failMove {took : Bool} (he : e ∈ s.execs)
    (hmove : FailMove cfg s e took s') (hold : ∀ e ∈ s.execs, s'.Knows e.pc) (he' : e' ∈ s'.execs) :
    s'.Knows e'.pc := by
  have hswap {h : Holding} {pc : ExecPc} (hmem : e' ∈ Bag.swap s.execs e { e with pc })
      (hpc : e.pc.holding? = some h) (hpc' : pc.phase = .owning h) : s'.Knows e'.pc := by
    rcases Bag.mem_of_mem_swap hmem with rfl | hmem
    · exact (hold e he).congr (ExecPc.ne_claim_of_owning hpc')
        ((ExecPc.holding?_of_owning hpc').trans hpc.symm)
    · exact hold e' hmem
  cases hmove with
  | lost | released | claimed | buried | parked | zadded => exact hold e' (List.mem_of_mem_erase he')
  | caught h pc hpc hpc' => exact hswap he' (ExecPc.holding?_of_owning hpc) hpc'
  | settled h began pc _ hpc hpc' => exact hswap he' (by rw [hpc]; rfl) hpc'

namespace HoldingWf

theorem init : HoldingWf .init := ⟨nofun, nofun⟩

theorem step (wf : HoldingWf s) (lease : LeaseWf cfg s)
    (hstep : QueueFlow.step cfg s a = some s') : HoldingWf s' where
  knows e' he' := by
    have hold : ∀ e ∈ s.execs, s'.Knows e.pc := fun e he => (wf.knows e he).step lease he hstep
    rcases exec_origin hstep he' with hmem | ⟨w, rest, -, -, -, hselect⟩ |
      ⟨e, o, -, he, hstep⟩ | ⟨e, took, message, random, -, he, hstep⟩
    · exact hold e' hmem
    · rw [hselect]
      split <;> exact knows_nothing nofun rfl
    · exact knows_of_execMove wf he (processOne_cases hstep) hold he'
    · exact knows_of_failMove he (fails_cases hstep) hold he'
  judged e' he' := (judged_of_step hstep he').elim (wf.judged e') id

end HoldingWf

end QueueFlow
