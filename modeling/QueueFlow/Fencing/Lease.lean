-- SUMMARY: Who holds which lease: the invariant that ties rows, claims, executions and open transactions together.
import QueueFlow.System
import QueueFlow.Worker.Moves
import QueueFlow.Scheduler.Moves
import QueueFlow.Api.Moves

/-!
# Leases

The row of a job carries the lease of the newest claim of that job: of all the
statements that write the row, only the claim changes `lease_id`. `LeaseWf` states
this for every run, together with what an execution knows from its own claim. It
is preserved by each operation on the state (`LeaseWf.congr`, `.insertJob`,
`.addExec`, `.setExec`, `.claim`), and every step is composed of these.
-/

namespace QueueFlow

open Transition

/-! ## What a position holds -/

/-- The claim that an execution still remembers. -/
def ExecPc.holding? : ExecPc → Option Holding
  | .discard | .select | .claim _ _ | .release => none
  | .handler h | .txBegin h | .txUpdate h _ | .txInsert h _ | .txCommit h _ | .txRollback h
  | .bury h _ | .park h _ _ | .zadd h _ => some h

/-- The job that an execution has selected. -/
def ExecPc.job? : ExecPc → Option Uuid
  | .claim job _ => some job
  | pc => pc.holding?.map (·.job)

/-- The execution remembers the claim that took lease `l`. -/
def Exec.holds (l : Nat) (e : Exec) : Bool := e.pc.holding?.any (·.lease = l)

theorem ExecPc.holding?_of_owning {pc : ExecPc} {h : Holding} (hpc : pc.phase = .owning h) :
    pc.holding? = some h := by
  cases pc <;> simp_all [ExecPc.phase, ExecPc.holding?]

theorem ExecPc.job?_of_holding? {pc : ExecPc} {h : Holding} (hpc : pc.holding? = some h) :
    pc.job? = some h.job := by
  cases pc <;> simp_all [ExecPc.job?, ExecPc.holding?]

theorem Exec.holds_iff {e : Exec} {l : Nat} :
    e.holds l = true ↔ ∃ h, e.pc.holding? = some h ∧ h.lease = l := by
  simp [Exec.holds, Option.any_eq_true]

namespace State

variable {cfg : Config} {s : State} {h : Holding} {job : Uuid} {r : JobRow}

/-- The lease of the newest claim of a job. -/
def newestLease (s : State) (job : Uuid) : Option Nat :=
  (s.claims.find? fun c => c.job = job).map (·.lease)

theorem locked_eq_false : s.locked job = false ↔ ∀ e ∈ s.execs, e.pc.locks ≠ some job := by
  simp [locked, List.any_eq_false]

end State

/-! ## The invariant -/

/-- How the leases of a state fit together. -/
structure LeaseWf (cfg : Config) (s : State) : Prop where
  /-- A row carries the lease of the newest claim of its job. -/
  newest : ∀ job r, s.db.row job = some r → r.leaseId = s.newestLease job
  /-- Every claim took a lease of its own, and later claims took later ones. -/
  decreasing : (s.claims.map (·.lease)).Pairwise (· > ·)
  bound : ∀ c ∈ s.claims, c.lease < s.db.nextLease
  /-- A claimed job has a row. -/
  recorded : ∀ c ∈ s.claims, ∃ r, s.db.row c.job = some r
  /-- What an execution remembers is a claim that it made. -/
  held : ∀ e ∈ s.execs, ∀ h, e.pc.holding? = some h → ⟨h.job, h.lease, e.worker, e.id⟩ ∈ s.claims
  /-- An execution works on the job that its entry names. -/
  named : ∀ e ∈ s.execs, ∀ job, e.pc.job? = some job → uuidIn e.id = some job
  /-- At most one execution remembers a lease. -/
  unique : ∀ l, s.execs.countP (Exec.holds l) ≤ 1
  /-- An open transaction that has updated a row was entitled to. -/
  locking : ∀ e ∈ s.execs, ∀ h, e.pc.holding? = some h → e.pc.locks = some h.job →
    (s.ownRow cfg h).isSome = true
  /-- A transaction that matched no row belongs to a superseded claim. -/
  superseded : ∀ e ∈ s.execs, ∀ h, e.pc = .txRollback h → ∀ r, s.db.row h.job = some r →
    r.leaseId ≠ some h.lease

namespace LeaseWf

variable {cfg : Config} {s s' : State}

theorem init : LeaseWf cfg .init where
  newest := by simp [State.init, Db.empty, Db.row]
  decreasing := .nil
  bound := nofun
  recorded := nofun
  held := nofun
  named := nofun
  unique _ := Nat.zero_le _
  locking := nofun
  superseded := nofun

/-! ## Consequences -/

/-- Two claims that took the same lease are the same claim. -/
theorem claim_eq (wf : LeaseWf cfg s) {c c' : Claim} (hc : c ∈ s.claims) (hc' : c' ∈ s.claims)
    (hlease : c.lease = c'.lease) : c = c' := by
  have hnodup : (s.claims.map (·.lease)).Nodup := wf.decreasing.imp Nat.ne_of_gt
  exact List.inj_on_of_nodup_map hnodup hc hc' hlease

/-! ## Operations on the state -/

/-- Statements that keep every lease, and anything that adds no execution. -/
theorem congr (wf : LeaseWf cfg s) (hrow : ∀ job, (s'.db.row job).map JobRow.leaseId =
      (s.db.row job).map JobRow.leaseId) (hnext : s'.db.nextLease = s.db.nextLease)
    (hclaims : s'.claims = s.claims) (hexecs : s'.execs.Sublist s.execs) : LeaseWf cfg s' := by
  have hback : ∀ {job r'}, s'.db.row job = some r' →
      ∃ r, s.db.row job = some r ∧ r'.leaseId = r.leaseId := by
    intro job r' hr'
    have := hrow job
    rw [hr', Option.map_some] at this
    obtain ⟨r, hr, heq⟩ := Option.map_eq_some_iff.mp this.symm
    exact ⟨r, hr, heq.symm⟩
  have hforth : ∀ {job r}, s.db.row job = some r →
      ∃ r', s'.db.row job = some r' ∧ r'.leaseId = r.leaseId := by
    intro job r hr
    have := hrow job
    rw [hr, Option.map_some] at this
    exact Option.map_eq_some_iff.mp this
  refine ⟨?_, ?_, ?_, ?_, ?_, ?_, ?_, ?_, ?_⟩
  · intro job r' hr'
    obtain ⟨r, hr, heq⟩ := hback hr'
    rw [heq, wf.newest job r hr]
    simp only [State.newestLease, hclaims]
  · simpa only [hclaims] using wf.decreasing
  · simpa only [hclaims, hnext] using wf.bound
  · intro c hc
    obtain ⟨r, hr⟩ := wf.recorded c (hclaims ▸ hc)
    obtain ⟨r', hr', -⟩ := hforth hr
    exact ⟨r', hr'⟩
  · intro e he h hh
    rw [hclaims]
    exact wf.held e (hexecs.subset he) h hh
  · exact fun e he => wf.named e (hexecs.subset he)
  · exact fun l => (hexecs.countP_le).trans (wf.unique l)
  · intro e he h hh hl
    obtain ⟨r, hr, hown⟩ := State.ownRow_isSome.mp (wf.locking e (hexecs.subset he) h hh hl)
    obtain ⟨r', hr', heq⟩ := hforth hr
    exact State.ownRow_isSome.mpr ⟨r', hr', heq ▸ hown⟩
  · intro e he h hpc r' hr'
    obtain ⟨r, hr, heq⟩ := hback hr'
    rw [heq]
    exact wf.superseded e (hexecs.subset he) h hpc r hr

/-- The state differs in nothing that concerns leases. -/
theorem same (wf : LeaseWf cfg s) (hdb : s'.db = s.db) (hclaims : s'.claims = s.claims)
    (hexecs : s'.execs = s.execs) : LeaseWf cfg s' :=
  wf.congr (fun job => by rw [hdb]) (by rw [hdb]) hclaims (by rw [hexecs])

theorem withRedis (wf : LeaseWf cfg s) {r : Redis} : LeaseWf cfg (s.withRedis r) :=
  wf.same rfl rfl rfl

/-- An UPDATE that does not set `lease_id`. -/
theorem update (wf : LeaseWf cfg s) {whr : JobRow → Bool} {set : JobRow → JobRow}
    (hid : Db.KeepsId set) (hlease : ∀ r, (set r).leaseId = r.leaseId) :
    LeaseWf cfg (s.withDb (s.db.update whr set)) := by
  refine wf.congr (fun job => ?_) rfl rfl (List.Sublist.refl _)
  simp only [State.withDb_db, Db.row_update hid, Option.map_map]
  refine Option.map_congr fun r _ => ?_
  simp only [Function.comp]
  split
  · exact hlease r
  · rfl

theorem write (wf : LeaseWf cfg s) {job : Uuid} {set : JobRow → JobRow} (hid : Db.KeepsId set)
    (hlease : ∀ r, (set r).leaseId = r.leaseId) : LeaseWf cfg (s.write job set) :=
  wf.update hid hlease

theorem settle (wf : LeaseWf cfg s) {e : Exec} {h : Holding} {began : Nat} :
    LeaseWf cfg (s.settle e h began) := by
  have hwrite : LeaseWf cfg (s.write h.job (.succeeded began)) :=
    wf.write (Db.keepsId_succeeded began) fun _ => rfl
  exact hwrite.congr (fun _ => rfl) rfl rfl (List.Sublist.refl _)

/-- `INSERT` of a row whose id is in no claim. -/
theorem insertJob (wf : LeaseWf cfg s) {r : JobRow} (hnew : s.db.row r.id = none)
    (hlease : r.leaseId = none) : LeaseWf cfg (s.withDb (s.db.insertJob r)) := by
  have hrow : ∀ job, (s.withDb (s.db.insertJob r)).db.row job =
      if job = r.id then some r else s.db.row job := fun job => Db.row_insertJob hnew
  have hold : ∀ {job r'}, s.db.row job = some r' → job ≠ r.id := by
    rintro job r' hr' rfl
    rw [hnew] at hr'
    cases hr'
  refine ⟨?_, wf.decreasing, wf.bound, ?_, wf.held, wf.named, wf.unique, ?_, ?_⟩
  · intro job r' hr'
    rw [hrow] at hr'
    split at hr'
    · rename_i heq
      cases hr'
      rw [hlease, State.newestLease]
      have : (s.claims.find? fun c => c.job = job) = none := by
        simp only [List.find?_eq_none, decide_eq_true_eq]
        rintro c hc rfl
        obtain ⟨r', hr'⟩ := wf.recorded c hc
        exact hold hr' heq
      simp [this]
    · exact wf.newest job r' hr'
  · intro c hc
    obtain ⟨r', hr'⟩ := wf.recorded c hc
    exact ⟨r', by rw [hrow, if_neg (hold hr'), hr']⟩
  · intro e he h hh hl
    obtain ⟨r', hr', hown⟩ := State.ownRow_isSome.mp (wf.locking e he h hh hl)
    exact State.ownRow_isSome.mpr ⟨r', by rw [hrow, if_neg (hold hr'), hr'], hown⟩
  · intro e he h hpc r' hr'
    obtain ⟨r₀, hr₀⟩ := wf.recorded _ (wf.held e he h (by rw [hpc]; rfl))
    rw [hrow, if_neg (hold hr₀)] at hr'
    exact wf.superseded e he h hpc r' hr'

/-- An execution enters that has claimed nothing yet. -/
theorem addExec (wf : LeaseWf cfg s) {e : Exec} (hjob : e.pc.job? = none)
    (hhold : e.pc.holding? = none) : LeaseWf cfg (s.addExec e) := by
  have hmem : ∀ {e'}, e' ∈ (s.addExec e).execs → e' = e ∨ e' ∈ s.execs := List.mem_cons.mp
  refine ⟨wf.newest, wf.decreasing, wf.bound, wf.recorded, ?_, ?_, ?_, ?_, ?_⟩
  · intro e' he' h hh
    rcases hmem he' with rfl | he'
    · rw [hhold] at hh; cases hh
    · exact wf.held e' he' h hh
  · intro e' he' job hj
    rcases hmem he' with rfl | he'
    · rw [hjob] at hj; cases hj
    · exact wf.named e' he' job hj
  · intro l
    simp only [State.addExec_execs, Bag.countP_cons_unit, Bag.unit, Exec.holds, hhold]
    exact wf.unique l
  · intro e' he' h hh hl
    rcases hmem he' with rfl | he'
    · rw [hhold] at hh; cases hh
    · exact wf.locking e' he' h hh hl
  · intro e' he' h hpc
    rcases hmem he' with rfl | he'
    · rw [hpc] at hhold; cases hhold
    · exact wf.superseded e' he' h hpc

/-- An execution moves on. What it holds afterwards is a claim of its own that no
other execution remembers, and a lock it takes is one it is entitled to. -/
theorem setExec (wf : LeaseWf cfg s) {e : Exec} {pc : ExecPc} (he : e ∈ s.execs)
    (hjob : ∀ job, pc.job? = some job → uuidIn e.id = some job)
    (hheld : ∀ h, pc.holding? = some h → e.pc.holding? = some h ∨
      ⟨h.job, h.lease, e.worker, e.id⟩ ∈ s.claims ∧ s.execs.countP (Exec.holds h.lease) = 0)
    (hlock : ∀ h, pc.holding? = some h → pc.locks = some h.job → (s.ownRow cfg h).isSome = true)
    (hroll : ∀ h, pc = .txRollback h → ∀ r, s.db.row h.job = some r → r.leaseId ≠ some h.lease) :
    LeaseWf cfg (s.setExec e pc) := by
  have hmem : ∀ {e'}, e' ∈ (s.setExec e pc).execs → e' = { e with pc } ∨ e' ∈ s.execs :=
    Bag.mem_of_mem_swap
  refine ⟨wf.newest, wf.decreasing, wf.bound, wf.recorded, ?_, ?_, ?_, ?_, ?_⟩
  · intro e' he' h hh
    rcases hmem he' with rfl | he'
    · rcases hheld h hh with hh | ⟨hc, -⟩
      · exact wf.held e he h hh
      · exact hc
    · exact wf.held e' he' h hh
  · intro e' he' job hj
    rcases hmem he' with rfl | he'
    · exact hjob job hj
    · exact wf.named e' he' job hj
  · intro l
    have hcount := Bag.countP_swap (p := Exec.holds l) (b := { e with pc }) he
    have hle := wf.unique l
    change (Bag.swap s.execs e { e with pc }).countP (Exec.holds l) ≤ 1
    cases hl : Exec.holds l { e with pc } with
    | false =>
        simp only [Bag.unit, hl, Bool.false_eq_true, if_false] at hcount
        omega
    | true =>
        obtain ⟨h, hh, rfl⟩ := Exec.holds_iff.mp hl
        rcases hheld h hh with hh | ⟨-, hzero⟩
        · have : Exec.holds h.lease e = true := Exec.holds_iff.mpr ⟨h, hh, rfl⟩
          simp only [Bag.unit, hl, this, if_true] at hcount
          omega
        · simp only [Bag.unit, hl, if_true] at hcount
          omega
  · intro e' he' h hh hl
    rcases hmem he' with rfl | he'
    · exact hlock h hh hl
    · exact wf.locking e' he' h hh hl
  · intro e' he' h hpc
    rcases hmem he' with rfl | he'
    · exact hroll h hpc
    · exact wf.superseded e' he' h hpc

theorem endExec (wf : LeaseWf cfg s) {e : Exec} : LeaseWf cfg (s.endExec e) :=
  wf.congr (fun _ => rfl) rfl rfl List.erase_sublist

/-- An execution moves to a point where it remembers nothing. -/
theorem release (wf : LeaseWf cfg s) {e : Exec} (he : e ∈ s.execs) :
    LeaseWf cfg (s.setExec e .release) :=
  wf.setExec he nofun nofun nofun nofun

/-- An execution goes on under the same claim, at a point without locks. -/
theorem carryOn (wf : LeaseWf cfg s) {e : Exec} {pc : ExecPc} {h : Holding} (he : e ∈ s.execs)
    (hpc : e.pc.holding? = some h) (hpc' : pc.holding? = some h) (hlocks : pc.locks = none)
    (hroll : pc ≠ .txRollback h) : LeaseWf cfg (s.setExec e pc) := by
  refine wf.setExec he ?_ ?_ ?_ ?_
  · intro job hj
    rw [ExecPc.job?_of_holding? hpc'] at hj
    exact wf.named e he job (by rw [ExecPc.job?_of_holding? hpc, hj])
  · intro h' hh'
    rw [hpc'] at hh'
    cases hh'
    exact .inl hpc
  · intro h' _ hl
    rw [hlocks] at hl
    cases hl
  · rintro h' rfl
    cases hpc'
    exact absurd rfl hroll

/-- The claim takes effect. -/
theorem claim (wf : LeaseWf cfg s) {e : Exec} {job : Uuid} {r : JobRow}
    (hrow : s.db.row job = some r) (hfree : s.locked job = false) :
    LeaseWf cfg (s.claim e job) := by
  have hrows : ∀ job', (s.claim e job).db.row job' =
      if job' = job then (s.db.row job').map (.claimed s.db.nextLease s.now)
      else s.db.row job' := fun job' => by
    rw [State.claim_db, Db.row_claim, Db.row_updateRow (Db.keepsId_claimed _ _)]
  have hold : ∀ e' ∈ s.execs, ∀ h, e'.pc.holding? = some h → h.lease < s.db.nextLease :=
    fun e' he' h hh => wf.bound _ (wf.held e' he' h hh)
  refine ⟨?_, ?_, ?_, ?_, ?_, wf.named, wf.unique, ?_, ?_⟩
  · intro job' r' hr'
    rw [hrows] at hr'
    split at hr'
    · rename_i heq
      subst heq
      rw [hrow, Option.map_some] at hr'
      cases hr'
      simp [State.newestLease, State.claim, JobRow.claimed]
    · rename_i hne
      rw [wf.newest job' r' hr']
      have hne' : ¬ job = job' := fun heq => hne heq.symm
      simp [State.newestLease, State.claim, hne']
  · refine List.pairwise_cons.mpr ⟨?_, wf.decreasing⟩
    intro l hl
    obtain ⟨c, hc, rfl⟩ := List.mem_map.mp hl
    exact wf.bound c hc
  · intro c hc
    rcases List.mem_cons.mp hc with rfl | hc
    · exact Nat.lt_succ_self _
    · exact Nat.lt_succ_of_lt (wf.bound c hc)
  · intro c hc
    have hsome : ∀ job', (∃ r', s.db.row job' = some r') →
        ∃ r', (s.claim e job).db.row job' = some r' := by
      rintro job' ⟨r', hr'⟩
      rw [hrows]
      split
      · exact ⟨_, by rw [hr', Option.map_some]⟩
      · exact ⟨r', hr'⟩
    rcases List.mem_cons.mp hc with rfl | hc
    · exact hsome job ⟨r, hrow⟩
    · exact hsome c.job (wf.recorded c hc)
  · exact fun e' he' h hh => List.mem_cons_of_mem _ (wf.held e' he' h hh)
  · intro e' he' h hh hl
    have hne : h.job ≠ job := fun heq => State.locked_eq_false.mp hfree e' he' (heq ▸ hl)
    obtain ⟨r', hr', hown⟩ := State.ownRow_isSome.mp (wf.locking e' he' h hh hl)
    exact State.ownRow_isSome.mpr ⟨r', by rw [hrows, if_neg hne, hr'], hown⟩
  · intro e' he' h hpc r' hr'
    have hlt := hold e' he' h (by rw [hpc]; rfl)
    rw [hrows] at hr'
    split at hr'
    · obtain ⟨r₀, -, rfl⟩ := Option.map_eq_some_iff.mp hr'
      simp only [JobRow.claimed, ne_eq, Option.some.injEq]
      omega
    · exact wf.superseded e' he' h hpc r' hr'

/-! ## Steps -/

theorem execMove (wf : LeaseWf cfg s) {e : Exec} (he : e ∈ s.execs) (h : ExecMove cfg s e s') :
    LeaseWf cfg s' := by
  cases h with
  | letGo => exact wf.withRedis.endExec
  | rejected => exact wf.endExec
  | found job r _ hid =>
      refine wf.setExec he ?_ nofun nofun nofun
      rintro job' ⟨⟩
      exact hid
  | missing | notClaimable => exact wf.release he
  | claimed job m r hpc hfree hrow =>
      have hrow := (State.claimableRow_some hrow).1
      have hid : uuidIn e.id = some job := wf.named e he job (by rw [hpc]; rfl)
      refine (wf.claim hrow hfree).setExec he ?_ ?_ nofun nofun
      · rintro job' ⟨⟩
        exact hid
      · rintro h ⟨⟩
        refine .inr ⟨List.mem_cons_self, Bag.countP_eq_zero_of_forall fun e' he' => ?_⟩
        by_contra hholds
        obtain ⟨h', hh', heq⟩ := Exec.holds_iff.mp (by simpa using hholds)
        have := wf.bound _ (wf.held e' he' h' hh')
        simp only [State.claimOf] at heq
        simp only at this
        omega
  | work h pc hpc _ hpc' hlocks' hroll =>
      exact wf.carryOn he (ExecPc.holding?_of_owning hpc) (ExecPc.holding?_of_owning hpc') hlocks' hroll
  | lock h began r hpc hfree hrow =>
      have hhold : e.pc.holding? = some h := by rw [hpc]; rfl
      refine wf.setExec he ?_ ?_ ?_ nofun
      · rintro job ⟨⟩
        exact wf.named e he _ (ExecPc.job?_of_holding? hhold)
      · rintro h' ⟨⟩
        exact .inl hhold
      · rintro h' ⟨⟩ _
        simp [hrow]
  | unowned h began hpc hrow =>
      have hhold : e.pc.holding? = some h := by rw [hpc]; rfl
      refine wf.setExec he ?_ ?_ nofun ?_
      · rintro job ⟨⟩
        exact wf.named e he _ (ExecPc.job?_of_holding? hhold)
      · rintro h' ⟨⟩
        exact .inl hhold
      · rintro h' ⟨⟩ r hr hlease
        have : (s.ownRow cfg h).isSome = true := State.ownRow_isSome.mpr ⟨r, hr, fun _ => hlease⟩
        rw [hrow] at this
        cases this
  | insert h began hpc =>
      have hhold : e.pc.holding? = some h := by rw [hpc]; rfl
      refine wf.setExec he ?_ ?_ ?_ nofun
      · rintro job ⟨⟩
        exact wf.named e he _ (ExecPc.job?_of_holding? hhold)
      · rintro h' ⟨⟩
        exact .inl hhold
      · rintro h' ⟨⟩ _
        exact wf.locking e he h hhold (by rw [hpc]; rfl)
  | settled => exact wf.settle.release he
  | fenced => exact wf.release he
  | buried => exact (wf.write (Db.keepsId_buried _ _) fun _ => rfl).release he
  | parked h message runAt r hpc =>
      exact (wf.write (Db.keepsId_parked _ _) fun _ => rfl).carryOn he
        (by rw [hpc]; rfl) rfl rfl nofun
  | zadded => exact wf.withRedis.release he

theorem failMove (wf : LeaseWf cfg s) {e : Exec} {took : Bool} (he : e ∈ s.execs)
    (h : FailMove cfg s e took s') : LeaseWf cfg s' := by
  cases h with
  | lost => exact wf.endExec
  | released | zadded => exact wf.withRedis.endExec
  | claimed job m r hpc hfree hrow =>
      exact (wf.claim (State.claimableRow_some hrow).1 hfree).endExec
  | caught h pc hpc hpc' hlocks hroll =>
      exact wf.carryOn he (ExecPc.holding?_of_owning hpc) (ExecPc.holding?_of_owning hpc') hlocks hroll
  | settled h began pc _ hpc hpc' hlocks hroll =>
      exact wf.settle.carryOn he (by rw [hpc]; rfl) (ExecPc.holding?_of_owning hpc') hlocks hroll
  | buried => exact (wf.write (Db.keepsId_buried _ _) fun _ => rfl).endExec
  | parked => exact (wf.write (Db.keepsId_parked _ _) fun _ => rfl).endExec

theorem schedMove (wf : LeaseWf cfg s) {σ : Sched} (h : SchedMove s σ s') : LeaseWf cfg s' := by
  cases h with
  | promoted => exact (wf.write Db.keepsId_promoted fun _ => rfl).same rfl rfl rfl
  | buried => exact (wf.write (Db.keepsId_buried _ _) fun _ => rfl).same rfl rfl rfl
  | requeued => exact (wf.write Db.keepsId_requeued fun _ => rfl).same rfl rfl rfl
  | quiet | removed | crashed | pushed | check | peek | junk | select | dropped | moved | emptied
  | swept => exact wf.same rfl rfl rfl

theorem apiMove (wf : LeaseWf cfg s) {a : Api} (h : ApiMove s a s') : LeaseWf cfg s' := by
  cases h with
  | inserted key generated _ _ hrow => exact (wf.insertJob hrow rfl).same rfl rfl rfl
  | replayed => exact (wf.write Db.keepsId_replayed fun _ => rfl).same rfl rfl rfl
  | turned | answered | pushed => exact wf.same rfl rfl rfl

theorem startMove (wf : LeaseWf cfg s) {w : WorkerId} {deadline : Bool}
    (h : StartMove s w deadline s') : LeaseWf cfg s' := by
  cases h with
  | reset => exact (wf.update Db.keepsId_requeued fun _ => rfl).same rfl rfl rfl
  | wait => exact wf
  | refrain | proceed | nothing | read | moved | done | beat => exact wf.same rfl rfl rfl

/-- Every step keeps the leases in order. -/
theorem step {a : Act} (wf : LeaseWf cfg s) (h : QueueFlow.step cfg s a = some s') :
    LeaseWf cfg s' := by
  cases a with
  | tick | request | startSched => cases h; exact wf.same rfl rfl rfl
  | api a generated =>
      obtain ⟨-, h⟩ := Option.ite_none_right_eq_some.mp h
      exact wf.apiMove (handle_cases h)
  | apiCrash | schedKill =>
      obtain ⟨-, h⟩ := Option.ite_none_right_eq_some.mp h
      cases h
      exact wf.same rfl rfl rfl
  | spawn =>
      obtain ⟨-, -, rfl⟩ := spawn_cases h
      exact wf.same rfl rfl rfl
  | recoverOwn => exact wf.startMove (recoverOwnProcessing_cases h)
  | beat =>
      obtain ⟨-, rfl⟩ := beat_cases h
      exact wf.same rfl rfl rfl
  | expire =>
      cases expire_cases h
      exact wf.same rfl rfl rfl
  | take =>
      obtain ⟨c, rest, id, -, -, rfl⟩ := take_cases h
      refine wf.withRedis.addExec ?_ ?_
      all_goals simp only; split <;> rfl
  | exec e =>
      obtain ⟨he, h⟩ := Option.ite_none_right_eq_some.mp h
      exact wf.execMove he (processOne_cases h)
  | execFail e =>
      obtain ⟨he, h⟩ := Option.ite_none_right_eq_some.mp h
      exact wf.failMove he (fails_cases h)
  | kill =>
      cases kill_cases h
      exact wf.congr (fun _ => rfl) rfl rfl List.filter_sublist
  | sched =>
      obtain ⟨-, h⟩ := Option.ite_none_right_eq_some.mp h
      exact wf.schedMove (schedule_cases h)
  | schedFail =>
      obtain ⟨-, h⟩ := Option.ite_none_right_eq_some.mp h
      exact wf.schedMove (abandonPass_cases h)

end LeaseWf

/-- In every run, whatever happens, the leases are in order. -/
theorem leaseWf_of_reaches {cfg : Config} {ok : State → Act → Prop} {s : State}
    (h : Reaches cfg ok s) : LeaseWf cfg s :=
  h.invariant .init fun _ _ _ wf _ hstep => wf.step hstep

end QueueFlow
