-- SUMMARY: The books of a steady world together with the ledger of every job, and what they say about owners.
import QueueFlow.Ledger.Shifts
import QueueFlow.Recovery.Custody

/-!
# Books and ledgers

`LedgerWf` is what careful runs of a steady world keep. It says that a job that is owned
is owned once, runs under its owner's lease, and has no entry that was left behind.
-/

namespace QueueFlow

/-- The books of a steady world, and the ledger of every job. -/
structure LedgerWf (cfg : Config) (s : State) : Prop where
  lease : LeaseWf cfg s
  world : WorldWf s
  custody : CustodyWf s
  canonical : s.Canonical
  ok : ∀ job, (s.ledger job).Ok

variable {cfg : Config} {s : State} {job : Uuid} {e e' : Exec} {h h' : Holding}

/-! ## Rows -/

namespace State

theorem status_eq_some {st : JobStatus} :
    (s.ledger job).status = some st ↔ ∃ r, s.db.row job = some r ∧ r.status = st :=
  Option.map_eq_some_iff

theorem status_of_row {r : JobRow} (h : s.db.row job = some r) :
    (s.ledger job).status = some r.status := by
  simp [ledger, h]

/-- An UPDATE of the job's row that finds it. -/
theorem status_write {set : JobRow → JobRow} {st : JobStatus} (hid : Db.KeepsId set)
    (hset : ∀ r, (set r).status = st) (h : (s.ledger job).status ≠ none) :
    ((s.write job set).ledger job).status = some st := by
  obtain ⟨st', hst'⟩ := Option.ne_none_iff_exists'.mp h
  obtain ⟨r, hrow, -⟩ := status_eq_some.mp hst'
  exact status_eq_some.mpr ⟨set r, Db.row_updateRow_self hid hrow, hset r⟩

/-- An UPDATE of another row. -/
theorem status_write_ne {job' : Uuid} {set : JobRow → JobRow} (hid : Db.KeepsId set)
    (hne : job ≠ job') : ((s.write job' set).ledger job).status = (s.ledger job).status :=
  congrArg (Option.map JobRow.status) (Db.row_updateRow_ne hid hne)

end State

/-! ## Owners -/

/-- The job runs under the lease of the owner. -/
def State.RunsFor (s : State) (h : Holding) : Prop :=
  ∃ r, s.db.row h.job = some r ∧ r.status = .running ∧ r.leaseId = some h.lease

namespace LedgerWf

/-- What an owner's job is at: running, owned once, and without an entry left behind. -/
theorem owned (wf : LedgerWf cfg s) (he : e ∈ s.execs) (hphase : e.pc.phase = .owning h) :
    (s.ledger h.job).status = some .running ∧ (s.ledger h.job).count .owning ≤ 1 ∧
      ¬ (s.ledger h.job).Left := by
  have hnames := names_of_owning wf.lease wf.world he hphase
  have hpos : 0 < (s.ledger h.job).count .owning :=
    count_pos_of_exec he hnames.2 (by rw [hphase]; rfl)
  have hstatus := (wf.ok h.job).running_of_owning hpos
  have hnot : ¬ (s.ledger h.job).Left := fun hleft => by
    have := (wf.ok h.job).only_left (.inr hstatus) hleft
    omega
  refine ⟨hstatus, ?_, hnot⟩
  have hbooked := (booked wf.world h.job).held
  have hok := (wf.ok h.job).2
  simp only [hstatus, Ledger.execs] at hok hbooked
  omega

/-- No two executions own one job. -/
theorem owner_eq (wf : LedgerWf cfg s) (he : e ∈ s.execs) (he' : e' ∈ s.execs)
    (hphase : e.pc.phase = .owning h) (hphase' : e'.pc.phase = .owning h') (hjob : h'.job = h.job) :
    e' = e := by
  have hplace {e : Exec} {h : Holding} (he : e ∈ s.execs) (hphase : e.pc.phase = .owning h) :
      .owning ∈ e.places h.job :=
    mem_idAt.mpr ⟨by rw [hphase]; rfl, (names_of_owning wf.lease wf.world he hphase).2⟩
  have hcount := (wf.owned he hphase).2.1
  rw [State.count_ofExec rfl] at hcount
  exact Marking.eq_of_count_le_one hcount he' he (hjob ▸ hplace he' hphase') (hplace he hphase)

/-- The row carries the lease of its owner. -/
theorem runsFor (wf : LedgerWf cfg s) (he : e ∈ s.execs) (hphase : e.pc.phase = .owning h) :
    s.RunsFor h := by
  obtain ⟨hstatus, -, hleft⟩ := wf.owned he hphase
  obtain ⟨r, hrow, hrun⟩ := State.status_eq_some.mp hstatus
  rcases wf.custody h.job r hrow hrun with ⟨e', he', h', hphase', hjob, hlease⟩ | ⟨k, hnames, hspare, -⟩
  · obtain rfl := wf.owner_eq he he' hphase hphase' hjob
    rw [hphase] at hphase'
    cases hphase'
    exact ⟨r, hrow, hrun, hlease⟩
  · exact absurd (left_of_spare wf.world hspare hnames.2) hleft

/-- The write-back of an owner finds the row. -/
theorem ownRow_of_owning (wf : LedgerWf cfg s) (he : e ∈ s.execs)
    (hphase : e.pc.phase = .owning h) : (s.ownRow cfg h).isSome = true := by
  obtain ⟨r, hrow, -, hlease⟩ := wf.runsFor he hphase
  exact State.ownRow_isSome.mpr ⟨r, hrow, fun _ => hlease⟩

end LedgerWf

end QueueFlow
