-- SUMMARY: The life of one job as a game of tokens: where copies of its id may go, and the invariant that the careful rules keep.
import QueueFlow.Shared.Types
import QueueFlow.Lib.Marking

/-!
# The ledger of a job

What matters about a job is its status, how many effects it has, and where copies
of its id are. `Ledger.Step` lists the ways in which these change together; it knows
no processes, no lists and no leases. A copy is meant to be in one place at a time.
The steps that put a job back into circulation are stated with the care that this
takes (`promote`, `replay`, `sweep`, `recover`, `die`); under them `Ledger.Ok` is
kept, and with it no worker is robbed, no job is done twice, and a succeeded job
stays succeeded.
-/

namespace QueueFlow

open Marking

/-- Where a copy of an id can be. -/
inductive Place where
  /-- In the pending list. -/
  | pending
  /-- In hand of an API request that has written the row. -/
  | submitting
  /-- In the delayed set. -/
  | delayed
  /-- In hand of a scheduler between `ZREM` and UPDATE. -/
  | updating
  /-- In hand of a scheduler between UPDATE and `LPUSH`. -/
  | promoting
  /-- In a processing list. -/
  | listed
  /-- In an execution that has not tried to claim the job. -/
  | taken
  /-- In an execution that has claimed the job. -/
  | owning
  /-- In an execution that has parked the job. -/
  | parked
  /-- In an execution that will write nothing more about the job. -/
  | finished
  /-- With a reaper that has found the job to be rescued or buried. -/
  | judged
  /-- With a reaper that has set the job to 'queued'. -/
  | rescued
  deriving DecidableEq, Repr

structure Ledger where
  /-- The status of the row, if there is one. -/
  status : Option JobStatus
  effects : Nat
  tokens : List Place

namespace Ledger

/-- How many copies are at a place. -/
def count (c : Ledger) (p : Place) : Nat := c.tokens.count p

/-- How many executions work on the job; each has an entry of its own in a processing list. -/
def execs (c : Ledger) : Nat := c.count .taken + c.count .owning + c.count .parked + c.count .finished

/-- Some entry in a processing list belongs to no execution. -/
def Left (c : Ledger) : Prop := c.execs < c.count .listed

/-- How many copies will still bring the job forward; one in a processing list is there only
to be found again. -/
def live (c : Ledger) : Nat :=
  c.count .pending + c.count .submitting + c.count .delayed + c.count .updating +
    c.count .promoting + c.count .taken + c.count .owning + c.count .parked

/-- Nothing is left that would bring the job forward or that a recovery would find. -/
def Clear (c : Ledger) : Prop := c.live = 0 ∧ c.count .listed ≤ c.count .finished

/-- The reaper would take the job for lost if it found an entry of it. -/
def Active (c : Ledger) : Prop := c.status = some .queued ∨ c.status = some .running

/-- The job is active, or a copy is on its way to a claim. -/
def InPlay (c : Ledger) : Prop :=
  c.Active ∨ c.status = some .retrying ∧ 0 < c.count .pending + c.count .taken

instance (c : Ledger) : Decidable c.Left := inferInstanceAs (Decidable (_ < _))

instance (c : Ledger) : Decidable c.Clear := inferInstanceAs (Decidable (_ ∧ _))

instance (c : Ledger) : Decidable c.Active := inferInstanceAs (Decidable (_ ∨ _))

instance (c : Ledger) : Decidable c.InPlay := inferInstanceAs (Decidable (_ ∨ _ ∧ _))

/-- What holds of the entries whatever the job's status is. -/
structure Booked (c : Ledger) : Prop where
  held : c.execs ≤ c.count .listed
  /-- What a reaper judges belongs to no execution. -/
  judged : 0 < c.count .judged + c.count .rescued → c.Left
  single : c.count .judged + c.count .rescued ≤ 1

/-- The ledger changes to the given status and effects, and copies move. -/
structure Goes (c c' : Ledger) (status : Option JobStatus) (effects : Nat)
    (out into : List Place) : Prop where
  status : c'.status = status
  effects : c'.effects = effects
  shift : Shift c.tokens c'.tokens out into

/-- The ways in which a ledger changes; `faults` says whether processes may fail and
recoveries run. -/
inductive Step (faults : Prop) (c c' : Ledger) : Prop where
  | idle (h : c.Goes c' c.status c.effects [] [])
  /-- `POST /jobs` inserts the row. -/
  | insert (hs : c.status = none) (h : c.Goes c' (some .queued) c.effects [] [.submitting])
  | submit (h : c.Goes c' c.status c.effects [.submitting] [.pending])
  /-- The API process crashes before its `LPUSH`. -/
  | abandon (hf : faults) (h : c.Goes c' c.status c.effects [.submitting] [])
  /-- A replay finds the job dead, and no copy of its id left behind. -/
  | replay (hs : c.status = some .dead) (hclear : c.Clear)
      (h : c.Goes c' (some .queued) c.effects [] [.submitting])
  | take (h : c.Goes c' c.status c.effects [.pending] [.listed, .taken])
  /-- The worker discards an id that it does not accept. -/
  | discard (hf : faults) (h : c.Goes c' c.status c.effects [.pending] [.listed, .finished])
  | claim (hs : c.status = some .queued ∨ c.status = some .retrying)
      (h : c.Goes c' (some .running) c.effects [.taken] [.owning])
  | skip (hs : c.status ≠ some .queued ∧ c.status ≠ some .retrying)
      (h : c.Goes c' c.status c.effects [.taken] [.finished])
  | settle (h : c.Goes c' (some .succeeded) (c.effects + 1) [.owning] [.finished])
  | bury (h : c.Goes c' (some .dead) c.effects [.owning] [.finished])
  | park (h : c.Goes c' (some .retrying) c.effects [.owning] [.parked])
  | delay (h : c.Goes c' c.status c.effects [.parked] [.delayed, .finished])
  /-- `ZADD` of an id that is in the delayed set already. -/
  | postpone (hd : 0 < c.count .delayed) (h : c.Goes c' c.status c.effects [.parked] [.finished])
  | release (h : c.Goes c' c.status c.effects [.listed, .finished] [])
  | remove (h : c.Goes c' c.status c.effects [.delayed] [.updating])
  /-- A promotion finds no entry left behind. -/
  | promote (hl : ¬ c.Left) (h : c.Goes c' (some .queued) c.effects [.updating] [.promoting])
  | push (h : c.Goes c' c.status c.effects [.promoting] [.pending])
  /-- A worker dies; none of its executions has finished with a job that is in play. -/
  | die (hf : faults) (hs : c'.status = c.status) (he : c'.effects = c.effects)
      (hle : ∀ p, c'.count p ≤ c.count p)
      (heq : ∀ p, p ≠ .taken → p ≠ .owning → p ≠ .parked → p ≠ .finished → c'.count p = c.count p)
      (hfin : c.InPlay → c'.count .finished = c.count .finished)
  /-- The reaper finds the job active. -/
  | judge (hf : faults) (hs : c.Active) (h : c.Goes c' c.status c.effects [] [.judged])
  | reapBury (hf : faults) (h : c.Goes c' (some .dead) c.effects [.judged] [])
  | requeue (hf : faults) (h : c.Goes c' (some .queued) c.effects [.judged] [.rescued])
  | rescue (hf : faults) (h : c.Goes c' c.status c.effects [.listed, .rescued] [.pending])
  /-- A scheduler dies, or its reap pass ends early. -/
  | giveUp (hf : faults) (p : Place)
      (hp : p = .updating ∨ p = .promoting ∨ p = .judged ∨ p = .rescued)
      (h : c.Goes c' c.status c.effects [p] [])
  /-- The reaper releases an entry that was left behind. -/
  | drop (hf : faults) (hl : c.Left) (h : c.Goes c' c.status c.effects [.listed] [])
  /-- A restarted worker resets a job that its list names. -/
  | reset (hf : faults) (hs : c.status = some .running) (hl : c.Left)
      (h : c.Goes c' (some .queued) c.effects [] [])
  /-- A restarted worker moves an entry of its list; if the job is to be retried, the entry is
  the last trace of it. -/
  | recover (hf : faults) (hs : c.status ≠ some .running)
      (hlast : c.status = some .retrying → c.live = 0 ∧ c.count .listed = 1 + c.count .finished)
      (hl : c.Left) (h : c.Goes c' c.status c.effects [.listed] [.pending])
  /-- The sweep pushes a job that is over, or one of which nothing is left. -/
  | sweep (hf : faults) (hs : (c.status.any JobStatus.terminal = true) ∨
        (c.status = some .queued ∨ c.status = some .retrying) ∧ c.Clear)
      (h : c.Goes c' c.status c.effects [] [.pending])

/-- Where copies may be, by the status of the job. -/
def Ok (c : Ledger) : Prop :=
  c.effects = (if c.status = some .succeeded then 1 else 0) ∧
    match c.status with
    | none =>
        c.count .pending + c.count .submitting + c.count .delayed + c.count .updating +
          c.count .promoting + c.count .listed + c.count .taken + c.count .owning +
            c.count .parked + c.count .finished + c.count .judged + c.count .rescued = 0
    | some .queued =>
        c.count .delayed = 0 ∧ c.count .updating = 0 ∧ c.count .owning = 0 ∧ c.count .parked = 0 ∧
          c.count .pending + c.count .submitting + c.count .promoting + c.count .listed ≤ 1 + c.count .finished
    | some .running =>
        c.count .delayed = 0 ∧ c.count .updating = 0 ∧ c.count .parked = 0 ∧ c.count .pending = 0 ∧
          c.count .submitting = 0 ∧ c.count .promoting = 0 ∧ c.count .taken = 0 ∧ c.count .rescued = 0 ∧
            c.count .listed ≤ 1 + c.count .finished
    | some .retrying =>
        c.count .submitting = 0 ∧ c.count .promoting = 0 ∧ c.count .owning = 0 ∧ c.count .judged = 0 ∧
          c.count .rescued = 0 ∧
            c.count .pending + c.count .taken + c.count .delayed + c.count .updating + c.count .parked ≤ 1 ∧
              (0 < c.count .pending + c.count .taken → c.count .listed ≤ c.count .taken + c.count .finished)
    | some .succeeded | some .failed | some .dead =>
        c.count .delayed = 0 ∧ c.count .updating = 0 ∧ c.count .owning = 0 ∧ c.count .parked = 0 ∧
          c.count .submitting = 0 ∧ c.count .promoting = 0 ∧ c.count .judged = 0 ∧ c.count .rescued = 0

/-! ## Where a copy is says what the status is -/

variable {faults : Prop} {c c' : Ledger}

theorem Ok.running_of_owning (ok : c.Ok) (h : 0 < c.count .owning) : c.status = some .running := by
  obtain ⟨-, ok⟩ := ok
  rcases hs : c.status with _ | (_ | _ | _ | _ | _ | _) <;> simp [hs] at ok ⊢ <;> omega

theorem Ok.retrying_of_waiting (ok : c.Ok)
    (h : 0 < c.count .parked + c.count .delayed + c.count .updating) :
    c.status = some .retrying := by
  obtain ⟨-, ok⟩ := ok
  rcases hs : c.status with _ | (_ | _ | _ | _ | _ | _) <;> simp [hs] at ok ⊢ <;> omega

theorem Ok.queued_of_pushing (ok : c.Ok)
    (h : 0 < c.count .submitting + c.count .promoting + c.count .rescued) :
    c.status = some .queued := by
  obtain ⟨-, ok⟩ := ok
  rcases hs : c.status with _ | (_ | _ | _ | _ | _ | _) <;> simp [hs] at ok ⊢ <;> omega

theorem Ok.active_of_judged (ok : c.Ok) (h : 0 < c.count .judged) : c.Active := by
  obtain ⟨-, ok⟩ := ok
  rcases hs : c.status with _ | (_ | _ | _ | _ | _ | _) <;> simp [hs, Active] at ok ⊢ <;> omega

/-- An entry that is left behind is the only copy of an active job. -/
theorem Ok.only_left (ok : c.Ok) (hactive : c.Active) (hleft : c.Left) :
    c.count .pending = 0 ∧ c.count .submitting = 0 ∧ c.count .promoting = 0 ∧
      c.count .taken = 0 ∧ c.count .owning = 0 ∧ c.count .listed = 1 + c.count .finished := by
  obtain ⟨-, ok⟩ := ok
  simp only [Left, execs] at hleft
  rcases hactive with hs | hs <;> simp only [hs] at ok <;> omega

/-! ## The careful rules keep the ledger -/

theorem Goes.counts {status : Option JobStatus} {effects : Nat} {out into : List Place}
    (h : c.Goes c' status effects out into) :
    (c'.count .pending + out.count .pending = c.count .pending + into.count .pending) ∧
    (c'.count .submitting + out.count .submitting = c.count .submitting + into.count .submitting) ∧
    (c'.count .delayed + out.count .delayed = c.count .delayed + into.count .delayed) ∧
    (c'.count .updating + out.count .updating = c.count .updating + into.count .updating) ∧
    (c'.count .promoting + out.count .promoting = c.count .promoting + into.count .promoting) ∧
    (c'.count .listed + out.count .listed = c.count .listed + into.count .listed) ∧
    (c'.count .taken + out.count .taken = c.count .taken + into.count .taken) ∧
    (c'.count .owning + out.count .owning = c.count .owning + into.count .owning) ∧
    (c'.count .parked + out.count .parked = c.count .parked + into.count .parked) ∧
    (c'.count .finished + out.count .finished = c.count .finished + into.count .finished) ∧
    (c'.count .judged + out.count .judged = c.count .judged + into.count .judged) ∧
    (c'.count .rescued + out.count .rescued = c.count .rescued + into.count .rescued) :=
  ⟨h.shift _, h.shift _, h.shift _, h.shift _, h.shift _, h.shift _, h.shift _, h.shift _,
    h.shift _, h.shift _, h.shift _, h.shift _⟩

/-- Where copies of a job may go while its status stays: from the first places to the second ones. -/
def ways : List (List Place × List Place) :=
  [([], []), ([.submitting], [.pending]), ([.submitting], []), ([.pending], [.listed, .taken]),
    ([.pending], [.listed, .finished]), ([.parked], [.delayed, .finished]), ([.parked], [.finished]),
    ([.listed, .finished], []), ([.delayed], [.updating]), ([.promoting], [.pending]),
    ([.listed, .rescued], [.pending]), ([.listed], []), ([.updating], []), ([.promoting], []), ([.judged], []),
    ([.rescued], [])]

/-- The status stays, and it allows the copies to be where they go. -/
private theorem Ok.goes (ok : c.Ok) (booked : c.Booked) {out into : List Place} (hway : (out, into) ∈ ways)
    (h : c.Goes c' c.status c.effects out into) : c'.Ok := by
  obtain ⟨held, judged, single⟩ := booked
  obtain ⟨heff, hok⟩ := ok
  simp only [Left, execs] at held judged
  simp only [ways, List.mem_cons, Prod.mk.injEq, List.not_mem_nil, or_false] at hway
  have hc := h.counts
  simp only [Ok, h.status, h.effects]
  rcases hway with ⟨rfl, rfl⟩ | ⟨rfl, rfl⟩ | ⟨rfl, rfl⟩ | ⟨rfl, rfl⟩ | ⟨rfl, rfl⟩ | ⟨rfl, rfl⟩ | ⟨rfl, rfl⟩ |
    ⟨rfl, rfl⟩ | ⟨rfl, rfl⟩ | ⟨rfl, rfl⟩ | ⟨rfl, rfl⟩ | ⟨rfl, rfl⟩ | ⟨rfl, rfl⟩ | ⟨rfl, rfl⟩ | ⟨rfl, rfl⟩ | ⟨rfl, rfl⟩
  all_goals
    simp at hc
    rcases hs : c.status with _ | (_ | _ | _ | _ | _ | _) <;> simp [hs] at hok heff ⊢ <;> omega

private theorem Ok.insert (ok : c.Ok) (hs : c.status = none) (h : c.Goes c' (some .queued) c.effects [] [.submitting]) :
    c'.Ok := by
  obtain ⟨heff, hok⟩ := ok
  have hc := h.counts
  simp at hc
  simp only [Ok, h.status, h.effects]
  simp [hs] at hok heff ⊢
  omega

/-- Nothing is left of the dead job, so that the new copy is the only one. -/
private theorem Ok.replay (ok : c.Ok) (hs : c.status = some .dead) (hclear : c.Clear)
    (h : c.Goes c' (some .queued) c.effects [] [.submitting]) : c'.Ok := by
  obtain ⟨heff, hok⟩ := ok
  have hc := h.counts
  simp at hc
  simp only [Ok, h.status, h.effects]
  simp [hs, Clear, live] at hok heff hclear ⊢
  omega

/-- A job that can be claimed has one copy at most, and this is it. -/
private theorem Ok.claim (ok : c.Ok) (booked : c.Booked) (hs : c.status = some .queued ∨ c.status = some .retrying)
    (h : c.Goes c' (some .running) c.effects [.taken] [.owning]) : c'.Ok := by
  obtain ⟨held, judged, single⟩ := booked
  obtain ⟨heff, hok⟩ := ok
  simp only [Left, execs] at held judged
  have hc := h.counts
  simp at hc
  simp only [Ok, h.status, h.effects]
  rcases hs with hs | hs <;> simp [hs] at hok heff ⊢ <;> omega

private theorem Ok.skip (ok : c.Ok) (booked : c.Booked) (hs : c.status ≠ some .queued ∧ c.status ≠ some .retrying)
    (h : c.Goes c' c.status c.effects [.taken] [.finished]) : c'.Ok := by
  obtain ⟨held, judged, single⟩ := booked
  obtain ⟨heff, hok⟩ := ok
  simp only [Left, execs] at held judged
  have hc := h.counts
  simp at hc
  simp only [Ok, h.status, h.effects]
  rcases hs' : c.status with _ | (_ | _ | _ | _ | _ | _) <;> simp [hs'] at hs hok heff ⊢ <;> omega

/-- Only a running job has an owner, and only one. -/
private theorem Ok.settle (ok : c.Ok) (booked : c.Booked)
    (h : c.Goes c' (some .succeeded) (c.effects + 1) [.owning] [.finished]) : c'.Ok := by
  have hrunning := ok.running_of_owning
  obtain ⟨held, judged, single⟩ := booked
  obtain ⟨heff, hok⟩ := ok
  simp only [Left, execs] at held judged
  have hc := h.counts
  simp at hc
  have hs := hrunning (by omega)
  simp only [Ok, h.status, h.effects]
  simp [hs] at hok heff ⊢
  omega

/-- The same for an execution whose handler has thrown. -/
private theorem Ok.throws (ok : c.Ok) (booked : c.Booked) {status : JobStatus} {p : Place}
    (hp : (status, p) = (.dead, .finished) ∨ (status, p) = (.retrying, .parked))
    (h : c.Goes c' (some status) c.effects [.owning] [p]) : c'.Ok := by
  have hrunning := ok.running_of_owning
  obtain ⟨held, judged, single⟩ := booked
  obtain ⟨heff, hok⟩ := ok
  simp only [Left, execs] at held judged
  have hc := h.counts
  rcases hp with ⟨⟨⟩⟩ | ⟨⟨⟩⟩
  all_goals
    simp at hc
    have hs := hrunning (by omega)
    simp only [Ok, h.status, h.effects]
    simp [hs] at hok heff ⊢
    omega

private theorem Ok.promote (ok : c.Ok) (hl : ¬ c.Left)
    (h : c.Goes c' (some .queued) c.effects [.updating] [.promoting]) : c'.Ok := by
  have hretrying := ok.retrying_of_waiting
  obtain ⟨heff, hok⟩ := ok
  have hc := h.counts
  simp at hc
  have hs := hretrying (by omega)
  simp only [Ok, h.status, h.effects]
  simp [hs, Left, execs] at hok heff hl ⊢
  omega

private theorem Ok.die (ok : c.Ok) (booked : c.Booked) (hs : c'.status = c.status) (he : c'.effects = c.effects)
    (hle : ∀ p, c'.count p ≤ c.count p)
    (heq : ∀ p, p ≠ .taken → p ≠ .owning → p ≠ .parked → p ≠ .finished → c'.count p = c.count p)
    (hf : c.InPlay → c'.count .finished = c.count .finished) : c'.Ok := by
  obtain ⟨held, judged, single⟩ := booked
  obtain ⟨heff, hok⟩ := ok
  simp only [Left, execs] at held judged
  have h1 := hle .taken
  have h2 := hle .owning
  have h3 := hle .parked
  have h4 := hle .finished
  have hother p (hp : p ≠ .taken ∧ p ≠ .owning ∧ p ≠ .parked ∧ p ≠ .finished) :
      c'.count p = c.count p := heq p hp.1 hp.2.1 hp.2.2.1 hp.2.2.2
  simp only [Ok, hs, he, hother .pending (by decide), hother .submitting (by decide),
    hother .delayed (by decide), hother .updating (by decide), hother .promoting (by decide),
    hother .listed (by decide), hother .judged (by decide), hother .rescued (by decide)]
  rcases hs' : c.status with _ | (_ | _ | _ | _ | _ | _) <;>
    simp [hs', InPlay, Active] at hok heff hf ⊢ <;> omega

private theorem Ok.judge (ok : c.Ok) (booked : c.Booked) (hs : c.Active)
    (h : c.Goes c' c.status c.effects [] [.judged]) : c'.Ok := by
  obtain ⟨held, judged, single⟩ := booked
  obtain ⟨heff, hok⟩ := ok
  simp only [Left, execs] at held judged
  have hc := h.counts
  simp at hc
  simp only [Ok, h.status, h.effects]
  rcases hs with hs | hs <;> simp [hs] at hok heff ⊢ <;> omega

/-- What the reaper judges is left behind, so that nobody owns the job. -/
private theorem Ok.judged (ok : c.Ok) (booked : c.Booked) {status : JobStatus} {into : List Place}
    (hinto : (status, into) = (.dead, []) ∨ (status, into) = (.queued, [.rescued]))
    (h : c.Goes c' (some status) c.effects [.judged] into) : c'.Ok := by
  have hactive := ok.active_of_judged
  have honly := ok.only_left
  obtain ⟨held, judged, single⟩ := booked
  obtain ⟨heff, hok⟩ := ok
  have hc := h.counts
  rcases hinto with ⟨⟨⟩⟩ | ⟨⟨⟩⟩
  all_goals
    simp at hc
    have hs := hactive (by omega)
    have hleft := honly hs (judged (by omega))
    simp only [Ok, h.status, h.effects]
    rcases hs with hs | hs <;> simp [hs] at hok heff ⊢ <;> omega

private theorem Ok.reset (ok : c.Ok) (hs : c.status = some .running) (hl : c.Left)
    (h : c.Goes c' (some .queued) c.effects [] []) : c'.Ok := by
  have hleft := ok.only_left (.inr hs) hl
  obtain ⟨heff, hok⟩ := ok
  have hc := h.counts
  simp at hc
  simp only [Ok, h.status, h.effects]
  simp [hs] at hok heff ⊢
  omega

private theorem Ok.recover (ok : c.Ok) (booked : c.Booked) (hs : c.status ≠ some .running)
    (hlast : c.status = some .retrying → c.live = 0 ∧ c.count .listed = 1 + c.count .finished)
    (h : c.Goes c' c.status c.effects [.listed] [.pending]) : c'.Ok := by
  obtain ⟨held, judged, single⟩ := booked
  obtain ⟨heff, hok⟩ := ok
  simp only [Left, execs] at held judged
  have hc := h.counts
  simp at hc
  simp only [Ok, h.status, h.effects]
  rcases hs' : c.status with _ | (_ | _ | _ | _ | _ | _) <;>
    simp [hs', live] at hs hlast hok heff ⊢ <;> omega

private theorem Ok.sweep (ok : c.Ok) (booked : c.Booked) (hs : (c.status.any JobStatus.terminal = true) ∨
      (c.status = some .queued ∨ c.status = some .retrying) ∧ c.Clear)
    (h : c.Goes c' c.status c.effects [] [.pending]) : c'.Ok := by
  obtain ⟨held, judged, single⟩ := booked
  obtain ⟨heff, hok⟩ := ok
  simp only [Left, execs] at held judged
  have hc := h.counts
  simp at hc
  simp only [Ok, h.status, h.effects]
  rcases hs with hs | ⟨hs | hs, hclear⟩
  · rcases hs' : c.status with _ | (_ | _ | _ | _ | _ | _) <;>
      simp [hs', JobStatus.terminal] at hs hok heff ⊢ <;> omega
  all_goals
    simp [hs, Clear, live] at hok heff hclear ⊢
    omega

/-- Every rule keeps the ledger. -/
theorem Ok.step (ok : c.Ok) (booked : c.Booked) (h : Step faults c c') : c'.Ok := by
  cases h with
  | idle h | submit h | abandon _ h | take h | discard _ h | delay h | postpone _ h
  | release h | remove h | push h | rescue _ h | drop _ _ h => exact ok.goes booked (by decide) h
  | giveUp _ p hp h =>
      rcases hp with rfl | rfl | rfl | rfl
      all_goals exact ok.goes booked (by decide) h
  | insert hs h => exact ok.insert hs h
  | replay hs hclear h => exact ok.replay hs hclear h
  | claim hs h => exact ok.claim booked hs h
  | skip hs h => exact ok.skip booked hs h
  | settle h => exact ok.settle booked h
  | bury h => exact ok.throws booked (.inl rfl) h
  | park h => exact ok.throws booked (.inr rfl) h
  | promote hl h => exact ok.promote hl h
  | die _ hs he hle heq hfin => exact ok.die booked hs he hle heq hfin
  | judge _ hs h => exact ok.judge booked hs h
  | reapBury _ h => exact ok.judged booked (.inl rfl) h
  | requeue _ h => exact ok.judged booked (.inr rfl) h
  | reset _ hs hl h => exact ok.reset hs hl h
  | recover _ hs hlast _ h => exact ok.recover booked hs hlast h
  | sweep _ hs h => exact ok.sweep booked hs h

end Ledger

end QueueFlow
