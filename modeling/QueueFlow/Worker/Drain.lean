-- SUMMARY: The worker process from within: the semaphore, the main loop, its executions and the drain, and when the drain deletes the heartbeat.
import QueueFlow.Shared.Semaphore
import QueueFlow.Script

/-!
# Draining

One process runs the main loop, the executions that the loop started without awaiting them, and the
drain that a signal starts. They interleave at every `await`. Each step below is what the process does
between two of them; what a command answers, and when a timer fires, is left open.
-/

namespace QueueFlow

open Transition Shared

/-! ## The process -/

/-- Where the main loop is. -/
inductive LoopPc where
  /-- Before `while (!stopping)`. -/
  | top
  /-- Parked in `acquire`. -/
  | acquiring
  /-- It has a slot and has not issued `BLMOVE` yet. -/
  | granted
  /-- Parked in `BLMOVE`. -/
  | blocked
  /-- Awaiting the `LREM` of an entry that is not a uuid. -/
  | discarding
  | exited
  deriving DecidableEq, Repr

/-- The loop owns a slot that it has not passed on to an execution. -/
def LoopPc.holds : LoopPc → Bool
  | .granted | .blocked | .discarding => true
  | _ => false

/-- What the main loop started without awaiting it. -/
structure Running where
  id : Text
  /-- `processOne` has returned, and the `LREM` is awaited. -/
  removing : Bool
  deriving DecidableEq, Repr

/-- Where `drain` is. Times are milliseconds. -/
inductive DrainPc where
  | idle
  /-- It waits for the loop to exit, but not longer than to `limit`. -/
  | awaitLoop (limit : Nat)
  /-- Slots were taken; it looks again, but not before `wake`. -/
  | polling (deadline wake : Nat)
  /-- It has issued the `DEL` of the heartbeat. -/
  | deleting
  /-- It closes its connections; `process.exit(0)` is next. -/
  | closing (abandoned : Nat)
  deriving DecidableEq, Repr

structure Process where
  /-- The main loop is its only caller of `acquire`. -/
  slots : Semaphore Unit
  stopping : Bool
  loop : LoopPc
  execs : List Running
  drain : DrainPc
  now : Nat
  /-- The drain's `DEL` took effect. -/
  deleted : Bool
  /-- `process.exit`. -/
  gone : Bool
  deriving DecidableEq, Repr

/-- How a command of the loop is answered. -/
inductive Reply where
  | rejected
  | null
  | id (jobId : Text)
  deriving DecidableEq, Repr

inductive Event where
  | tick (d : Nat)
  /-- SIGTERM or SIGINT. -/
  | signal
  /-- The loop goes on from where it awaits nothing. -/
  | loop
  /-- The command that the loop awaits is answered. -/
  | reply (r : Reply)
  /-- `processOne` returns or throws. -/
  | settle (x : Running) (threw : Bool)
  /-- The `LREM` of an execution is answered. -/
  | removed (x : Running)
  /-- The drain goes on. `failed` and `took` say how its `DEL` goes. -/
  | drain (failed took : Bool)
  deriving DecidableEq, Repr

namespace Process

/-- A worker that has just sent its first heartbeat. -/
def start (CONCURRENCY : Nat) : Process where
  slots := .new CONCURRENCY
  stopping := false
  loop := .top
  execs := []
  drain := .idle
  now := 0
  deleted := false
  gone := false

def exit (p : Process) : Process := { p with gone := true }

/-- `slots.release()`: a parked loop goes on with the permit. -/
def release (p : Process) : Process :=
  { p with slots := p.slots.release.1, loop := if p.slots.release.2.isSome then .granted else p.loop }

/-- The loop from its top to the next `await`, or from the `await` of `acquire` to `BLMOVE`. -/
def runLoop (p : Process) : Option Process :=
  match p.loop with
  | .top =>
      if p.stopping then some { p with loop := .exited }
      else
        some { p with
          slots := (p.slots.acquire ()).1
          loop := if (p.slots.acquire ()).2.isSome then .granted else .acquiring }
  | .granted => some { p with loop := .blocked }
  | _ => none

/-- The loop after `BLMOVE`, or after the `LREM` of junk. -/
def answer (p : Process) (r : Reply) : Option Process :=
  match p.loop with
  | .blocked =>
      match r with
      | .rejected =>
          -- an error that no disconnect explains ends the process
          if p.stopping then some { p.release with loop := .exited }
          else some (exit { p.release with loop := .exited })
      | .null => some { p.release with loop := .top }
      | .id jobId =>
          if isUuid jobId then some { p with execs := ⟨jobId, false⟩ :: p.execs, loop := .top }
          else some { p with loop := .discarding }
  | .discarding =>
      match r with
      | .rejected => some p.exit
      | _ => some { p.release with loop := .top }
  | _ => none

/-- `.finally(() => slots.release())` -/
def finish (p : Process) (x : Running) : Process :=
  { p.release with execs := p.execs.erase x }

def DRAIN_POLL_MS : Nat := 100

/-- The drain looks whether a slot is still taken, and what it does then. -/
def look (p : Process) (deadline : Nat) : Process :=
  if 0 < p.slots.inFlight ∧ p.now < deadline then
    { p with drain := .polling deadline (p.now + DRAIN_POLL_MS) }
  else if p.slots.inFlight = 0 then { p with drain := .deleting }
  else { p with drain := .closing p.slots.inFlight }

/-- The drain from one `await` to the next. -/
def runDrain (SHUTDOWN_TIMEOUT_MS : Nat) (p : Process) (failed took : Bool) : Option Process :=
  match p.drain with
  | .idle => none
  | .awaitLoop limit =>
      if p.loop = .exited ∨ limit ≤ p.now then some (p.look (p.now + SHUTDOWN_TIMEOUT_MS))
      else none
  | .polling deadline wake => if wake ≤ p.now then some (p.look deadline) else none
  | .deleting =>
      if failed then some { p with deleted := p.deleted || took }.exit
      else some { p with deleted := true, drain := .closing 0 }
  | .closing _ => some p.exit

def step (SHUTDOWN_TIMEOUT_MS : Nat) (p : Process) (e : Event) : Option Process :=
  if p.gone then none else
  match e with
  | .tick d => some { p with now := p.now + d }
  | .signal =>
      match p.drain with
      | .idle => some { p with stopping := true, drain := .awaitLoop (p.now + 1000) }
      -- the second signal
      | _ => some p.exit
  | .loop => p.runLoop
  | .reply r => p.answer r
  | .settle x threw =>
      if x ∈ p.execs ∧ x.removing = false then
        if threw then some (p.finish x)
        else some { p with execs := ⟨x.id, true⟩ :: p.execs.erase x }
      else none
  | .removed x => if x ∈ p.execs ∧ x.removing = true then some (p.finish x) else none
  | .drain failed took => p.runDrain SHUTDOWN_TIMEOUT_MS failed took

/-- The deadline that the drain compares the time with when it looks next. -/
def deadline (SHUTDOWN_TIMEOUT_MS : Nat) (p : Process) : Option Nat :=
  match p.drain with
  | .awaitLoop _ => some (p.now + SHUTDOWN_TIMEOUT_MS)
  | .polling deadline _ => some deadline
  | _ => none

/-! ## What a step can do -/

/-- One step of the process. The guards are those that later proofs need. -/
inductive Move (SHUTDOWN_TIMEOUT_MS : Nat) (p : Process) : Process → Prop where
  | tick (d : Nat) : Move SHUTDOWN_TIMEOUT_MS p { p with now := p.now + d }
  | exits : Move SHUTDOWN_TIMEOUT_MS p p.exit
  | signalled (hidle : p.drain = .idle) :
      Move SHUTDOWN_TIMEOUT_MS p { p with stopping := true, drain := .awaitLoop (p.now + 1000) }
  | leaves (hloop : p.loop = .top) (hstop : p.stopping = true) :
      Move SHUTDOWN_TIMEOUT_MS p { p with loop := .exited }
  | acquires (hloop : p.loop = .top) (hstop : p.stopping = false) :
      Move SHUTDOWN_TIMEOUT_MS p
        { p with
          slots := (p.slots.acquire ()).1
          loop := if (p.slots.acquire ()).2.isSome then .granted else .acquiring }
  | blocks (hloop : p.loop = .granted) : Move SHUTDOWN_TIMEOUT_MS p { p with loop := .blocked }
  /-- The loop has taken nothing and gives its slot back. -/
  | givesBack (l : LoopPc) (hholds : p.loop.holds = true) (hl : l = .top ∨ l = .exited) :
      Move SHUTDOWN_TIMEOUT_MS p { p.release with loop := l }
  | crashes (hloop : p.loop = .blocked) :
      Move SHUTDOWN_TIMEOUT_MS p (exit { p.release with loop := .exited })
  | starts (jobId : Text) (hloop : p.loop = .blocked) :
      Move SHUTDOWN_TIMEOUT_MS p { p with execs := ⟨jobId, false⟩ :: p.execs, loop := .top }
  | discards (hloop : p.loop = .blocked) : Move SHUTDOWN_TIMEOUT_MS p { p with loop := .discarding }
  | returns (x : Running) (hx : x ∈ p.execs) :
      Move SHUTDOWN_TIMEOUT_MS p { p with execs := ⟨x.id, true⟩ :: p.execs.erase x }
  | finishes (x : Running) (hx : x ∈ p.execs) : Move SHUTDOWN_TIMEOUT_MS p (p.finish x)
  | looks (d : Nat) (hd : p.deadline SHUTDOWN_TIMEOUT_MS = some d) :
      Move SHUTDOWN_TIMEOUT_MS p (p.look d)
  | failsToDelete (took : Bool) (hpc : p.drain = .deleting) :
      Move SHUTDOWN_TIMEOUT_MS p (exit { p with deleted := p.deleted || took })
  | deletes (hpc : p.drain = .deleting) :
      Move SHUTDOWN_TIMEOUT_MS p { p with deleted := true, drain := .closing 0 }

section

variable {T : Nat} {p q : Process}

private theorem runLoop_cases (h : p.runLoop = some q) : p.Move T q := by
  unfold runLoop at h
  split at h
  case h_1 htop =>
    split at h
    case isTrue hstop => cases h; exact .leaves htop hstop
    case isFalse hstop => cases h; exact .acquires htop (Bool.not_eq_true _ ▸ hstop)
  case h_2 hgranted => cases h; exact .blocks hgranted
  case h_3 => cases h

private theorem answer_cases {r : Reply} (h : p.answer r = some q) : p.Move T q := by
  unfold answer at h
  split at h
  case h_1 hblocked =>
    have hholds : p.loop.holds = true := by rw [hblocked]; rfl
    cases r with
    | rejected =>
      dsimp only at h
      split at h
      · cases h; exact .givesBack _ hholds (.inr rfl)
      · cases h; exact .crashes hblocked
    | null => cases h; exact .givesBack _ hholds (.inl rfl)
    | id jobId =>
      dsimp only at h
      split at h
      · cases h; exact .starts jobId hblocked
      · cases h; exact .discards hblocked
  case h_2 hdiscarding =>
    split at h
    · cases h; exact .exits
    · cases h; exact .givesBack _ (by rw [hdiscarding]; rfl) (.inl rfl)
  case h_3 => cases h

private theorem runDrain_cases {failed took : Bool} (h : p.runDrain T failed took = some q) :
    p.Move T q := by
  unfold runDrain at h
  split at h
  case h_1 => cases h
  case h_2 limit hpc =>
    obtain ⟨-, h⟩ := Option.ite_none_right_eq_some.mp h
    cases h
    exact .looks _ (by unfold deadline; rw [hpc])
  case h_3 deadline wake hpc =>
    obtain ⟨-, h⟩ := Option.ite_none_right_eq_some.mp h
    cases h
    exact .looks _ (by unfold Process.deadline; rw [hpc])
  case h_4 hpc =>
    split at h
    · cases h; exact .failsToDelete took hpc
    · cases h; exact .deletes hpc
  case h_5 => cases h; exact .exits

theorem step_cases {e : Event} (h : p.step T e = some q) : p.Move T q := by
  unfold step at h
  split at h
  · cases h
  cases e with
  | tick d => cases h; exact .tick d
  | signal =>
    dsimp only at h
    split at h
    case h_1 hidle => cases h; exact .signalled hidle
    case h_2 => cases h; exact .exits
  | loop => exact runLoop_cases h
  | reply r => exact answer_cases h
  | settle x threw =>
    obtain ⟨⟨hx, -⟩, h⟩ := Option.ite_none_right_eq_some.mp h
    split at h
    · cases h; exact .finishes x hx
    · cases h; exact .returns x hx
  | removed x =>
    obtain ⟨⟨hx, -⟩, h⟩ := Option.ite_none_right_eq_some.mp h
    cases h
    exact .finishes x hx
  | drain failed took => exact runDrain_cases h

/-- The drain looks when its wait is over. -/
theorem step_of_deadline {d : Nat} {failed took : Bool} (hd : p.deadline T = some d)
    (h : p.step T (.drain failed took) = some q) : q = p.look d := by
  unfold step at h
  split at h
  · cases h
  dsimp only at h
  unfold runDrain at h
  unfold deadline at hd
  split at hd
  case h_1 hpc | h_2 hpc =>
    rw [hpc] at h
    cases hd
    obtain ⟨-, h⟩ := Option.ite_none_right_eq_some.mp h
    exact (Option.some.inj h).symm
  case h_3 => cases hd

/-- A look changes nothing but the drain. -/
theorem look_eq (d : Nat) : ∃ pc, p.look d = { p with drain := pc } := by
  unfold look
  split
  · exact ⟨_, rfl⟩
  · split <;> exact ⟨_, rfl⟩

/-- The drain looks on, deletes because no slot is taken, or gives up. -/
theorem look_cases (d : Nat) : (∃ wake, (p.look d).drain = .polling d wake) ∨
    (p.slots.inFlight = 0 ∧ (p.look d).drain = .deleting) ∨
    (p.slots.inFlight ≠ 0 ∧ (p.look d).drain = .closing p.slots.inFlight) := by
  unfold look
  split
  · exact .inl ⟨_, rfl⟩
  · split
    case isTrue hzero => exact .inr (.inl ⟨hzero, rfl⟩)
    case isFalse hpos => exact .inr (.inr ⟨hpos, rfl⟩)

/-- A drain that is about to look has not issued the `DEL`. -/
theorem drain_of_deadline {d : Nat} (h : p.deadline T = some d) :
    p.drain ≠ .idle ∧ p.drain ≠ .deleting ∧ p.drain ≠ .closing 0 := by
  unfold deadline at h
  split at h
  case h_1 hpc | h_2 hpc => rw [hpc]; exact ⟨by rintro ⟨⟩, by rintro ⟨⟩, by rintro ⟨⟩⟩
  case h_3 => cases h

end

/-! ## Permits

`slots.inFlight` counts the executions and the slot that the loop holds. -/

/-- Every permit that is out belongs to an execution or to the loop, apart from `k` of them. -/
structure Owes (p : Process) (k : Nat) : Prop where
  pos : 0 < p.slots.capacity
  le : p.slots.available ≤ p.slots.capacity
  inFlight : p.slots.inFlight = p.execs.length + p.loop.holds.toNat + k
  waiting : p.slots.waiting = if p.loop = .acquiring then [()] else []
  full : p.loop = .acquiring → p.slots.available = 0

namespace Owes

variable {p q : Process} {k : Nat}

theorem start {CONCURRENCY : Nat} (hpos : 1 ≤ CONCURRENCY) : (Process.start CONCURRENCY).Owes 0 where
  pos := hpos
  le := Nat.le_refl _
  inFlight := by simp [Process.start, Semaphore.new, Semaphore.inFlight, LoopPc.holds]
  waiting := rfl
  full := by rintro ⟨⟩

/-- A release pays one permit back, or hands it to the loop. -/
theorem release (h : p.Owes (k + 1)) : p.release.Owes k := by
  obtain ⟨hpos, hle, hin, hwait, hfull⟩ := h
  unfold Semaphore.inFlight at hin
  by_cases hloop : p.loop = .acquiring
  · have hw : p.slots.waiting = [()] := by rw [hwait, if_pos hloop]
    have hrel : p.release = { p with slots := { p.slots with waiting := [] }, loop := .granted } := by
      simp [Process.release, Semaphore.release, hw]
    rw [hrel]
    rw [hloop] at hin
    refine ⟨hpos, hle, ?_, rfl, by rintro ⟨⟩⟩
    change p.slots.capacity - p.slots.available = p.execs.length + 1 + k
    change p.slots.capacity - p.slots.available = p.execs.length + 0 + (k + 1) at hin
    omega
  · have hw : p.slots.waiting = [] := by rw [hwait, if_neg hloop]
    have hlt : p.slots.available < p.slots.capacity := by omega
    have hrel : p.release = { p with slots := { p.slots with available := p.slots.available + 1 } } := by
      simp [Process.release, Semaphore.release, hw, hlt]
    rw [hrel]
    refine ⟨hpos, hlt, ?_, hwait, fun hacq => absurd hacq hloop⟩
    change p.slots.capacity - (p.slots.available + 1) = p.execs.length + p.loop.holds.toNat + k
    omega

/-- The loop goes elsewhere, or executions come and go; what is owed then is counted anew. -/
theorem move (h : p.Owes k) {l : LoopPc} {execs : List Running} {j : Nat}
    (hp : p.loop ≠ .acquiring) (hl : l ≠ .acquiring)
    (hcount : execs.length + l.holds.toNat + j = p.execs.length + p.loop.holds.toNat + k) :
    Owes { p with loop := l, execs := execs } j where
  pos := h.pos
  le := h.le
  inFlight := h.inFlight.trans hcount.symm
  waiting := by rw [if_neg hl]; exact h.waiting.trans (if_neg hp)
  full := fun hacq => absurd hacq hl

/-- The loop finds a permit, or waits for one when all of them are out. -/
theorem acquire (h : p.Owes 0) (htop : p.loop = .top) :
    Owes { p with
      slots := (p.slots.acquire ()).1
      loop := if (p.slots.acquire ()).2.isSome then .granted else .acquiring } 0 := by
  obtain ⟨hpos, hle, hin, hwait, -⟩ := h
  rw [htop] at hin
  rw [htop, if_neg (by rintro ⟨⟩)] at hwait
  unfold Semaphore.inFlight at hin
  change p.slots.capacity - p.slots.available = p.execs.length + 0 + 0 at hin
  unfold Semaphore.acquire
  split
  case isTrue hfree =>
    refine ⟨hpos, by change p.slots.available - 1 ≤ p.slots.capacity; omega, ?_, hwait, by rintro ⟨⟩⟩
    change p.slots.capacity - (p.slots.available - 1) = p.execs.length + 1 + 0
    omega
  case isFalse hfull =>
    have hzero : p.slots.available = 0 := by omega
    refine ⟨hpos, hle, hin, ?_, fun _ => hzero⟩
    change p.slots.waiting ++ [()] = [()]
    rw [hwait]
    rfl

private theorem release_of_not_parked (h : p.Owes k) (hp : p.loop ≠ .acquiring) (l : LoopPc) :
    { p.release with loop := l } = Process.release { p with loop := l } := by
  have hw : p.slots.waiting = [] := h.waiting.trans (if_neg hp)
  by_cases hlt : p.slots.available < p.slots.capacity
  · simp [Process.release, Semaphore.release, hw, hlt]
  · simp [Process.release, Semaphore.release, hw, hlt]

theorem giveBack {l : LoopPc} (h : p.Owes 0) (hp : p.loop.holds = true) (hl : l = .top ∨ l = .exited) :
    Owes { p.release with loop := l } 0 := by
  have hne : p.loop ≠ .acquiring := by
    intro heq
    rw [heq] at hp
    cases hp
  have hcount : p.execs.length + l.holds.toNat + 1 = p.execs.length + p.loop.holds.toNat + 0 := by
    rw [hp]
    rcases hl with rfl | rfl <;> rfl
  rw [release_of_not_parked h hne]
  exact release (h.move hne (by rcases hl with rfl | rfl <;> rintro ⟨⟩) hcount)

theorem finish {x : Running} (h : p.Owes 0) (hx : x ∈ p.execs) : (p.finish x).Owes 0 := by
  have herase : Owes { p with execs := p.execs.erase x } 1 := by
    refine ⟨h.pos, h.le, ?_, h.waiting, h.full⟩
    have hlen := List.length_erase_of_mem hx
    have hpos := List.length_pos_of_mem hx
    have hin := h.inFlight
    change p.slots.inFlight = (p.execs.erase x).length + p.loop.holds.toNat + 1
    omega
  exact herase.release

/-- The books do not see the clock, the flags and the drain. -/
theorem congr (h : p.Owes k) (hslots : q.slots = p.slots) (hloop : q.loop = p.loop)
    (hexecs : q.execs = p.execs) : q.Owes k := by
  obtain ⟨hpos, hle, hin, hwait, hfull⟩ := h
  exact ⟨by rwa [hslots], by rwa [hslots], by rwa [hslots, hloop, hexecs],
    by rwa [hslots, hloop], by rwa [hslots, hloop]⟩

theorem step {T : Nat} (h : p.Owes 0) (hmove : p.Move T q) : q.Owes 0 := by
  cases hmove with
  | tick | exits | signalled | failsToDelete | deletes => exact h.congr rfl rfl rfl
  | leaves hloop | discards hloop | blocks hloop =>
    exact h.move (by rw [hloop]; rintro ⟨⟩) (by rintro ⟨⟩) (by rw [hloop]; rfl)
  | acquires hloop => exact h.acquire hloop
  | givesBack l hholds hl => exact h.giveBack hholds hl
  | crashes hloop => exact (h.giveBack (by rw [hloop]; rfl) (.inr rfl)).congr rfl rfl rfl
  | starts jobId hloop =>
    -- the slot passes from the loop to the execution
    exact h.move (by rw [hloop]; rintro ⟨⟩) (by rintro ⟨⟩) (by rw [hloop]; rfl)
  | returns x hx =>
    refine ⟨h.pos, h.le, ?_, h.waiting, h.full⟩
    have hlen := List.length_erase_of_mem hx
    have hpos := List.length_pos_of_mem hx
    have hin := h.inFlight
    change p.slots.inFlight = (p.execs.erase x).length + 1 + p.loop.holds.toNat + 0
    omega
  | finishes x hx => exact h.finish hx
  | looks d =>
    obtain ⟨pc, hlook⟩ := look_eq (p := p) d
    rw [hlook]
    exact h.congr rfl rfl rfl

end Owes

/-! ## The invariant -/

/-- The loop takes nothing any more, and no execution is left. -/
structure Finished (p : Process) : Prop where
  stopping : p.stopping = true
  execs : p.execs = []
  loop : p.loop = .top ∨ p.loop = .exited

/-- The drain has issued the `DEL` of the heartbeat. -/
def Deletes (p : Process) : Prop := p.drain = .deleting ∨ p.deleted = true

instance (p : Process) : Decidable p.Deletes :=
  inferInstanceAs (Decidable (p.drain = .deleting ∨ p.deleted = true))

structure Wf (p : Process) : Prop where
  owes : p.Owes 0
  stops : p.drain ≠ .idle → p.stopping = true
  finished : p.Deletes → p.Finished
  deleted : p.deleted = true → p.drain = .deleting ∨ p.drain = .closing 0

section

variable {T : Nat} {p q : Process}

/-- A finished process stays so, whatever happens. -/
theorem Finished.step (h : p.Finished) (hmove : p.Move T q) : q.Finished := by
  obtain ⟨hstop, hexecs, hloop⟩ := h
  have hnot {l : LoopPc} (hl : p.loop = l) (hother : l ≠ .top ∧ l ≠ .exited) : False := by
    rw [hl] at hloop
    exact hloop.elim hother.1 hother.2
  cases hmove with
  | tick | exits | failsToDelete | deletes => exact ⟨hstop, hexecs, hloop⟩
  | signalled => exact ⟨rfl, hexecs, hloop⟩
  | leaves => exact ⟨hstop, hexecs, .inr rfl⟩
  | acquires _ hgoes =>
    rw [hstop] at hgoes
    cases hgoes
  | givesBack l hholds =>
    rcases hloop with hloop | hloop <;> rw [hloop] at hholds <;> cases hholds
  | blocks hl | crashes hl | starts jobId hl | discards hl =>
    exact (hnot hl ⟨by rintro ⟨⟩, by rintro ⟨⟩⟩).elim
  | returns x hx | finishes x hx =>
    rw [hexecs] at hx
    cases hx
  | looks d =>
    obtain ⟨pc, hlook⟩ := look_eq (p := p) d
    rw [hlook]
    exact ⟨hstop, hexecs, hloop⟩

/-- No slot is taken: the loop neither holds one nor waits for one, and no execution is left. -/
theorem Owes.finished (h : p.Owes 0) (hstop : p.stopping = true) (hzero : p.slots.inFlight = 0) :
    p.Finished := by
  have hin := h.inFlight
  rw [hzero] at hin
  have hnone : p.execs.length = 0 := by omega
  have hfree : p.loop.holds.toNat = 0 := by omega
  refine ⟨hstop, List.eq_nil_of_length_eq_zero hnone, ?_⟩
  cases hloop : p.loop with
  | top => exact .inl rfl
  | exited => exact .inr rfl
  | acquiring =>
    have hfull := h.full hloop
    have hpos := h.pos
    unfold Semaphore.inFlight at hzero
    omega
  | granted | blocked | discarding =>
    rw [hloop] at hfree
    cases hfree

namespace Wf

theorem start {CONCURRENCY : Nat} (hpos : 1 ≤ CONCURRENCY) : (Process.start CONCURRENCY).Wf where
  owes := .start hpos
  stops := fun hidle => absurd rfl hidle
  finished := by rintro (hp | hp) <;> cases hp
  deleted := by rintro ⟨⟩

/-- The drain goes on at a point where the `DEL` is neither issued nor done. -/
theorem not_deleted (h : p.Wf) (hpc : p.drain ≠ .deleting ∧ p.drain ≠ .closing 0) :
    p.deleted = false := by
  cases hp : p.deleted with
  | false => rfl
  | true => exact absurd (h.deleted hp) (not_or.mpr hpc)

/-- The flags and the drain are as they were. -/
private theorem same (h : p.Wf) (hmove : p.Move T q) (hdrain : q.drain = p.drain)
    (hstop : q.stopping = p.stopping) (hdel : q.deleted = p.deleted) : q.Wf where
  owes := h.owes.step hmove
  stops := by rw [hdrain, hstop]; exact h.stops
  finished := by
    unfold Deletes
    rw [hdrain, hdel]
    exact fun hp => (h.finished hp).step hmove
  deleted := by rw [hdrain, hdel]; exact h.deleted

theorem look {d : Nat} (h : p.Wf) (hd : p.deadline T = some d) : (p.look d).Wf := by
  obtain ⟨hidle, hpc⟩ := drain_of_deadline hd
  have hstop := h.stops hidle
  have hkept := h.not_deleted hpc
  have howes : (p.look d).Owes 0 := h.owes.step (.looks d hd)
  obtain ⟨pc, hlook⟩ := look_eq (p := p) d
  have hcases := look_cases (p := p) d
  rw [hlook] at howes hcases ⊢
  refine ⟨howes, fun _ => hstop, ?_, fun hgone => ?_⟩
  · rintro (hdel | hgone)
    · rcases hcases with ⟨wake, hwake⟩ | ⟨hzero, -⟩ | ⟨-, hclose⟩
      · cases hwake.symm.trans hdel
      · exact howes.finished hstop hzero
      · cases hclose.symm.trans hdel
    · cases hkept.symm.trans hgone
  · cases hkept.symm.trans hgone

theorem step (h : p.Wf) (hmove : p.Move T q) : q.Wf := by
  have hsame := h.same hmove
  cases hmove with
  | signalled hidle =>
    have hkept := h.not_deleted (by rw [hidle]; exact ⟨by rintro ⟨⟩, by rintro ⟨⟩⟩)
    refine ⟨h.owes.congr rfl rfl rfl, fun _ => rfl, ?_, fun hgone => ?_⟩
    · rintro (hp | hp)
      · cases hp
      · cases hkept.symm.trans hp
    · cases hkept.symm.trans hgone
  | looks d hd => exact h.look hd
  | failsToDelete took hpc =>
    have hfinished := h.finished (.inl hpc)
    exact ⟨h.owes.congr rfl rfl rfl, h.stops,
      fun _ => ⟨hfinished.stopping, hfinished.execs, hfinished.loop⟩, fun _ => .inl hpc⟩
  | deletes hpc =>
    have hfinished := h.finished (.inl hpc)
    exact ⟨h.owes.congr rfl rfl rfl, fun _ => hfinished.stopping,
      fun _ => ⟨hfinished.stopping, hfinished.execs, hfinished.loop⟩, fun _ => .inr rfl⟩
  | tick | exits | leaves | acquires | blocks | givesBack | crashes | starts | discards | returns
  | finishes => exact hsame rfl rfl rfl

theorem run (h : p.Wf) (hrun : Run (Process.step T) always p q) : q.Wf :=
  hrun.invariant h fun _ _ _ hp _ hstep => hp.step (step_cases hstep)

end Wf

theorem Finished.run (h : p.Finished) (hrun : Run (Process.step T) always p q) : q.Finished :=
  hrun.invariant h fun _ _ _ hp _ hstep => hp.step (step_cases hstep)

/-- An execution is left when the drain looks and the deadline is over: it gives up. -/
theorem look_gives_up {d : Nat} (h : p.Wf) (hover : d ≤ p.now)
    (hleft : p.execs ≠ []) : p.look d = { p with drain := .closing p.slots.inFlight } := by
  have hpos : 0 < p.slots.inFlight := by
    have hin := h.owes.inFlight
    have hlen := List.length_pos_of_ne_nil hleft
    omega
  unfold look
  rw [if_neg (by omega), if_neg (by omega)]

/-- A drain that gave up does not delete any more. -/
theorem not_deletes_run {n : Nat} (hclose : p.drain = .closing n) (hkept : p.deleted = false)
    (hrun : Run (Process.step T) always p q) : ¬ q.Deletes := by
  have hq : q.drain = .closing n ∧ q.deleted = false := by
    refine hrun.invariant (P := fun q => q.drain = .closing n ∧ q.deleted = false) ⟨hclose, hkept⟩ ?_
    rintro t a u ⟨hpc, hdel⟩ - hstep
    cases step_cases hstep with
    | tick | exits | leaves | acquires | blocks | givesBack | crashes | starts | discards | returns
    | finishes => exact ⟨hpc, hdel⟩
    | signalled hidle => cases hpc.symm.trans hidle
    | failsToDelete took hpc' => cases hpc.symm.trans hpc'
    | deletes hpc' => cases hpc.symm.trans hpc'
    | looks d hd =>
      unfold deadline at hd
      rw [hpc] at hd
      cases hd
  rintro (hp | hp)
  · cases hq.1.symm.trans hp
  · cases hq.2.symm.trans hp

end

/-! ## The heartbeat of a drained worker -/

/-- The drain deletes the heartbeat only when nothing runs and nothing will be started. An execution
that is left when it looks after the deadline keeps the heartbeat. -/
theorem heartbeat_deleted_only_when_finished {CONCURRENCY SHUTDOWN_TIMEOUT_MS : Nat} {p : Process}
    (hpos : 1 ≤ CONCURRENCY)
    (hrun : Run (step SHUTDOWN_TIMEOUT_MS) always (start CONCURRENCY) p) :
    (p.Deletes → ∀ q, Run (step SHUTDOWN_TIMEOUT_MS) always p q → q.execs = []) ∧
    ∀ d failed took q, p.deadline SHUTDOWN_TIMEOUT_MS = some d → d ≤ p.now → p.execs ≠ [] →
      p.step SHUTDOWN_TIMEOUT_MS (.drain failed took) = some q →
      ∀ r, Run (step SHUTDOWN_TIMEOUT_MS) always q r → ¬ r.Deletes := by
  have hwf : p.Wf := (Wf.start hpos).run hrun
  refine ⟨fun hdel q hlater => ((hwf.finished hdel).run hlater).execs, ?_⟩
  intro d failed took q hd hover hleft hstep r hlater
  obtain rfl := step_of_deadline hd hstep
  have hkept := hwf.not_deleted (drain_of_deadline hd).2
  have hlook := look_gives_up hwf hover hleft
  exact not_deletes_run (congrArg drain hlook) ((congrArg deleted hlook).trans hkept) hlater

/-- One execution runs, and the loop is parked in `acquire` when the signal arrives. -/
def signalled : List Event :=
  [.loop, .loop, .reply (.id (uuidOut (Script.job 1))), .loop, .signal, .tick 1000,
    .drain false false, .tick 24950, .drain false false, .tick 50]

/-- The execution returns, and the loop gives the slot back that it is handed. -/
def returned : List Event :=
  [.settle ⟨uuidOut (Script.job 1), false⟩ false, .removed ⟨uuidOut (Script.job 1), true⟩, .loop,
    .reply .rejected, .tick 50, .drain false false]

/-- The execution runs until the deadline and returns before the drain looks again, which then
deletes the heartbeat. -/
theorem deleted_though_running_at_deadline : ∃ p q, Run (step 25000) always (start 1) p ∧
    Run (step 25000) always p q ∧ p.deadline 25000 = some p.now ∧ p.execs ≠ [] ∧ q.Deletes :=
  exists_runs_of_execute signalled returned (by decide +kernel)

theorem heartbeat_deleted_only_when_finished_runs :
    (∃ p, Run (step 25000) always (start 1) p ∧ p.Deletes ∧
      ∀ q, Run (step 25000) always p q → q.execs = []) ∧
    ∃ p q : Process, p.execs ≠ [] ∧ p.step 25000 (.drain false false) = some q ∧
      ∀ r, Run (step 25000) always q r → ¬ r.Deletes := by
  constructor
  · have hrun : ∃ p q, Run (step 25000) always (start 1) p ∧ Run (step 25000) always p q ∧
        q.Deletes := exists_runs_of_execute signalled returned (by decide +kernel)
    obtain ⟨p, q, hp, hq, hdel⟩ := hrun
    have h := heartbeat_deleted_only_when_finished (by decide) (hp.trans hq)
    exact ⟨q, hp.trans hq, hdel, h.1 hdel⟩
  · have hrun : ∃ p q, Run (step 25000) always (start 1) p ∧ Run (step 25000) always p q ∧
        (q.execs ≠ [] ∧ q.deadline 25000 = some 26000 ∧ 26000 ≤ q.now ∧
          (q.step 25000 (.drain false false)).isSome = true) :=
      exists_runs_of_execute signalled [.tick 50] (by decide +kernel)
    obtain ⟨p, q, hp, hq, hleft, hd, hover, hgoes⟩ := hrun
    obtain ⟨r, hr⟩ := Option.isSome_iff_exists.mp hgoes
    have h := heartbeat_deleted_only_when_finished (by decide) (hp.trans hq)
    exact ⟨q, r, hleft, hr, h.2 _ _ _ _ hd hover hleft hr⟩

end Process

end QueueFlow
