-- SUMMARY: The supervisor of start.ts after startRoles: signals, exits of its roles, and when it calls process.exit.
import QueueFlow.Lib.Run
import QueueFlow.Shared.Uuid
import Mathlib.Tactic.Simps.Basic

/-!
# The supervisor

One process starts the API, the worker and the scheduler as children and waits for them. It sees
signals and exits, one at a time, and goes on with what is ready before it sees the next one. What a
signal does to a child is the exit that follows, which may come at any time and in any way.
-/

namespace QueueFlow

open Transition

inductive Role where
  | api
  | worker
  | scheduler
  deriving DecidableEq, Repr

def ROLES : List Role := [.api, .worker, .scheduler]

theorem mem_ROLES (role : Role) : role ∈ ROLES := by cases role <;> decide

inductive Signal where
  | SIGTERM
  | SIGINT
  | other (name : Text)
  deriving DecidableEq, Repr

/-- What an `exit` event carries: of its code and its signal, one is null. -/
inductive ExitStatus where
  | code (code : Nat)
  | signal (signal : Signal)
  deriving DecidableEq, Repr

def wasSignalled : ExitStatus → Bool
  | .signal signal => signal = .SIGTERM || signal = .SIGINT
  | .code code => code = 143 || code = 130

/-- A call of `stop` that has not returned, and the argument of the `process.exit` behind it. -/
structure Stopping where
  /-- The children whose `exit` it awaits. -/
  awaited : List Role
  code : Nat
  deriving DecidableEq, Repr

structure Supervisor where
  /-- The children that have an exit code or a signal code. -/
  exits : List (Role × ExitStatus)
  shuttingDown : Bool
  stops : List Stopping
  /-- The argument of `process.exit`, once it is called. -/
  exitCode : Option Nat
  deriving DecidableEq, Repr

namespace Supervisor

inductive Event where
  | SIGTERM
  | SIGINT
  | exit (role : Role) (status : ExitStatus)
  deriving DecidableEq, Repr

/-- `startRoles` has returned. -/
def started : Supervisor := ⟨[], false, [], none⟩

def hasExited (p : Supervisor) (role : Role) : Bool := p.exits.any fun e => e.1 = role

/-- The children that `stop` waits for. -/
def alive (p : Supervisor) : List Role := ROLES.filter fun role => !p.hasExited role

/-- `stop(signal).then(() => process.exit(code))`. -/
def stop (p : Supervisor) (code : Nat) : Supervisor :=
  if p.shuttingDown then { p with stops := p.stops ++ [⟨[], code⟩] }
  else { p with shuttingDown := true, stops := p.stops ++ [⟨p.alive, code⟩] }

/-- The child has an exit code or a signal code. -/
@[simps shuttingDown stops exitCode]
def setExit (p : Supervisor) (role : Role) (status : ExitStatus) : Supervisor :=
  { p with exits := (role, status) :: p.exits }

/-- The listener of `startRoles`. -/
def onExit (p : Supervisor) (status : ExitStatus) : Supervisor :=
  if p.shuttingDown || wasSignalled status then p else p.stop 1

/-- The listeners that `stop` registered. -/
def once (p : Supervisor) (role : Role) : Supervisor :=
  { p with stops := p.stops.map fun s => { s with awaited := s.awaited.erase role } }

/-- The first call of `stop` that waits for nothing returns, and the process exits. -/
def settle (p : Supervisor) : Supervisor :=
  match p.stops.find? fun s => s.awaited = [] with
  | some s => { p with exitCode := some s.code }
  | none => p

/-- One event. Nothing is seen after `process.exit`, and a child exits once. -/
def step (p : Supervisor) (e : Event) : Option Supervisor :=
  if p.exitCode.isSome then none
  else
    match e with
    | .SIGTERM => some (p.stop 0).settle
    | .SIGINT => some (p.stop 0).settle
    | .exit role status =>
        if p.hasExited role then none
        else some (((p.setExit role status).onExit status).once role).settle

/-! ## What a run has seen -/

structure Seen where
  signalled : Bool
  /-- A role exited unexpectedly before the first signal. -/
  crashedFirst : Bool
  /-- A signal arrived while a drain was under way. -/
  interrupted : Bool
  deriving DecidableEq, Repr

def Seen.nothing : Seen := ⟨false, false, false⟩

def note (p : Supervisor) (e : Event) (_ : Supervisor) (seen : Seen) : Seen :=
  match e with
  | .exit _ status =>
      { seen with crashedFirst := seen.crashedFirst || !seen.signalled && !wasSignalled status }
  | _ => { seen with signalled := true, interrupted := seen.interrupted || p.shuttingDown }

/-! ## The invariant -/

/-- How far the supervisor has come. -/
inductive Phase (p : Supervisor) (seen : Seen) : Prop where
  | running (hexit : p.exitCode = none) (hdown : p.shuttingDown = false) (hstops : p.stops = [])
      (hseen : seen = .nothing)
  | draining (code : Nat) (hexit : p.exitCode = none) (hdown : p.shuttingDown = true)
      (hstops : p.stops = [⟨p.alive, code⟩]) (halive : p.alive ≠ [])
      (hcode : code = 0 → seen.signalled = true ∧ seen.crashedFirst = false)
      (hseen : seen.interrupted = false)
  | ended (code : Nat) (hexit : p.exitCode = some code) (halive : p.alive = [])
      (hcode : code = 0 → seen.crashedFirst = false) (hseen : seen.interrupted = false)
  | abandoned (hexit : p.exitCode = some 0) (halive : p.alive ≠ []) (hseen : seen.interrupted = true)

variable {p q : Supervisor} {seen : Seen} {role : Role} {status : ExitStatus} {code : Nat}

theorem alive_eq_nil : p.alive = [] ↔ ∀ role, p.hasExited role = true := by
  simp only [alive, List.filter_eq_nil_iff, Bool.not_eq_true', Bool.not_eq_false]
  exact ⟨fun h role => h role (mem_ROLES role), fun h role _ => h role⟩

/-- An exit takes the child off those that a drain waits for. -/
theorem alive_exit : (p.setExit role status).alive = p.alive.erase role := by
  have hnodup : p.alive.Nodup := (by decide : ROLES.Nodup).filter _
  rw [hnodup.erase_eq_filter, alive, alive, setExit, List.filter_filter]
  refine List.filter_congr fun role' _ => ?_
  simp only [hasExited, List.any_cons, Bool.not_or]
  by_cases heq : role = role'
  · simp [heq]
  · simp [heq, Ne.symm heq]

theorem not_mem_alive_exit : role ∉ (p.setExit role status).alive := by
  simp [alive, setExit, hasExited]

theorem settle_single (hstops : p.stops = [⟨p.alive, code⟩]) :
    p.settle = if p.alive = [] then { p with exitCode := some code } else p := by
  unfold settle
  by_cases halive : p.alive = []
  · simp [hstops, halive]
  · simp [hstops, halive]

/-- A drain goes on until no child is left. -/
theorem Phase.of_stops (hexit : p.exitCode = none) (hdown : p.shuttingDown = true)
    (hstops : p.stops = [⟨p.alive, code⟩])
    (hcode : code = 0 → seen.signalled = true ∧ seen.crashedFirst = false)
    (hseen : seen.interrupted = false) : Phase p.settle seen := by
  rw [settle_single hstops]
  by_cases halive : p.alive = []
  · rw [if_pos halive]
    exact .ended code rfl halive (fun h => (hcode h).2) hseen
  · rw [if_neg halive]
    exact .draining code hexit hdown hstops halive hcode hseen

/-- The first call of `stop`. -/
theorem Phase.of_stop (hexit : p.exitCode = none) (hdown : p.shuttingDown = false)
    (hstops : p.stops = [])
    (hcode : code = 0 → seen.signalled = true ∧ seen.crashedFirst = false)
    (hseen : seen.interrupted = false) : Phase (p.stop code).settle seen := by
  have hstop : p.stop code = { p with shuttingDown := true, stops := [⟨p.alive, code⟩] } := by
    rw [stop, hdown, hstops]
    rfl
  rw [hstop]
  exact .of_stops hexit rfl rfl hcode hseen

theorem Phase.signal (phase : Phase p seen) (hexit : p.exitCode = none) :
    Phase (p.stop 0).settle
      { seen with signalled := true, interrupted := seen.interrupted || p.shuttingDown } := by
  cases phase with
  | running _ hdown hstops hseen =>
    refine .of_stop hexit hdown hstops (fun _ => ⟨rfl, ?_⟩) ?_
    · rw [hseen]
      rfl
    · rw [hseen, hdown]
      rfl
  | draining code _ hdown hstops halive =>
    -- The call returns at once, because another one is under way.
    have hstop : (p.stop 0).settle =
        { p with stops := [⟨p.alive, code⟩, ⟨[], 0⟩], exitCode := some 0 } := by
      simp [stop, settle, hdown, hstops, halive]
    rw [hstop]
    exact .abandoned rfl halive (by rw [hdown, Bool.or_true])
  | ended _ hexit' => rw [hexit] at hexit'; cases hexit'
  | abandoned hexit' => rw [hexit] at hexit'; cases hexit'

theorem Phase.exit (phase : Phase p seen) (hexit : p.exitCode = none) :
    Phase (((p.setExit role status).onExit status).once role).settle
      { seen with crashedFirst := seen.crashedFirst || !seen.signalled && !wasSignalled status } := by
  cases phase with
  | running _ hdown hstops hseen =>
    cases hsignal : wasSignalled status with
    | true =>
      -- Nothing is stopped, and the others go on.
      have hsame : (((p.setExit role status).onExit status).once role).settle =
          p.setExit role status := by
        simp [onExit, once, settle, setExit, hdown, hstops, hsignal]
      rw [hsame, hseen]
      exact .running hexit hdown hstops rfl
    | false =>
      have hcrash : ((p.setExit role status).onExit status).once role =
          { p.setExit role status with
            shuttingDown := true, stops := [⟨(p.setExit role status).alive, 1⟩] } := by
        simp [onExit, once, stop, hdown, hstops, hsignal, List.erase_of_not_mem not_mem_alive_exit]
      rw [hcrash]
      refine .of_stops hexit rfl rfl (fun hcode => absurd hcode Nat.one_ne_zero) ?_
      rw [hseen]
      rfl
  | draining code _ hdown hstops _ hcode hseen =>
    have hnext : ((p.setExit role status).onExit status).once role =
        { p.setExit role status with stops := [⟨(p.setExit role status).alive, code⟩] } := by
      simp [onExit, once, hdown, hstops, alive_exit]
    rw [hnext]
    refine .of_stops hexit hdown rfl (fun h => ⟨(hcode h).1, ?_⟩) hseen
    rw [(hcode h).1, (hcode h).2]
    rfl
  | ended _ hexit' => rw [hexit] at hexit'; cases hexit'
  | abandoned hexit' => rw [hexit] at hexit'; cases hexit'

theorem Phase.step {e : Event} (phase : Phase p seen) (h : p.step e = some q) :
    Phase q (note p e q seen) := by
  unfold Supervisor.step at h
  obtain ⟨hexit, h⟩ := Option.ite_none_left_eq_some.mp h
  have hexit : p.exitCode = none := Option.not_isSome_iff_eq_none.mp hexit
  cases e with
  | SIGTERM => cases h; exact phase.signal hexit
  | SIGINT => cases h; exact phase.signal hexit
  | exit role status =>
    obtain ⟨-, h⟩ := Option.ite_none_left_eq_some.mp h
    cases h
    exact phase.exit hexit

theorem Phase.run (h : Observed Supervisor.step always note started .nothing p seen) : Phase p seen :=
  h.invariant (P := Phase) (.running rfl rfl rfl rfl) fun _ _ _ _ phase _ => phase.step

/-! ## Outliving the children -/

/-- `process.exit` was called after every child had exited, and with 0 only if no role had exited
unexpectedly before the first signal. -/
def Outlives (p : Supervisor) (seen : Seen) : Prop :=
  ∀ code, p.exitCode = some code →
    (∀ role, p.hasExited role = true) ∧ (code = 0 → seen.crashedFirst = false)

/-- The supervisor outlives its children just when no signal arrives during a drain. -/
theorem outlives_children_iff (h : Observed step always note started .nothing p seen) :
    p.Outlives seen ↔ seen.interrupted = false := by
  cases Phase.run h with
  | running hexit _ _ hseen =>
    refine ⟨fun _ => by rw [hseen]; rfl, fun _ code hcode => ?_⟩
    rw [hexit] at hcode
    cases hcode
  | draining _ hexit _ _ _ _ hseen =>
    refine ⟨fun _ => hseen, fun _ code hcode => ?_⟩
    rw [hexit] at hcode
    cases hcode
  | ended code hexit halive hcode hseen =>
    refine ⟨fun _ => hseen, fun _ code' hcode' => ?_⟩
    rw [hexit] at hcode'
    cases hcode'
    exact ⟨alive_eq_nil.mp halive, hcode⟩
  | abandoned hexit halive hseen =>
    refine ⟨fun houtlives => absurd (alive_eq_nil.mpr (houtlives 0 hexit).1) halive, fun hno => ?_⟩
    rw [hseen] at hno
    cases hno

/-! ## Runs -/

private theorem observed_of_events {es : List Event}
    (h : execute (observe step note) always (started, .nothing) es = some (p, seen)) :
    Observed step always note started .nothing p seen :=
  (Run.of_execute h).mono fun _ _ _ => trivial

/-- One signal, after which every role exits in its own way. -/
theorem outlives_children_iff_drained :
    ∃ p seen, Observed step always note started .nothing p seen ∧ p.exitCode = some 0 ∧
      p.Outlives seen := by
  have hrun : Observed step always note started .nothing
      ⟨[(.worker, .code 0), (.scheduler, .signal .SIGTERM), (.api, .code 0)], true, [⟨[], 0⟩], some 0⟩
      ⟨true, false, false⟩ :=
    observed_of_events (by decide +kernel :
      execute (observe step note) always (started, .nothing)
        [.SIGTERM, .exit .api (.code 0), .exit .scheduler (.signal .SIGTERM),
          .exit .worker (.code 0)] = _)
  exact ⟨_, _, hrun, rfl, (outlives_children_iff hrun).mpr rfl⟩

/-- A second signal during a drain ends the supervisor while its worker runs, and a signal after a
crash ends it with 0. -/
theorem signals_end_drain :
    (∃ p seen, Observed step always note started .nothing p seen ∧ p.exitCode = some 0 ∧
      p.hasExited .worker = false ∧ ¬ p.Outlives seen) ∧
    ∃ p seen, Observed step always note started .nothing p seen ∧ p.exitCode = some 0 ∧
      seen.crashedFirst = true ∧ ¬ p.Outlives seen := by
  constructor
  · have hrun : Observed step always note started .nothing
        ⟨[], true, [⟨ROLES, 0⟩, ⟨[], 0⟩], some 0⟩ ⟨true, false, true⟩ :=
      observed_of_events (by decide +kernel :
        execute (observe step note) always (started, .nothing) [.SIGTERM, .SIGTERM] = _)
    exact ⟨_, _, hrun, rfl, rfl, fun houtlives => absurd ((houtlives 0 rfl).1 .worker) (by decide)⟩
  · have hrun : Observed step always note started .nothing
        ⟨[(.api, .code 1)], true, [⟨[.worker, .scheduler], 1⟩, ⟨[], 0⟩], some 0⟩
        ⟨true, true, true⟩ :=
      observed_of_events (by decide +kernel :
        execute (observe step note) always (started, .nothing) [.exit .api (.code 1), .SIGTERM] = _)
    exact ⟨_, _, hrun, rfl, rfl, fun houtlives => absurd ((houtlives 0 rfl).2 rfl) (by decide)⟩

end Supervisor

end QueueFlow
