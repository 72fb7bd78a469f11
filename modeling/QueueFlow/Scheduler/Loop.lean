-- SUMMARY: The scheduler process from within: its main loop with the reap gate and the sleeps, and the drain, next to the rest of the system.
import QueueFlow.Frame
import QueueFlow.Script

/-!
# The loop of the scheduler

The system lets a scheduler choose between a promotion pass and a recovery pass whenever it is idle. Here
is what the process keeps besides the commands it issues: the gate of the recovery pass, the count that
decides whether it sleeps, and the drain that a signal starts. The process takes turns with everything else
that goes on in the system. Times are those of `Date.now()`.
-/

namespace QueueFlow

open Transition

/-- Where `main` is. -/
inductive MainPc where
  /-- Before `while (!stopping)`. -/
  | top
  /-- In `promoteDue`, which has promoted so many. -/
  | promoting (promoted : Nat)
  /-- Before the comparison with `nextReapAt`. -/
  | gate (promoted : Nat)
  /-- In `recoverLostWork`. -/
  | recovering (promoted : Nat)
  /-- `ZRANGE delayed 0 0 WITHSCORES`. -/
  | look
  /-- In `sleep`. -/
  | asleep (wake : Nat)
  /-- After `loopHasExited()`. -/
  | exited
  deriving DecidableEq, Repr

/-- Where `drain` is. -/
inductive SchedulerDrain where
  | idle
  /-- It waits for the loop to exit, but not longer than to `limit`. -/
  | awaitLoop (limit : Nat)
  /-- It closes both connections; `process.exit(0)` is next. -/
  | closing (finished : Bool)
  deriving DecidableEq, Repr

structure SchedulerProcess where
  pc : MainPc
  /-- The command that it issues next, in the passes. -/
  thread : Sched
  nextReapAt : Nat
  stopping : Bool
  drain : SchedulerDrain
  /-- `process.exit`. -/
  gone : Bool
  deriving DecidableEq, Repr

inductive SchedulerAct where
  /-- Time passes, or anything else in the system takes a step. -/
  | other (a : Act)
  /-- `main` goes on; in a pass, its thread comes to the point `τ`. -/
  | next (pick : Pick) (τ : Sched)
  /-- The command that `main` awaits fails. -/
  | fail
  /-- SIGTERM or SIGINT. -/
  | signal
  /-- The drain goes on. -/
  | drain
  deriving DecidableEq

def MAX_SLEEP_MS : Nat := 1000

/-- When `sleepUntilNextDue` wakes up. -/
def wakeAt (s : State) : Nat :=
  match s.redis.delayed with
  | [] => s.dateNow + MAX_SLEEP_MS
  | (_, score) :: _ => s.dateNow + min (score - s.dateNow) MAX_SLEEP_MS

/-- `if (promoted === 0) await sleepUntilNextDue()`. -/
def afterPass (promoted : Nat) : MainPc := if promoted = 0 then .look else .top

/-- A command of `promoteDue`; each `LPUSH` counts. -/
def promoteTo (thread : Sched) (promoted : Nat) (τ : Sched) : MainPc :=
  if τ = .idle then .gate promoted
  else
    match thread with
    | .promotePush _ _ => .promoting (promoted + 1)
    | _ => .promoting promoted

/-- A command of `recoverLostWork`. -/
def recoverTo (promoted : Nat) (τ : Sched) : MainPc :=
  if τ = .idle then afterPass promoted else .recovering promoted

namespace SchedulerProcess

section

variable (cfg : Config) (REAP_INTERVAL_MS : Nat)

/-- The process that has just started. -/
def start : SchedulerProcess where
  pc := .top
  thread := .idle
  nextReapAt := 0
  stopping := false
  drain := .idle
  gone := false

@[simps pc thread nextReapAt stopping drain gone]
def goto (p : SchedulerProcess) (pc : MainPc) : SchedulerProcess := { p with pc }

@[simps pc thread nextReapAt stopping drain gone]
def goes (p : SchedulerProcess) (pc : MainPc) (thread : Sched) : SchedulerProcess := { p with pc, thread }

@[simps pc thread nextReapAt stopping drain gone]
def gated (p : SchedulerProcess) (nextReapAt : Nat) : SchedulerProcess := { p with nextReapAt }

@[simps pc thread nextReapAt stopping drain gone]
def draining (p : SchedulerProcess) (drain : SchedulerDrain) : SchedulerProcess :=
  { p with stopping := true, drain }

@[simps pc thread nextReapAt stopping drain gone]
def ended (p : SchedulerProcess) : SchedulerProcess := { p with gone := true }

/-- `process.exit`: its thread ends with it. -/
def exit (s : State) (p : SchedulerProcess) : State × SchedulerProcess := (s.endSched p.thread, p.ended)

/-- The thread issues a command and comes to the point `τ`. -/
def command (s : State) (p : SchedulerProcess) (pick : Pick) (τ : Sched) : Option State :=
  (schedule cfg s p.thread pick).filter fun t => t.scheds = Bag.swap s.scheds p.thread τ

/-- One step of `main`. -/
def runMain (s : State) (p : SchedulerProcess) (pick : Pick) (τ : Sched) : Option (State × SchedulerProcess) :=
  match p.pc with
  | .top =>
      if p.stopping then some (s, p.goto .exited)
      else (p.command cfg s .next τ).map fun t => (t, p.goes (.promoting 0) τ)
  | .promoting promoted =>
      (p.command cfg s pick τ).map fun t => (t, p.goes (promoteTo p.thread promoted τ) τ)
  | .gate promoted =>
      if p.nextReapAt ≤ s.dateNow then
        (p.command cfg s .recover τ).map fun t =>
          (t, (p.gated (s.dateNow + REAP_INTERVAL_MS)).goes (.recovering promoted) τ)
      else some (s, p.goto (afterPass promoted))
  | .recovering promoted =>
      (p.command cfg s pick τ).map fun t => (t, p.goes (recoverTo promoted τ) τ)
  | .look => some (s, p.goto (.asleep (wakeAt s)))
  | .asleep wake => if wake ≤ s.dateNow then some (s, p.goto .top) else none
  | .exited => none

/-- A command rejects: `recoverLostWork` catches that, and otherwise `main` rejects and the process exits. -/
def failMain (s : State) (p : SchedulerProcess) : Option (State × SchedulerProcess) :=
  match p.pc with
  | .top => if p.stopping then none else some (p.exit s)
  | .promoting _ | .look => some (p.exit s)
  | .gate promoted =>
      if p.nextReapAt ≤ s.dateNow then
        some (s, (p.gated (s.dateNow + REAP_INTERVAL_MS)).goto (afterPass promoted))
      else none
  | .recovering promoted =>
      (abandonPass s p.thread).map fun t => (t, p.goes (afterPass promoted) .idle)
  | .asleep _ | .exited => none

/-- The handler of `onShutdown`. -/
def onSignal (s : State) (p : SchedulerProcess) : State × SchedulerProcess :=
  match p.drain with
  | .idle => (s, p.draining (.awaitLoop (s.dateNow + 5000)))
  -- the second signal
  | _ => p.exit s

/-- The drain from one `await` to the next. -/
def runDrain (s : State) (p : SchedulerProcess) : Option (State × SchedulerProcess) :=
  match p.drain with
  | .idle => none
  | .awaitLoop limit =>
      if p.pc = .exited then some (s, p.draining (.closing true))
      else if limit ≤ s.dateNow then some (s, p.draining (.closing false))
      else none
  | .closing _ => some (p.exit s)

def step (q : State × SchedulerProcess) (turn : SchedulerAct) : Option (State × SchedulerProcess) :=
  match turn with
  | .other a => (QueueFlow.step cfg q.1 a).bind fun t =>
      if q.2.gone = true ∨ q.2.thread ∈ t.scheds then some (t, q.2) else none
  | .next pick τ => if q.2.gone then none else q.2.runMain cfg REAP_INTERVAL_MS q.1 pick τ
  | .fail => if q.2.gone then none else q.2.failMain REAP_INTERVAL_MS q.1
  | .signal => if q.2.gone then none else some (q.2.onSignal q.1)
  | .drain => if q.2.gone then none else q.2.runDrain q.1

/-! ## What a step can do -/

/-- One step of the process. -/
inductive Move (s : State) (p : SchedulerProcess) : State × SchedulerProcess → Prop where
  | other (a : Act) (t : State) (h : QueueFlow.step cfg s a = some t) (hkeep : p.gone = true ∨ p.thread ∈ t.scheds) :
      Move s p (t, p)
  | leaves (hpc : p.pc = .top) (hstop : p.stopping = true) : Move s p (s, p.goto .exited)
  | starts (τ : Sched) (t : State) (hpc : p.pc = .top) (h : p.command cfg s .next τ = some t) :
      Move s p (t, p.goes (.promoting 0) τ)
  | promotes (promoted : Nat) (pick : Pick) (τ : Sched) (t : State) (hpc : p.pc = .promoting promoted)
      (h : p.command cfg s pick τ = some t) : Move s p (t, p.goes (promoteTo p.thread promoted τ) τ)
  | recovers (promoted : Nat) (τ : Sched) (t : State) (hpc : p.pc = .gate promoted)
      (hdue : p.nextReapAt ≤ s.dateNow) (h : p.command cfg s .recover τ = some t) :
      Move s p (t, (p.gated (s.dateNow + REAP_INTERVAL_MS)).goes (.recovering promoted) τ)
  | passes (promoted : Nat) (hpc : p.pc = .gate promoted) : Move s p (s, p.goto (afterPass promoted))
  | goesOn (promoted : Nat) (pick : Pick) (τ : Sched) (t : State) (hpc : p.pc = .recovering promoted)
      (h : p.command cfg s pick τ = some t) : Move s p (t, p.goes (recoverTo promoted τ) τ)
  | looks (hpc : p.pc = .look) : Move s p (s, p.goto (.asleep (wakeAt s)))
  | wakes (wake : Nat) (hpc : p.pc = .asleep wake) (hdue : wake ≤ s.dateNow) : Move s p (s, p.goto .top)
  | exits : Move s p (p.exit s)
  | refused (promoted : Nat) (hpc : p.pc = .gate promoted) (hdue : p.nextReapAt ≤ s.dateNow) :
      Move s p (s, (p.gated (s.dateNow + REAP_INTERVAL_MS)).goto (afterPass promoted))
  | abandons (promoted : Nat) (t : State) (hpc : p.pc = .recovering promoted) (h : abandonPass s p.thread = some t) :
      Move s p (t, p.goes (afterPass promoted) .idle)
  | signalled (hidle : p.drain = .idle) : Move s p (s, p.draining (.awaitLoop (s.dateNow + 5000)))
  | closes (limit : Nat) (finished : Bool) (hdrain : p.drain = .awaitLoop limit)
      (hfinished : if finished then p.pc = .exited else limit ≤ s.dateNow) :
      Move s p (s, p.draining (.closing finished))

variable {cfg REAP_INTERVAL_MS} {s t : State} {p p' : SchedulerProcess} {q q' : State × SchedulerProcess}
  {turn : SchedulerAct}
  {τ : Sched} {pick : Pick}

private theorem runMain_cases (h : p.runMain cfg REAP_INTERVAL_MS s pick τ = some q') :
    Move cfg REAP_INTERVAL_MS s p q' := by
  unfold runMain at h
  split at h
  case h_1 hpc =>
    split at h
    · rename_i hstop
      cases h
      exact .leaves hpc hstop
    · obtain ⟨t, ht, rfl⟩ := Option.map_eq_some_iff.mp h
      exact .starts τ t hpc ht
  case h_2 promoted hpc =>
    obtain ⟨t, ht, rfl⟩ := Option.map_eq_some_iff.mp h
    exact .promotes promoted pick τ t hpc ht
  case h_3 promoted hpc =>
    split at h
    · rename_i hdue
      obtain ⟨t, ht, rfl⟩ := Option.map_eq_some_iff.mp h
      exact .recovers promoted τ t hpc hdue ht
    · cases h
      exact .passes promoted hpc
  case h_4 promoted hpc =>
    obtain ⟨t, ht, rfl⟩ := Option.map_eq_some_iff.mp h
    exact .goesOn promoted pick τ t hpc ht
  case h_5 hpc =>
    cases h
    exact .looks hpc
  case h_6 wake hpc =>
    obtain ⟨hdue, h⟩ := Option.ite_none_right_eq_some.mp h
    cases h
    exact .wakes wake hpc hdue
  case h_7 => cases h

private theorem failMain_cases (h : p.failMain REAP_INTERVAL_MS s = some q') :
    Move cfg REAP_INTERVAL_MS s p q' := by
  unfold failMain at h
  split at h
  case h_1 =>
    obtain ⟨-, h⟩ := Option.ite_none_left_eq_some.mp h
    cases h
    exact .exits
  case h_2 | h_3 =>
    cases h
    exact .exits
  case h_4 promoted hpc =>
    obtain ⟨hdue, h⟩ := Option.ite_none_right_eq_some.mp h
    cases h
    exact .refused promoted hpc hdue
  case h_5 promoted hpc =>
    obtain ⟨t, ht, rfl⟩ := Option.map_eq_some_iff.mp h
    exact .abandons promoted t hpc ht
  case h_6 | h_7 => cases h

private theorem runDrain_cases (h : p.runDrain s = some q') : Move cfg REAP_INTERVAL_MS s p q' := by
  unfold runDrain at h
  split at h
  case h_1 => cases h
  case h_2 limit hdrain =>
    split at h
    · rename_i hexited
      cases h
      exact .closes limit true hdrain hexited
    · obtain ⟨hlate, h⟩ := Option.ite_none_right_eq_some.mp h
      cases h
      exact .closes limit false hdrain hlate
  case h_3 =>
    cases h
    exact .exits

theorem step_cases (h : step cfg REAP_INTERVAL_MS q turn = some q') : Move cfg REAP_INTERVAL_MS q.1 q.2 q' := by
  cases turn with
  | other a =>
      obtain ⟨t, ht, h⟩ := Option.bind_eq_some_iff.mp h
      obtain ⟨hkeep, h⟩ := Option.ite_none_right_eq_some.mp h
      cases h
      exact .other a t ht hkeep
  | next pick τ => exact runMain_cases (Option.ite_none_left_eq_some.mp h).2
  | fail => exact failMain_cases (Option.ite_none_left_eq_some.mp h).2
  | signal =>
      obtain ⟨-, h⟩ := Option.ite_none_left_eq_some.mp h
      cases h
      unfold onSignal
      split
      case h_1 hidle => exact .signalled hidle
      case h_2 => exact .exits
  | drain => exact runDrain_cases (Option.ite_none_left_eq_some.mp h).2

theorem command_cases (h : p.command cfg s pick τ = some t) :
    schedule cfg s p.thread pick = some t ∧ t.scheds = Bag.swap s.scheds p.thread τ := by
  obtain ⟨hstep, hto⟩ := Option.filter_eq_some_iff.mp h
  exact ⟨hstep, of_decide_eq_true hto⟩

/-! ## The loop and the system -/

/-- The processes at their start, and how they go on. -/
abbrev Goes (cfg : Config) (REAP_INTERVAL_MS : Nat) (ok : State × SchedulerProcess → SchedulerAct → Prop)
    (q q' : State × SchedulerProcess) : Prop := Run (step cfg REAP_INTERVAL_MS) ok q q'

/-- Where the process is in its program, and where its thread is. -/
structure Wf (s : State) (p : SchedulerProcess) : Prop where
  here : p.gone = false → p.thread ∈ s.scheds
  /-- Between the passes nothing is in hand. -/
  between : (∀ promoted, p.pc ≠ .promoting promoted) → (∀ promoted, p.pc ≠ .recovering promoted) → p.thread = .idle
  closing : p.drain = .closing true → p.pc = .exited

namespace Wf

theorem start : Wf (s.addSched .idle) .start where
  here _ := List.mem_cons_self
  between _ _ := rfl
  closing := by rintro ⟨⟩

theorem here_of_command (h : p.command cfg s pick τ = some t) : τ ∈ t.scheds := by
  rw [(command_cases h).2]
  exact Bag.mem_swap_self

theorem move (wf : Wf s p) (h : Move cfg REAP_INTERVAL_MS s p q) : Wf q.1 q.2 := by
  have hclosing {pc : MainPc} (hpc : p.pc = pc) (hne : pc ≠ .exited) : p.drain ≠ .closing true := by
    intro hdrain
    exact hne (hpc.symm.trans (wf.closing hdrain))
  cases h with
  | other a t h hkeep =>
      refine ⟨fun hgone => ?_, wf.between, wf.closing⟩
      rw [hgone] at hkeep
      exact hkeep.resolve_left (by rintro ⟨⟩)
  | leaves hpc hstop =>
      refine ⟨wf.here, fun _ _ => wf.between ?_ ?_, fun _ => rfl⟩ <;> rw [hpc] <;> rintro _ ⟨⟩
  | starts τ t hpc h => exact ⟨fun _ => here_of_command h, fun hnot => absurd rfl (hnot 0), fun hdrain =>
      absurd hdrain (hclosing hpc (by rintro ⟨⟩))⟩
  | promotes promoted pick τ t hpc h =>
      refine ⟨fun _ => here_of_command h, fun hnot _ => ?_, fun hdrain =>
        absurd hdrain (hclosing hpc (by rintro ⟨⟩))⟩
      by_contra hne
      have hne : τ ≠ .idle := hne
      simp only [goes_pc, promoteTo, if_neg hne] at hnot
      split at hnot
      · exact hnot _ rfl
      · exact hnot _ rfl
  | recovers promoted τ t hpc hdue h =>
      exact ⟨fun _ => here_of_command h, fun _ hnot => absurd rfl (hnot promoted), fun hdrain =>
        absurd hdrain (hclosing hpc (by rintro ⟨⟩))⟩
  | passes promoted hpc =>
      refine ⟨wf.here, fun _ _ => wf.between ?_ ?_, fun hdrain =>
        absurd hdrain (hclosing hpc (by rintro ⟨⟩))⟩ <;> rw [hpc] <;> rintro _ ⟨⟩
  | goesOn promoted pick τ t hpc h =>
      refine ⟨fun _ => here_of_command h, fun _ hnot => ?_, fun hdrain =>
        absurd hdrain (hclosing hpc (by rintro ⟨⟩))⟩
      by_contra hne
      have hne : τ ≠ .idle := hne
      simp only [goes_pc, recoverTo, if_neg hne] at hnot
      exact hnot _ rfl
  | looks hpc =>
      refine ⟨wf.here, fun _ _ => wf.between ?_ ?_, fun hdrain =>
        absurd hdrain (hclosing hpc (by rintro ⟨⟩))⟩ <;> rw [hpc] <;> rintro _ ⟨⟩
  | wakes wake hpc =>
      refine ⟨wf.here, fun _ _ => wf.between ?_ ?_, fun hdrain =>
        absurd hdrain (hclosing hpc (by rintro ⟨⟩))⟩ <;> rw [hpc] <;> rintro _ ⟨⟩
  | exits => exact ⟨by rintro ⟨⟩, wf.between, wf.closing⟩
  | refused promoted hpc hdue =>
      refine ⟨wf.here, fun _ _ => wf.between ?_ ?_, fun hdrain =>
        absurd hdrain (hclosing hpc (by rintro ⟨⟩))⟩ <;> rw [hpc] <;> rintro _ ⟨⟩
  | abandons promoted t hpc h =>
      refine ⟨fun _ => ?_, fun _ _ => rfl, fun hdrain => absurd hdrain (hclosing hpc (by rintro ⟨⟩))⟩
      obtain ⟨-, h⟩ := Option.ite_none_right_eq_some.mp h
      cases h
      exact Bag.mem_swap_self
  | signalled => exact ⟨wf.here, wf.between, by rintro ⟨⟩⟩
  | closes limit finished hdrain hfinished =>
      refine ⟨wf.here, wf.between, fun hclosed => ?_⟩
      cases hclosed
      exact hfinished

end Wf

/-- A process that is gone takes no step. -/
theorem other_of_gone (hgone : q.2.gone = true) (h : step cfg REAP_INTERVAL_MS q turn = some q') :
    ∃ a, turn = .other a := by
  cases turn with
  | other a => exact ⟨a, rfl⟩
  | next | fail | signal | drain => exact absurd hgone (Option.ite_none_left_eq_some.mp h).1

private theorem exists_act_of_command (hin : p.thread ∈ s.scheds) (h : p.command cfg s pick τ = some t) :
    ∃ a, QueueFlow.step cfg s a = some t :=
  ⟨.sched p.thread pick, (if_pos hin).trans (command_cases h).1⟩

/-- What the process does is a step of the system, or nothing that the rest of it can see. -/
theorem exists_act (wf : Wf q.1 q.2) (h : step cfg REAP_INTERVAL_MS q turn = some q') :
    q'.1 = q.1 ∨ ∃ a, QueueFlow.step cfg q.1 a = some q'.1 := by
  cases hgone : q.2.gone with
  | true =>
      obtain ⟨a, rfl⟩ := other_of_gone hgone h
      obtain ⟨t, ht, h⟩ := Option.bind_eq_some_iff.mp h
      obtain ⟨-, h⟩ := Option.ite_none_right_eq_some.mp h
      cases h
      exact .inr ⟨a, ht⟩
  | false =>
      have hin := wf.here hgone
      cases step_cases h with
      | other a t h' => exact .inr ⟨a, h'⟩
      | starts τ t hpc h' | promotes promoted pick τ t hpc h' | recovers promoted τ t hpc hdue h'
      | goesOn promoted pick τ t hpc h' => exact .inr (exists_act_of_command hin h')
      | abandons promoted t hpc h' => exact .inr ⟨.schedFail q.2.thread, (if_pos hin).trans h'⟩
      | exits => exact .inr ⟨.schedKill q.2.thread, if_pos hin⟩
      | leaves | passes | looks | wakes | refused | signalled | closes => exact .inl rfl

theorem dateNow_le (wf : Wf q.1 q.2) (h : step cfg REAP_INTERVAL_MS q turn = some q') :
    q.1.dateNow ≤ q'.1.dateNow := by
  rcases exists_act wf h with heq | ⟨a, h⟩
  · rw [heq]
  · exact dateNow_le_of_step h

/-! ## The drain -/

/-- There is no second signal, and no command fails. -/
def Orderly (q : State × SchedulerProcess) : SchedulerAct → Prop
  | .signal => q.2.drain = .idle
  | .fail => False
  | _ => True

instance (q : State × SchedulerProcess) (turn : SchedulerAct) : Decidable (Orderly q turn) := by
  induction turn using SchedulerAct.casesOn with
  | signal => exact inferInstanceAs (Decidable (_ = _))
  | fail => exact .isFalse not_false
  | _ => exact .isTrue trivial

/-- The process has been told to stop at the time `d`. -/
structure Stopping (d : Nat) (s : State) (p : SchedulerProcess) : Prop where
  wf : Wf s p
  drain : p.drain = .awaitLoop (d + 5000) ∨ p.drain = .closing true ∨
    p.drain = .closing false ∧ d + 5000 ≤ s.dateNow

namespace Stopping

theorem step {d : Nat} (stopping : Stopping d q.1 q.2)
    (h : SchedulerProcess.step cfg REAP_INTERVAL_MS q turn = some q') :
    Stopping d q'.1 q'.2 := by
  have hclock := dateNow_le stopping.wf h
  have hmove := step_cases h
  refine ⟨stopping.wf.move hmove, ?_⟩
  have hkeep (hdrain : q'.2.drain = q.2.drain) : q'.2.drain = .awaitLoop (d + 5000) ∨
      q'.2.drain = .closing true ∨ q'.2.drain = .closing false ∧ d + 5000 ≤ q'.1.dateNow := by
    rw [hdrain]
    exact stopping.drain.imp_right fun h => h.imp_right fun h => ⟨h.1, h.2.trans hclock⟩
  cases hmove with
  | signalled hidle =>
      have hdrain := stopping.drain
      rw [hidle] at hdrain
      rcases hdrain with hdrain | hdrain | ⟨hdrain, -⟩ <;> cases hdrain
  | closes limit finished hdrain hfinished =>
      cases finished with
      | true => exact .inr (.inl rfl)
      | false =>
          have hlimit := stopping.drain
          rw [hdrain] at hlimit
          rcases hlimit with hlimit | hlimit | ⟨hlimit, -⟩ <;> cases hlimit
          exact .inr (.inr ⟨rfl, hfinished⟩)
  | other | leaves | starts | promotes | recovers | passes | goesOn | looks | wakes | exits | refused | abandons =>
      exact hkeep rfl

end Stopping

private theorem gone_of_runMain (h : p.runMain cfg REAP_INTERVAL_MS s pick τ = some q) : q.2.gone = p.gone := by
  unfold runMain at h
  split at h
  case h_7 => cases h
  all_goals
    try split at h
    all_goals first
      | cases h; rfl
      | (obtain ⟨t, -, rfl⟩ := Option.map_eq_some_iff.mp h; rfl)
      | cases h

/-- After a signal, when no second one comes and no command fails: the process exits between two passes, with
nothing in hand, unless five seconds have gone by. -/
theorem drained_between_passes {s₀ s₁ s₂ s₃ s₄ : State} {p₁ p₂ p₃ p₄ : SchedulerProcess}
    (h₁ : Goes cfg REAP_INTERVAL_MS always (s₀.addSched .idle, start) (s₁, p₁)) (hidle : p₁.drain = .idle)
    (hsignal : step cfg REAP_INTERVAL_MS (s₁, p₁) .signal = some (s₂, p₂))
    (h₂ : Goes cfg REAP_INTERVAL_MS Orderly (s₂, p₂) (s₃, p₃)) (hthere : p₃.gone = false)
    (hturn : Orderly (s₃, p₃) turn) (hlast : step cfg REAP_INTERVAL_MS (s₃, p₃) turn = some (s₄, p₄))
    (hexit : p₄.gone = true) :
    (p₃.pc = .exited ∧ p₃.thread = .idle ∧ s₄ = s₃.endSched .idle) ∨ s₁.dateNow + 5000 ≤ s₃.dateNow := by
  have wf₁ : Wf s₁ p₁ := h₁.invariant (P := fun q => Wf q.1 q.2) .start
    fun _ _ _ wf _ h => wf.move (step_cases h)
  have hstopping₂ : Stopping s₁.dateNow s₂ p₂ := by
    obtain ⟨-, hsignal⟩ := Option.ite_none_left_eq_some.mp hsignal
    simp only [onSignal, hidle] at hsignal
    cases hsignal
    exact ⟨⟨wf₁.here, wf₁.between, by rintro ⟨⟩⟩, .inl rfl⟩
  have stopping : Stopping s₁.dateNow s₃ p₃ := h₂.invariant (P := fun q => Stopping s₁.dateNow q.1 q.2) hstopping₂
    fun _ _ _ stopping _ h => stopping.step h
  have hstays {p : SchedulerProcess} (hp : p.gone = p₃.gone) : p.gone ≠ true := by
    rw [hp, hthere]
    rintro ⟨⟩
  cases turn with
  | other a =>
      obtain ⟨t, -, h⟩ := Option.bind_eq_some_iff.mp hlast
      obtain ⟨-, h⟩ := Option.ite_none_right_eq_some.mp h
      cases h
      exact absurd hexit (hstays rfl)
  | next pick τ => exact absurd hexit (hstays (gone_of_runMain (Option.ite_none_left_eq_some.mp hlast).2))
  | fail => cases hturn
  | signal =>
      have hdrain := stopping.drain
      rw [show p₃.drain = .idle from hturn] at hdrain
      rcases hdrain with hdrain | hdrain | ⟨hdrain, -⟩ <;> cases hdrain
  | drain =>
      obtain ⟨-, h⟩ := Option.ite_none_left_eq_some.mp hlast
      unfold runDrain at h
      rcases stopping.drain with hdrain | hdrain | ⟨hdrain, hlate⟩
      · rw [show (s₃, p₃).2.drain = _ from hdrain] at h
        simp only at h
        split at h
        · cases h
          exact absurd hexit (hstays rfl)
        · obtain ⟨-, h⟩ := Option.ite_none_right_eq_some.mp h
          cases h
          exact absurd hexit (hstays rfl)
      · rw [show (s₃, p₃).2.drain = _ from hdrain] at h
        cases h
        have hexited := stopping.wf.closing hdrain
        have hbetween := stopping.wf.between (by rw [hexited]; rintro _ ⟨⟩) (by rw [hexited]; rintro _ ⟨⟩)
        exact .inl ⟨hexited, hbetween, by rw [hbetween]⟩
      · exact .inr hlate

/-! ## The delayed set is in order -/

/-- A step leaves the delayed set alone, or it is `ZREM` or `ZADD`. -/
theorem delayed_cases {s' : State} {a : Act} (h : QueueFlow.step cfg s a = some s') :
    s'.redis.delayed = s.redis.delayed ∨ (∃ id, s'.redis.delayed = (s.redis.zrem id).delayed) ∨
      ∃ score id, s'.redis.delayed = (s.redis.zadd score id).delayed := by
  cases a with
  | tick | request | startSched => cases h; exact .inl rfl
  | api =>
      obtain ⟨-, h⟩ := Option.ite_none_right_eq_some.mp h
      cases handle_cases h <;> exact .inl rfl
  | apiCrash | schedKill =>
      obtain ⟨-, h⟩ := Option.ite_none_right_eq_some.mp h
      cases h
      exact .inl rfl
  | spawn =>
      obtain ⟨-, -, rfl⟩ := spawn_cases h
      exact .inl rfl
  | recoverOwn => cases recoverOwnProcessing_cases h <;> exact .inl rfl
  | beat =>
      obtain ⟨-, rfl⟩ := beat_cases h
      exact .inl rfl
  | expire =>
      cases expire_cases h
      exact .inl rfl
  | take =>
      obtain ⟨c, rest, id, -, -, rfl⟩ := take_cases h
      exact .inl rfl
  | exec e =>
      obtain ⟨-, h⟩ := Option.ite_none_right_eq_some.mp h
      cases processOne_cases h with
      | zadded hold runAt => exact .inr (.inr ⟨runAt, uuidOut hold.job, rfl⟩)
      | letGo | rejected | found | missing | notClaimable | claimed | work | lock | unowned
      | insert | settled | fenced | buried | parked => exact .inl rfl
  | execFail e =>
      obtain ⟨-, h⟩ := Option.ite_none_right_eq_some.mp h
      cases fails_cases h with
      | zadded hold runAt => exact .inr (.inr ⟨runAt, uuidOut hold.job, rfl⟩)
      | lost | released | claimed | caught | settled | buried | parked => exact .inl rfl
  | kill =>
      cases kill_cases h
      exact .inl rfl
  | sched =>
      obtain ⟨-, h⟩ := Option.ite_none_right_eq_some.mp h
      cases schedule_cases h with
      | removed id => exact .inr (.inl ⟨id, rfl⟩)
      | quiet | promoted | crashed | pushed | check | peek | junk | select | dropped | buried
      | requeued | moved | emptied | swept => exact .inl rfl
  | schedFail =>
      obtain ⟨-, h⟩ := Option.ite_none_right_eq_some.mp h
      cases abandonPass_cases h with
      | removed id => exact .inr (.inl ⟨id, rfl⟩)
      | quiet | promoted | crashed | pushed | check | peek | junk | select | dropped | buried
      | requeued | moved | emptied | swept => exact .inl rfl

private theorem zle_total (a b : Text × Nat) : Redis.zle a b ∨ Redis.zle b a := by
  unfold Redis.zle
  rcases lt_trichotomy a.2 b.2 with h | h | h
  · exact .inl (.inl h)
  · exact (le_total a.1 b.1).imp (fun hle => .inr ⟨h, hle⟩) fun hle => .inr ⟨h.symm, hle⟩
  · exact .inr (.inl h)

private theorem zle_trans {a b c : Text × Nat} (h : Redis.zle a b) (h' : Redis.zle b c) : Redis.zle a c := by
  unfold Redis.zle at *
  rcases h with h | ⟨h, hle⟩ <;> rcases h' with h' | ⟨h', hle'⟩
  · exact .inl (h.trans h')
  · exact .inl (h' ▸ h)
  · exact .inl (h ▸ h')
  · exact .inr ⟨h.trans h', hle.trans hle'⟩

/-- The earliest score comes first. -/
theorem delayed_sorted {ok : State → Act → Prop} (hrun : Run (QueueFlow.step cfg) ok s t)
    (h : s.redis.delayed.Pairwise Redis.zle) : t.redis.delayed.Pairwise Redis.zle := by
  have htotal : Std.Total Redis.zle := ⟨zle_total⟩
  have htrans : IsTrans _ Redis.zle := ⟨fun _ _ _ => zle_trans⟩
  refine hrun.invariant (P := fun s => s.redis.delayed.Pairwise Redis.zle) h fun u a v hsorted _ hstep => ?_
  rcases delayed_cases hstep with heq | ⟨id, heq⟩ | ⟨score, id, heq⟩ <;> rw [heq]
  · exact hsorted
  · exact hsorted.filter _
  · exact (hsorted.filter _).orderedInsert _ _

/-! ## The passes and the sleeps -/

/-- What an observer of the process writes down: when its recovery passes began, and what was in the delayed
set when it last looked there for the earliest score. -/
structure Diary where
  passes : List Nat
  seen : List (Text × Nat)

def Diary.note (q : State × SchedulerProcess) (turn : SchedulerAct) (_ : State × SchedulerProcess)
    (d : Diary) : Diary :=
  match turn, q.2.pc with
  | .next _ _, .gate _ | .fail, .gate _ =>
      if q.2.nextReapAt ≤ q.1.dateNow then { d with passes := q.1.dateNow :: d.passes } else d
  | .next _ _, .look => { d with seen := q.1.redis.delayed }
  | _, _ => d

private theorem afterPass_ne (promoted wake : Nat) : afterPass promoted ≠ .asleep wake := by
  unfold afterPass
  split <;> rintro ⟨⟩

/-- A step is of no interest to the observer, or a recovery pass begins, or the process goes to sleep. -/
inductive Noted (REAP_INTERVAL_MS : Nat) (q q' : State × SchedulerProcess) (d : Diary) : Diary → Prop where
  | nothing (hgate : q'.2.nextReapAt = q.2.nextReapAt) (hpc : ∀ wake, q'.2.pc = .asleep wake → q.2.pc = .asleep wake) :
      Noted REAP_INTERVAL_MS q q' d d
  | began (hdue : q.2.nextReapAt ≤ q.1.dateNow) (hgate : q'.2.nextReapAt = q.1.dateNow + REAP_INTERVAL_MS)
      (hpc : ∀ wake, q'.2.pc ≠ .asleep wake) :
      Noted REAP_INTERVAL_MS q q' d { d with passes := q.1.dateNow :: d.passes }
  | slept (hgate : q'.2.nextReapAt = q.2.nextReapAt) (hpc : q'.2.pc = .asleep (wakeAt q.1)) (hstate : q'.1 = q.1) :
      Noted REAP_INTERVAL_MS q q' d { d with seen := q.1.redis.delayed }

private theorem noted_of_runMain {d : Diary} (h : p.runMain cfg REAP_INTERVAL_MS s pick τ = some q') :
    Noted REAP_INTERVAL_MS (s, p) q' d (d.note (s, p) (.next pick τ) q') := by
  unfold runMain at h
  unfold Diary.note
  split at h
  case h_1 hpc =>
    simp only [hpc]
    split at h
    · cases h
      exact .nothing rfl (by rintro _ ⟨⟩)
    · obtain ⟨t, -, rfl⟩ := Option.map_eq_some_iff.mp h
      exact .nothing rfl (by rintro _ ⟨⟩)
  case h_2 promoted hpc =>
    simp only [hpc]
    obtain ⟨t, -, rfl⟩ := Option.map_eq_some_iff.mp h
    refine .nothing rfl fun wake hwake => ?_
    simp only [goes_pc, promoteTo] at hwake
    split at hwake
    · cases hwake
    · split at hwake <;> cases hwake
  case h_3 promoted hpc =>
    simp only [hpc]
    split at h
    · rename_i hdue
      obtain ⟨t, -, rfl⟩ := Option.map_eq_some_iff.mp h
      rw [if_pos hdue]
      exact .began hdue rfl (by rintro _ ⟨⟩)
    · rename_i hnot
      cases h
      rw [if_neg hnot]
      exact .nothing rfl fun wake hwake => absurd hwake (afterPass_ne promoted wake)
  case h_4 promoted hpc =>
    simp only [hpc]
    obtain ⟨t, -, rfl⟩ := Option.map_eq_some_iff.mp h
    refine .nothing rfl fun wake hwake => ?_
    simp only [goes_pc, recoverTo] at hwake
    split at hwake
    · exact absurd hwake (afterPass_ne promoted wake)
    · cases hwake
  case h_5 hpc =>
    simp only [hpc]
    cases h
    exact .slept rfl rfl rfl
  case h_6 wake hpc =>
    simp only [hpc]
    obtain ⟨-, h⟩ := Option.ite_none_right_eq_some.mp h
    cases h
    exact .nothing rfl (by rintro _ ⟨⟩)
  case h_7 => cases h

private theorem noted_of_failMain {d : Diary} (h : p.failMain REAP_INTERVAL_MS s = some q') :
    Noted REAP_INTERVAL_MS (s, p) q' d (d.note (s, p) .fail q') := by
  unfold failMain at h
  unfold Diary.note
  split at h
  case h_1 hpc =>
    simp only [hpc]
    obtain ⟨-, h⟩ := Option.ite_none_left_eq_some.mp h
    cases h
    exact .nothing rfl (by rintro _ hwake; exact hwake)
  case h_2 hpc | h_3 hpc =>
    simp only [hpc]
    cases h
    exact .nothing rfl (by rintro _ hwake; exact hwake)
  case h_4 promoted hpc =>
    simp only [hpc]
    obtain ⟨hdue, h⟩ := Option.ite_none_right_eq_some.mp h
    cases h
    rw [if_pos hdue]
    exact .began hdue rfl fun wake => afterPass_ne promoted wake
  case h_5 promoted hpc =>
    simp only [hpc]
    obtain ⟨t, -, rfl⟩ := Option.map_eq_some_iff.mp h
    exact .nothing rfl fun wake hwake => absurd hwake (afterPass_ne promoted wake)
  case h_6 | h_7 => cases h

theorem noted_of_step {d : Diary} (h : step cfg REAP_INTERVAL_MS q turn = some q') :
    Noted REAP_INTERVAL_MS q q' d (d.note q turn q') := by
  cases turn with
  | other a =>
      obtain ⟨t, -, h⟩ := Option.bind_eq_some_iff.mp h
      obtain ⟨-, h⟩ := Option.ite_none_right_eq_some.mp h
      cases h
      exact .nothing rfl fun _ => id
  | next pick τ => exact noted_of_runMain (Option.ite_none_left_eq_some.mp h).2
  | fail => exact noted_of_failMain (Option.ite_none_left_eq_some.mp h).2
  | signal =>
      obtain ⟨-, h⟩ := Option.ite_none_left_eq_some.mp h
      cases h
      unfold onSignal
      split <;> exact .nothing rfl fun _ => id
  | drain =>
      obtain ⟨-, h⟩ := Option.ite_none_left_eq_some.mp h
      unfold runDrain at h
      split at h
      case h_1 => cases h
      case h_2 =>
        split at h
        · cases h
          exact .nothing rfl fun _ => id
        · obtain ⟨-, h⟩ := Option.ite_none_right_eq_some.mp h
          cases h
          exact .nothing rfl fun _ => id
      case h_3 =>
        cases h
        exact .nothing rfl fun _ => id

/-- What the diary says about the gate and about the sleep. -/
structure PacedWf (REAP_INTERVAL_MS : Nat) (q : State × SchedulerProcess) (d : Diary) : Prop where
  wf : Wf q.1 q.2
  sorted : q.1.redis.delayed.Pairwise Redis.zle
  spaced : d.passes.Pairwise fun later earlier => earlier + REAP_INTERVAL_MS ≤ later
  gate : ∀ began ∈ d.passes, began + REAP_INTERVAL_MS ≤ q.2.nextReapAt
  short : ∀ wake, q.2.pc = .asleep wake → wake ≤ q.1.dateNow + MAX_SLEEP_MS
  /-- It wakes up no later than any job that it has seen is due, unless that one was due already. -/
  early : ∀ wake, q.2.pc = .asleep wake → ∀ m ∈ d.seen, wake ≤ m.2 ∨ wake ≤ q.1.dateNow

private theorem wakeAt_le (s : State) : wakeAt s ≤ s.dateNow + MAX_SLEEP_MS := by
  unfold wakeAt
  split
  · exact Nat.le_refl _
  · exact Nat.add_le_add_left (Nat.min_le_right ..) _

private theorem wakeAt_early (hsorted : s.redis.delayed.Pairwise Redis.zle) {m : Text × Nat}
    (hm : m ∈ s.redis.delayed) : wakeAt s ≤ m.2 ∨ wakeAt s ≤ s.dateNow := by
  unfold wakeAt
  cases hdelayed : s.redis.delayed with
  | nil =>
      rw [hdelayed] at hm
      cases hm
  | cons first rest =>
      rw [hdelayed] at hm hsorted
      have hfirst : first.2 ≤ m.2 := by
        rcases List.mem_cons.mp hm with rfl | hm
        · exact Nat.le_refl _
        · rcases (List.pairwise_cons.mp hsorted).1 m hm with hlt | ⟨heq, -⟩
          · exact hlt.le
          · exact heq.le
      have hmin : min (first.2 - s.dateNow) MAX_SLEEP_MS ≤ first.2 - s.dateNow := Nat.min_le_left ..
      show s.dateNow + min (first.2 - s.dateNow) MAX_SLEEP_MS ≤ m.2 ∨
        s.dateNow + min (first.2 - s.dateNow) MAX_SLEEP_MS ≤ s.dateNow
      omega

theorem PacedWf.step {d : Diary} (paced : PacedWf REAP_INTERVAL_MS q d)
    (h : SchedulerProcess.step cfg REAP_INTERVAL_MS q turn = some q') :
    PacedWf REAP_INTERVAL_MS q' (d.note q turn q') := by
  have hclock := dateNow_le paced.wf h
  have wf := paced.wf.move (step_cases h)
  have hsorted : q'.1.redis.delayed.Pairwise Redis.zle := by
    rcases exists_act paced.wf h with heq | ⟨a, ha⟩
    · rw [heq]
      exact paced.sorted
    · have hrun : Run (QueueFlow.step cfg) always q.1 q'.1 := .single trivial ha
      exact delayed_sorted hrun paced.sorted
  have hnoted := noted_of_step (d := d) h
  generalize d.note q turn q' = d' at hnoted ⊢
  cases hnoted with
  | nothing hgate hpc =>
      refine ⟨wf, hsorted, paced.spaced, fun began hbegan => ?_, fun wake hwake => ?_, fun wake hwake m hm => ?_⟩
      · rw [hgate]
        exact paced.gate began hbegan
      · exact (paced.short wake (hpc wake hwake)).trans (Nat.add_le_add_right hclock _)
      · exact (paced.early wake (hpc wake hwake) m hm).imp_right fun hle => hle.trans hclock
  | began hdue hgate hpc =>
      refine ⟨wf, hsorted, List.pairwise_cons.mpr ⟨fun began hbegan => (paced.gate began hbegan).trans hdue,
        paced.spaced⟩, fun began hbegan => ?_, fun wake hwake => absurd hwake (hpc wake),
        fun wake hwake => absurd hwake (hpc wake)⟩
      rw [hgate]
      rcases List.mem_cons.mp hbegan with rfl | hbegan
      · exact Nat.le_refl _
      · exact (paced.gate began hbegan).trans (hdue.trans (Nat.le_add_right ..))
  | slept hgate hpc hstate =>
      refine ⟨wf, hsorted, paced.spaced, fun began hbegan => ?_, fun wake hwake => ?_, fun wake hwake m hm => ?_⟩
      · rw [hgate]
        exact paced.gate began hbegan
      · rw [hpc] at hwake
        cases hwake
        rw [hstate]
        exact wakeAt_le q.1
      · rw [hpc] at hwake
        cases hwake
        rw [hstate]
        exact wakeAt_early paced.sorted hm

/-- Whatever else goes on in the system: the recovery passes of a scheduler begin at least the interval apart,
and while it sleeps, for a second at most, nothing is due that was in the delayed set when it looked. -/
theorem passes_spaced_and_nothing_overslept {s₀ : State} {d : Diary} {ok₀ : State → Act → Prop}
    {ok : State × SchedulerProcess → SchedulerAct → Prop} (hstart : Reaches cfg ok₀ s₀)
    (hrun : Observed (step cfg REAP_INTERVAL_MS) ok Diary.note (s₀.addSched .idle, start) ⟨[], []⟩ (s, p) d) :
    (d.passes.Pairwise fun later earlier => earlier + REAP_INTERVAL_MS ≤ later) ∧
      ∀ wake, p.pc = .asleep wake → wake ≤ s.dateNow + MAX_SLEEP_MS ∧
        (s.dateNow < wake → ∀ m ∈ d.seen, s.dateNow < m.2) := by
  have hsorted : s₀.redis.delayed.Pairwise Redis.zle := delayed_sorted hstart .nil
  have paced : PacedWf REAP_INTERVAL_MS (s, p) d := hrun.invariant (P := fun q d => PacedWf REAP_INTERVAL_MS q d)
    ⟨.start, hsorted, .nil, by rintro _ ⟨⟩, by rintro _ ⟨⟩, by rintro _ ⟨⟩⟩ fun _ _ _ _ paced _ h => paced.step h
  refine ⟨paced.spaced, fun wake hwake => ⟨paced.short wake hwake, fun hasleep m hm => ?_⟩⟩
  rcases paced.early wake hwake m hm with hle | hle
  · exact hasleep.trans_le hle
  · exact absurd hasleep (Nat.not_lt.mpr hle)

end

/-! ## Concrete runs -/

/-- A cue for the rest of the system, or a turn of the process. -/
private def resolveTurns (q : State × SchedulerProcess) (c : Cue ⊕ SchedulerAct) : Option SchedulerAct :=
  c.elim (fun cue => (resolve q.1 cue).map .other) some

private def turns (l : List Sched) : List (Cue ⊕ SchedulerAct) := l.map fun τ => .inr (.next .next τ)

open Script in
/-- The signal comes between the `ZREM` of a retry and its `LPUSH`. -/
theorem drained_between_passes_promoting : ∃ s₁ p₁ s₂ p₂ s₃ p₃ s₄ p₄,
    Goes defaults 5000 always (State.init.addSched .idle, start) (s₁, p₁) ∧
      p₁.thread = .promoteUpdate (uuidOut (job 1)) [] ∧
        step defaults 5000 (s₁, p₁) .signal = some (s₂, p₂) ∧
          Goes defaults 5000 Orderly (s₂, p₂) (s₃, p₃) ∧ step defaults 5000 (s₃, p₃) .drain = some (s₄, p₄) ∧
            ((p₃.pc = .exited ∧ p₃.thread = .idle ∧ s₄ = s₃.endSched .idle) ∨ s₁.dateNow + 5000 ≤ s₃.dateNow) := by
  have hplay : ∃ q q₁ u : State × SchedulerProcess,
      Run (step defaults 5000) Orderly (State.init.addSched .idle, start) q ∧ Orderly q .signal ∧
        step defaults 5000 q .signal = some q₁ ∧ Run (step defaults 5000) Orderly q₁ u ∧
          (q.2.thread = .promoteUpdate (uuidOut (job 1)) [] ∧ u.2.gone = false ∧
            (step defaults 5000 u .drain).any (fun v => v.2.gone) = true) :=
    exists_step_of_perform (f := resolveTurns)
      ((Script.start ['a'] ++ submit (job 1) ++ throws ['a'] 3 ++ [Cue.act (.tick 60000000)]).map .inl ++
        turns [.promoting [uuidOut (job 1)], .promoteUpdate (uuidOut (job 1)) []])
      (turns [.promotePush (uuidOut (job 1)) [], .promoting [], .idle] ++
        [.inr (.next .recover (.reapScan [] []))] ++
          turns [.reapCheck [], .sweepSelect, .idle, .idle] ++ [.inr .drain])
      (by decide +kernel)
  obtain ⟨⟨s₁, p₁⟩, ⟨s₂, p₂⟩, ⟨s₃, p₃⟩, h₁, hidle, hsignal, h₂, hthread, hthere, hany⟩ := hplay
  obtain ⟨⟨s₄, p₄⟩, hlast, hexit⟩ := (Option.any_eq_true _ _).mp hany
  have h₁ := h₁.mono fun _ _ _ => trivial
  have hok : Orderly (s₃, p₃) .drain := trivial
  exact ⟨s₁, p₁, s₂, p₂, s₃, p₃, s₄, p₄, h₁, hthread, hsignal, h₂, hlast,
    drained_between_passes h₁ hidle hsignal h₂ hthere hok hlast hexit⟩

/-- A scheduler with nothing to do begins two passes and is asleep after the second. -/
theorem passes_spaced_and_nothing_overslept_idle : ∃ s p d,
    Observed (step Script.defaults 5000) always Diary.note (State.init.addSched .idle, start) ⟨[], []⟩ (s, p) d ∧
      d.passes.length = 2 ∧ (d.passes.Pairwise fun later earlier => earlier + 5000 ≤ later) ∧
        ∀ wake, p.pc = .asleep wake → wake ≤ s.dateNow + MAX_SLEEP_MS ∧
          (s.dateNow < wake → ∀ m ∈ d.seen, s.dateNow < m.2) := by
  have hplay : ∃ q : (State × SchedulerProcess) × Diary,
      Run (observe (step Script.defaults 5000) Diary.note) (fun q a => always q.1 a)
        ((State.init.addSched .idle, start), ⟨[], []⟩) q ∧ q.2.passes.length = 2 :=
    exists_run_of_perform (f := fun q c => resolveTurns q.1 c)
      (turns [.promoting [], .idle, .reapScan [] [], .reapCheck [], .sweepSelect, .idle, .idle] ++
        [.inl (.act (.tick 5000000))] ++
          turns [.idle, .promoting [], .idle, .reapScan [] [], .reapCheck [], .sweepSelect, .idle, .idle])
      (by decide +kernel)
  obtain ⟨⟨⟨s, p⟩, d⟩, hrun, hpasses⟩ := hplay
  exact ⟨s, p, d, hrun, hpasses,
    passes_spaced_and_nothing_overslept (.refl : Reaches Script.defaults always State.init) hrun⟩

end SchedulerProcess

end QueueFlow
