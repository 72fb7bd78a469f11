-- SUMMARY: Runs written as scripts: which thread moves next, resolved to actions and executed under a condition.
import QueueFlow.System

/-!
# Scripts

A concrete run is written as a list of cues. A cue names the thread that moves by
its worker or by its position; `resolve` looks the thread up and yields the action,
so that a script does not spell out the local states it passes through.
-/

namespace QueueFlow

open Transition

inductive Cue where
  /-- An action that names no thread. -/
  | act (a : Act)
  /-- The most recently moved execution of a worker issues its next command. -/
  | work (w : WorkerId) (o : Outcome)
  /-- The first scheduler moves. -/
  | sched (pick : Pick)
  /-- The scheduler that moved least recently moves. -/
  | otherSched (pick : Pick)
  /-- The most recently moved API request moves. -/
  | api (generated : Uuid)
  /-- The first scheduler is killed. -/
  | killSched

/-- The action that a cue stands for. -/
def resolve (s : State) : Cue → Option Act
  | .act a => some a
  | .work w o => (s.execs.find? fun e => e.worker = w).map fun e => .exec e o
  | .sched pick => s.scheds.head?.map fun σ => .sched σ pick
  | .otherSched pick => s.scheds.getLast?.map fun σ => .sched σ pick
  | .api generated => s.apis.head?.map fun a => .api a generated
  | .killSched => s.scheds.head?.map .schedKill

/-- Play a script, refusing a step that does not meet `ok`. -/
def play (cfg : Config) (ok : State → Act → Prop) [∀ s a, Decidable (ok s a)] :
    State → List Cue → Option State
  | s, [] => some s
  | s, cue :: cues =>
      match resolve s cue with
      | none => none
      | some a => if ok s a then (step cfg s a).bind fun t => play cfg ok t cues else none

variable {cfg : Config} {ok : State → Act → Prop} [∀ s a, Decidable (ok s a)] {s t : State}

theorem run_of_play {cues : List Cue} (h : play cfg ok s cues = some t) :
    Run (step cfg) ok s t := by
  induction cues generalizing s with
  | nil => cases h; exact .refl
  | cons cue cues ih =>
    simp only [play] at h
    split at h
    · cases h
    · rename_i a _
      split at h
      · rename_i hok
        obtain ⟨u, hu, hrest⟩ := Option.bind_eq_some_iff.mp h
        exact (Run.single hok hu).trans (ih hrest)
      · cases h

/-- A script that ends in a state with a property is a run to such a state. -/
theorem exists_run_of_play {P : State → Prop} [DecidablePred P] (cues : List Cue)
    (h : (play cfg ok s cues).any (fun t => decide (P t)) = true) :
    ∃ t, Run (step cfg) ok s t ∧ P t := by
  obtain ⟨t, ht, hP⟩ := (Option.any_eq_true _ _).mp h
  exact ⟨t, run_of_play ht, of_decide_eq_true hP⟩

/-- The same for a run in two parts, each under a condition of its own. -/
theorem exists_runs_of_play {ok' : State → Act → Prop} [∀ s a, Decidable (ok' s a)]
    {P Q : State → Prop} [DecidablePred P] [DecidablePred Q] (cues cues' : List Cue)
    (h : (play cfg ok s cues).any (fun t => decide (P t) &&
      (play cfg ok' t cues').any fun u => decide (Q u)) = true) :
    ∃ t u, Run (step cfg) ok s t ∧ P t ∧ Run (step cfg) ok' t u ∧ Q u := by
  obtain ⟨t, ht, h⟩ := (Option.any_eq_true _ _).mp h
  obtain ⟨hP, h⟩ := (Bool.and_eq_true _ _).mp h
  obtain ⟨u, hu, hQ⟩ := (Option.any_eq_true _ _).mp h
  exact ⟨t, u, run_of_play ht, of_decide_eq_true hP, run_of_play hu, of_decide_eq_true hQ⟩

/-- The same with one action between the two parts. -/
theorem exists_step_of_play {cfg : Config} {ok ok' : State → Act → Prop}
    [∀ s a, Decidable (ok s a)] [∀ s a, Decidable (ok' s a)] {s : State} {a : Act}
    (Q : State → State → Prop) [∀ t u, Decidable (Q t u)] (cues cues' : List Cue)
    (h : (play cfg ok s cues).any (fun t => (step cfg t a).any fun t₁ =>
      (play cfg ok' t₁ cues').any fun u => decide (Q t u)) = true) :
    ∃ t t₁ u, Run (step cfg) ok s t ∧ step cfg t a = some t₁ ∧ Run (step cfg) ok' t₁ u ∧ Q t u := by
  obtain ⟨t, ht, h⟩ := (Option.any_eq_true _ _).mp h
  obtain ⟨t₁, ht₁, h⟩ := (Option.any_eq_true _ _).mp h
  obtain ⟨u, hu, hQ⟩ := (Option.any_eq_true _ _).mp h
  exact ⟨t, t₁, u, run_of_play ht, ht₁, run_of_play hu, of_decide_eq_true hQ⟩

/-! ## Pieces that scripts share -/

namespace Script

/-- A job id; distinct numbers give distinct ids, all of version 4. -/
def job (n : Hex) : Uuid :=
  ⟨⟨0, 0, 0, n⟩, ⟨0, 0, 0, 0⟩, ⟨0, 0, 0, 0⟩, ⟨4, 0, 0, 0⟩, ⟨8, 0, 0, 0⟩, ⟨0, 0, 0, 0⟩,
    ⟨0, 0, 0, 0⟩, ⟨0, 0, 0, 0⟩⟩

/-- The defaults of the environment. -/
def defaults : Config := ⟨true, 1000, 60000, 60, by decide⟩

/-- A handler's error with the smallest jitter. -/
def threw : Outcome := .threw "boom".toList ⟨0, by norm_num, by norm_num⟩

/-- The smallest draw. -/
def noJitter : Random := ⟨0, by norm_num, by norm_num⟩

/-- A worker starts with an empty list and sends its first heartbeat. -/
def start (w : WorkerId) : List Cue :=
  [.act (.spawn w 5), .act (.recoverOwn w false), .act (.recoverOwn w false),
    .act (.recoverOwn w false)]

/-- A client submits a job and the API pushes it. -/
def submit (u : Uuid) : List Cue := [.act (.request (.submit none)), .api u, .api u]

/-- A worker takes an entry, and its execution issues `n` commands. -/
def takes (w : WorkerId) (n : Nat) : List Cue :=
  .act (.take w) :: List.replicate n (.work w .returned)

/-- A worker takes an entry, the handler throws, and the execution issues `n` more
commands, the first of them the park. -/
def throws (w : WorkerId) (n : Nat) : List Cue :=
  takes w 2 ++ .work w threw :: List.replicate n (.work w .returned)

/-- The first scheduler, which is idle, runs `promoteDue` with one id due. -/
def promotes : List Cue := List.replicate 5 (.sched .next)

/-- The worker takes the job five times and the handler throws each time; after each of the first
four attempts the backoff passes and the first scheduler promotes the job. -/
def failsOut (w : WorkerId) : List Cue :=
  (List.replicate 4 (throws w 3 ++ .act (.tick 60000000) :: promotes)).flatten ++ throws w 2

/-- A client replays a job under some spelling of its id, and the API pushes it. -/
def replay (id : Text) (u : Uuid) : List Cue := [.act (.request (.replay id)), .api u, .api u]

/-- A worker is killed, and its heartbeat ends with it. -/
def dies (w : WorkerId) : List Cue := [.act (.kill w), .act (.expire w)]

/-- The scheduler scans, finds the list of `w`, and issues `n` more commands. -/
def reaps (w : WorkerId) (n : Nat) : List Cue :=
  [.sched .recover, .sched (.visit w)] ++ List.replicate n (.sched .next)

end Script

end QueueFlow
