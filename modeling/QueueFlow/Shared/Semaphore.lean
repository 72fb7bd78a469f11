-- SUMMARY: The semaphore of shared/semaphore.ts with the callers it parks: no permit is lost, and permits are granted in the order of the calls.
import QueueFlow.Lib.Run
import Mathlib.Data.List.Range

/-!
# The semaphore

A caller of `acquire` either goes on at once or is parked in a list. `release` hands its permit to
the first caller that is parked, without going through the counter. `Usage` keeps a record beside the
semaphore: which calls were granted a permit, in which order, and how many permits were released.
-/

namespace QueueFlow.Shared

open Transition

/-! ## `Semaphore` -/

structure Semaphore (α : Type) where
  capacity : Nat
  available : Nat
  /-- The callers that are parked in `acquire`, the first to come first. -/
  waiting : List α
  deriving DecidableEq, Repr

namespace Semaphore

variable {α : Type}

def new (capacity : Nat) : Semaphore α := ⟨capacity, capacity, []⟩

/-- The constructor, which throws where the capacity is not positive. -/
def create (capacity : Nat) : Option (Semaphore α) := if capacity < 1 then none else some (new capacity)

/-- `acquire()`, and the caller whose promise it resolves. -/
def acquire (s : Semaphore α) (caller : α) : Semaphore α × Option α :=
  if 0 < s.available then ({ s with available := s.available - 1 }, some caller)
  else ({ s with waiting := s.waiting ++ [caller] }, none)

/-- `release()`, and the caller whose promise it resolves. -/
def release (s : Semaphore α) : Semaphore α × Option α :=
  match s.waiting with
  | next :: waiting => ({ s with waiting }, some next)
  | [] =>
      if s.available < s.capacity then ({ s with available := s.available + 1 }, none) else (s, none)

def inFlight (s : Semaphore α) : Nat := s.capacity - s.available

end Semaphore

/-! ## Sequences of calls -/

inductive SlotCall where
  | acquire
  | release
  deriving DecidableEq, Repr

/-- A semaphore and what was done with it. The calls of `acquire` are numbered from zero. -/
structure Usage where
  slots : Semaphore Nat
  calls : Nat
  /-- The calls that were granted a permit, in the order of the grants. -/
  granted : List Nat
  released : Nat
  deriving DecidableEq, Repr

namespace Usage

def start (slots : Semaphore Nat) : Usage := ⟨slots, 0, [], 0⟩

def step (u : Usage) : SlotCall → Option Usage
  | .acquire =>
      some { u with
        slots := (u.slots.acquire u.calls).1
        calls := u.calls + 1
        granted := u.granted ++ (u.slots.acquire u.calls).2.toList }
  | .release =>
      some { u with
        slots := u.slots.release.1
        granted := u.granted ++ u.slots.release.2.toList
        released := u.released + 1 }

/-- Granted and not yet released. -/
def outstanding (u : Usage) : Nat := u.granted.length - u.released

/-- A release gives back a permit that was granted. -/
def Matched (u : Usage) : SlotCall → Prop
  | .acquire => True
  | .release => u.released < u.granted.length

instance : ∀ (u : Usage) (c : SlotCall), Decidable (u.Matched c)
  | _, .acquire => inferInstanceAs (Decidable True)
  | _, .release => inferInstanceAs (Decidable (_ < _))

/-- One call, by the branch that it takes. -/
inductive Move (u : Usage) : Usage → Prop where
  | takes (hfree : 0 < u.slots.available) :
      Move u { u with
        slots := { u.slots with available := u.slots.available - 1 }
        calls := u.calls + 1
        granted := u.granted ++ [u.calls] }
  | parks (hfull : u.slots.available = 0) :
      Move u { u with
        slots := { u.slots with waiting := u.slots.waiting ++ [u.calls] }, calls := u.calls + 1 }
  | hands (next : Nat) (waiting : List Nat) (hwaiting : u.slots.waiting = next :: waiting)
      (hmatched : u.released < u.granted.length) :
      Move u { u with
        slots := { u.slots with waiting }, granted := u.granted ++ [next], released := u.released + 1 }
  | frees (hnone : u.slots.waiting = []) (hmatched : u.released < u.granted.length) :
      Move u { u with
        slots := { u.slots with
          available := u.slots.available + if u.slots.available < u.slots.capacity then 1 else 0
          waiting := [] }
        released := u.released + 1 }

variable {u v : Usage} {c : SlotCall} {capacity : Nat}

theorem step_cases (hok : u.Matched c) (h : u.step c = some v) : u.Move v := by
  cases c with
  | acquire =>
    by_cases hfree : 0 < u.slots.available
    · simp only [step, Semaphore.acquire, if_pos hfree, Option.toList_some] at h
      cases h
      exact .takes hfree
    · simp only [step, Semaphore.acquire, if_neg hfree, Option.toList_none, List.append_nil] at h
      cases h
      exact .parks (Nat.eq_zero_of_not_pos hfree)
  | release =>
    cases hwaiting : u.slots.waiting with
    | cons next waiting =>
      simp only [step, Semaphore.release, hwaiting, Option.toList_some] at h
      cases h
      exact .hands next waiting hwaiting hok
    | nil =>
      have hmove := Move.frees hwaiting hok
      by_cases hlt : u.slots.available < u.slots.capacity
      · simp only [step, Semaphore.release, hwaiting, if_pos hlt, Option.toList_none,
          List.append_nil] at h
        cases h
        rwa [if_pos hlt] at hmove
      · simp only [step, Semaphore.release, hwaiting, if_neg hlt, Option.toList_none,
          List.append_nil] at h
        cases h
        have hslots : u.slots = ⟨u.slots.capacity, u.slots.available, []⟩ := by rw [← hwaiting]
        rwa [if_neg hlt, Nat.add_zero, ← hslots] at hmove

/-! ## The invariant -/

/-- The counter, the list and the record agree. -/
structure Fair (capacity : Nat) (u : Usage) : Prop where
  bound : u.slots.capacity = capacity
  /-- Every permit is in the counter or outstanding. -/
  permits : u.slots.available + u.granted.length = capacity + u.released
  released : u.released ≤ u.granted.length
  /-- No permit is idle while a caller is parked. -/
  busy : u.slots.waiting ≠ [] → u.slots.available = 0
  /-- The calls are granted, and parked, in their order. -/
  order : u.granted ++ u.slots.waiting = List.range u.calls

theorem fair_start {slots : Semaphore Nat} (h : Semaphore.create capacity = some slots) :
    Fair capacity (start slots) := by
  unfold Semaphore.create at h
  split at h
  · cases h
  · cases h
    exact ⟨rfl, rfl, Nat.le_refl 0, fun hne => absurd rfl hne, rfl⟩

theorem Fair.step (fair : Fair capacity u) (hok : u.Matched c) (h : u.step c = some v) :
    Fair capacity v := by
  obtain ⟨hbound, hpermits, hreleased, hbusy, horder⟩ := fair
  cases step_cases hok h with
  | takes hfree =>
    have hnone : u.slots.waiting = [] := by
      by_contra hne
      have := hbusy hne
      omega
    rw [hnone, List.append_nil] at horder
    refine ⟨hbound, ?_, ?_, fun hne => absurd hnone hne, ?_⟩
    · rw [List.length_append, List.length_singleton]
      dsimp only
      omega
    · rw [List.length_append]
      exact Nat.le_add_right_of_le hreleased
    · rw [hnone, List.append_nil, List.range_succ, horder]
  | parks hfull =>
    refine ⟨hbound, hpermits, hreleased, fun _ => hfull, ?_⟩
    rw [← List.append_assoc, horder, List.range_succ]
  | hands next waiting hwaiting hmatched =>
    have hne : u.slots.waiting ≠ [] := by
      rw [hwaiting]
      exact List.cons_ne_nil _ _
    refine ⟨hbound, ?_, ?_, fun _ => hbusy hne, ?_⟩
    · rw [List.length_append, List.length_singleton]
      dsimp only
      omega
    · rw [List.length_append, List.length_singleton]
      exact Nat.succ_le_succ hreleased
    · rw [List.append_assoc, List.singleton_append, ← hwaiting, horder]
  | frees hnone hmatched =>
    -- An outstanding permit is missing from the counter, which is therefore not full.
    have hlt : u.slots.available < u.slots.capacity := by omega
    refine ⟨hbound, ?_, hmatched, fun hne => absurd rfl hne, hnone ▸ horder⟩
    rw [if_pos hlt]
    dsimp only
    omega

theorem Fair.run (fair : Fair capacity u) (h : Run Usage.step Matched u v) : Fair capacity v :=
  h.invariant fair fun _ _ _ => Fair.step

theorem counts_le (h : Run step Matched u v) : u.calls ≤ v.calls ∧ u.released ≤ v.released := by
  induction h with
  | refl => exact ⟨Nat.le_refl _, Nat.le_refl _⟩
  | tail c _ hok hstep ih =>
    cases step_cases hok hstep with
    | takes | parks => exact ⟨Nat.le_succ_of_le ih.1, ih.2⟩
    | hands | frees => exact ⟨ih.1, Nat.le_succ_of_le ih.2⟩

theorem Fair.inFlight (fair : Fair capacity u) : u.slots.inFlight = u.outstanding := by
  have hpermits := fair.permits
  have hreleased := fair.released
  have hbound := fair.bound
  unfold Semaphore.inFlight outstanding
  omega

theorem Fair.granted_eq (fair : Fair capacity u) : u.granted = List.range u.granted.length := by
  have htake := congrArg (List.take u.granted.length) fair.order
  have hle : u.granted.length ≤ u.calls := by
    have hlen := congrArg List.length fair.order
    rw [List.length_append, List.length_range] at hlen
    omega
  rwa [List.take_left, List.take_range, Nat.min_eq_left hle] at htake

/-- As long as no more permits are released than callers were parked, the releases grant to these
callers, and to no other. -/
theorem Fair.hand_off (fair : Fair capacity u) (hwaiting : u.slots.waiting ≠ [])
    (h : Run Usage.step Matched u v) (hle : v.released ≤ u.released + u.slots.waiting.length) :
    v.granted = u.granted ++ u.slots.waiting.take (v.released - u.released) := by
  have fair' := fair.run h
  obtain ⟨hcalls, hback⟩ := counts_le h
  have hfull : u.slots.available = 0 := fair.busy hwaiting
  have hlen : u.granted.length + u.slots.waiting.length = u.calls := by
    rw [← List.length_append, fair.order, List.length_range]
  have hpermits := fair.permits
  have hpermits' := fair'.permits
  have hfull' : v.slots.available = 0 := by
    by_cases hnone : v.slots.waiting = []
    · -- Then every call was granted, those that were parked in `u` among them.
      have hall : v.granted.length = v.calls := by
        have := congrArg List.length fair'.order
        rwa [hnone, List.append_nil, List.length_range] at this
      omega
    · exact fair'.busy hnone
  have hgranted : u.granted ++ u.slots.waiting.take (v.released - u.released) =
      (List.range u.calls).take (u.granted.length + (v.released - u.released)) := by
    rw [← fair.order, List.take_length_add_append]
  rw [hgranted, List.take_range, fair'.granted_eq]
  congr 1
  omega

/-- While a caller is parked, some permit is outstanding. -/
theorem Fair.matched_release (fair : Fair capacity u) (hpos : 1 ≤ capacity)
    (hwaiting : u.slots.waiting ≠ []) : u.Matched .release := by
  have hpermits := fair.permits
  have hfull := fair.busy hwaiting
  change u.released < u.granted.length
  omega

/-- Whatever the capacity and the calls, as long as each release is matched to a permit that was
granted: the permits in the counter and the outstanding ones are the capacity, `inFlight` counts the
outstanding ones, nobody is parked while a permit is idle, the calls are granted in their order, and
the next releases, which can be matched, grant to the parked callers one by one. -/
theorem permits_fair {slots : Semaphore Nat} (hcreate : Semaphore.create capacity = some slots)
    (h : Run step Matched (start slots) u) :
    u.released ≤ u.granted.length ∧ u.slots.available + u.outstanding = capacity ∧
      u.slots.inFlight = capacity - u.slots.available ∧ u.slots.inFlight = u.outstanding ∧
      u.slots.inFlight ≤ capacity ∧
      (u.slots.waiting ≠ [] → u.slots.available = 0 ∧ u.Matched .release) ∧
      u.granted ++ u.slots.waiting = List.range u.calls ∧
      ∀ v, Run step Matched u v → u.slots.waiting ≠ [] →
        v.released ≤ u.released + u.slots.waiting.length →
          v.granted = u.granted ++ u.slots.waiting.take (v.released - u.released) := by
  have hpos : 1 ≤ capacity := by
    unfold Semaphore.create at hcreate
    split at hcreate
    · cases hcreate
    · omega
  have fair : Fair capacity u := (fair_start hcreate).run h
  have hpermits := fair.permits
  have hreleased := fair.released
  have htotal : u.slots.available + u.outstanding = capacity := by
    unfold outstanding
    omega
  have hinFlight := fair.inFlight
  refine ⟨hreleased, htotal, ?_, hinFlight, by omega, ?_, fair.order, ?_⟩
  · rw [Semaphore.inFlight, fair.bound]
  · exact fun hwaiting => ⟨fair.busy hwaiting, fair.matched_release hpos hwaiting⟩
  · exact fun v hrun hwaiting hle => fair.hand_off hwaiting hrun hle

/-- Two permits and four calls: the first release goes to the third call. -/
theorem permits_fair_two : ∃ u v : Usage, u.slots.waiting = [2, 3] ∧ u.slots.available = 0 ∧
    v.granted = u.granted ++ [2] := by
  have hu : execute step Matched (start ⟨2, 2, []⟩) [.acquire, .acquire, .acquire, .acquire] =
      some ⟨⟨2, 0, [2, 3]⟩, 4, [0, 1], 0⟩ := rfl
  have hv : execute step Matched ⟨⟨2, 0, [2, 3]⟩, 4, [0, 1], 0⟩ [.release] =
      some ⟨⟨2, 0, [3]⟩, 4, [0, 1, 2], 1⟩ := rfl
  obtain ⟨-, -, -, -, -, hbusy, -, hnext⟩ := @permits_fair _ 2 _ rfl (.of_execute hu)
  have hwaiting : [2, 3] ≠ ([] : List Nat) := List.cons_ne_nil _ _
  exact ⟨_, _, rfl, (hbusy hwaiting).1, hnext _ (.of_execute hv) hwaiting (by decide)⟩

end Usage

end QueueFlow.Shared
