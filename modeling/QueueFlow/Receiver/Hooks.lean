-- SUMMARY: The webhook receiver of receiver/index.ts: what it counts and applies, and what its answers say of the deliveries before.
import QueueFlow.Lib.Run
import QueueFlow.Lib.Tally
import QueueFlow.Shared.Js

/-!
# The receiver

The receiver counts every delivery by job, and the idempotent hook applies each job once. Each handler runs up
to its answer without an `await`, so that the deliveries come one after the other; the answers may wait.
`DELETE /deliveries` starts anew.
-/

namespace QueueFlow

open Transition

/-- The routes that record a delivery. -/
inductive Hook where
  | hook
  | idempotent
  | down
  | slow
  /-- `Number(req.params.failures)` -/
  | flaky (failures : JsNumber)
  deriving DecidableEq

structure Post where
  hook : Hook
  /-- `X-QueueFlow-Job-Id`. -/
  header : Option Text
  /-- `Number(req.query.delayMs)` -/
  delayMs : JsNumber
  deriving DecidableEq

def Post.jobId (p : Post) : Text := p.header.getD "unknown".toList

inductive HookReply where
  /-- 200, `{ ok: true, received }`. -/
  | received (count : Nat)
  /-- 200, `{ ok: true, duplicate, received }`. -/
  | applied (duplicate : Bool) (count : Nat)
  /-- 500 -/
  | outage (error : Text)
  /-- 200, `{ ok: true }`. -/
  | held
  /-- 503 -/
  | again (error : Text)
  /-- 200, `{ ok: true, recoveredAfter }`. -/
  | recovered (recoveredAfter : JsNumber)
  deriving DecidableEq

def HookReply.status : HookReply → Nat
  | .outage _ => 500
  | .again _ => 503
  | _ => 200

/-- The answer says that the delivery was applied. -/
def HookReply.isFirst : HookReply → Bool
  | .applied duplicate _ => !duplicate
  | _ => false

structure Receiver where
  deliveries : List (Text × Nat)
  applied : List Text
  deriving DecidableEq

/-- The answer to `GET /deliveries`. -/
structure Deliveries where
  total : Nat
  applied : Nat
  duplicates : List (Text × Nat)
  byJob : List (Text × Nat)
  deriving DecidableEq

inductive ReceiverRequest where
  | post (p : Post)
  | list
  | clear
  deriving DecidableEq

/-- `count <= n` -/
def JsNumber.isAtLeast (count : Nat) : JsNumber → Bool
  | .nan => false
  | .infinite negative => !negative
  | .finite q => count ≤ q

/-- The milliseconds that an answer waits, at most 60 seconds. -/
def delayFrom (raw : JsNumber) : ℚ :=
  match raw.finite? with
  | some q => if q > 0 then min q 60000 else 0
  | none => 0

namespace Receiver

def start : Receiver := ⟨[], []⟩

/-- `record`: the count of the job, this delivery included. -/
def record (r : Receiver) (p : Post) : Receiver × Nat :=
  ({ r with deliveries := Tally.bump r.deliveries p.jobId }, Tally.get r.deliveries p.jobId + 1)

/-- A delivery: the answer, and after how many milliseconds it is sent. -/
def post (r : Receiver) (p : Post) : Receiver × HookReply × ℚ :=
  let (r, count) := r.record p
  match p.hook with
  | .hook => (r, .received count, delayFrom p.delayMs)
  | .idempotent =>
      if p.jobId ∈ r.applied then (r, .applied true count, delayFrom p.delayMs)
      else ({ r with applied := r.applied ++ [p.jobId] }, .applied false count, delayFrom p.delayMs)
  | .down => (r, .outage "simulated outage".toList, 0)
  | .slow => (r, .held, 60000)
  | .flaky failures =>
      if failures.isAtLeast count then (r, .again "try again later".toList, 0)
      else (r, .recovered failures, 0)

def list (r : Receiver) : Deliveries where
  total := (r.deliveries.map (·.2)).sum
  applied := r.applied.length
  duplicates := r.deliveries.filter fun e => e.2 > 1
  byJob := r.deliveries

def step (r : Receiver) : ReceiverRequest → Option Receiver
  | .post p => some (r.post p).1
  | .list => some r
  | .clear => some start

/-! ## The history of the deliveries -/

/-- The deliveries since the log was cleared, newest first, each with its answer. -/
abbrev Log := List (Post × HookReply)

def Log.note (r : Receiver) (req : ReceiverRequest) (_ : Receiver) (log : Log) : Log :=
  match req with
  | .post p => (p, (r.post p).2.1) :: log
  | .list => log
  | .clear => []

/-- The jobs of the deliveries. -/
def Log.jobs (log : Log) : List Text := log.map fun e => e.1.jobId

/-- How often a job was delivered. -/
def Log.count (log : Log) (id : Text) : Nat := log.jobs.countP fun x => x = id

/-- The jobs that were delivered to the idempotent hook. -/
def Log.applied (log : Log) : List Text := Log.jobs (log.filter fun e => e.1.hook = .idempotent)

/-- What a receiver that remembers every delivery answers. -/
def answerTo (earlier : Log) (p : Post) : HookReply :=
  match p.hook with
  | .hook => .received (earlier.count p.jobId + 1)
  | .idempotent => .applied (p.jobId ∈ earlier.applied) (earlier.count p.jobId + 1)
  | .down => .outage "simulated outage".toList
  | .slow => .held
  | .flaky failures =>
      if failures.isAtLeast (earlier.count p.jobId + 1) then .again "try again later".toList
      else .recovered failures

/-- Every answer is the one that the deliveries before it call for. -/
def Answered : Log → Prop
  | [] => True
  | (p, reply) :: log => reply = answerTo log p ∧ Answered log

/-- The state says of the history what the answers need. -/
structure Remembers (r : Receiver) (log : Log) : Prop where
  counts : Tally.Counts r.deliveries log.jobs
  applied : ∀ id, id ∈ r.applied ↔ id ∈ log.applied
  once : r.applied.Nodup
  answered : Answered log

variable {r r' : Receiver} {log : Log} {p : Post} {id : Text} {n : Nat} {reply : HookReply}
  {ok : Receiver → ReceiverRequest → Prop}

theorem Log.applied_cons : Log.applied ((p, reply) :: log) =
    if p.hook = .idempotent then p.jobId :: log.applied else log.applied := by
  by_cases h : p.hook = .idempotent <;> simp [Log.applied, Log.jobs, h]

theorem Log.count_cons : Log.count ((p, reply) :: log) id = log.count id + if p.jobId = id then 1 else 0 := by
  by_cases h : p.jobId = id <;> simp [Log.count, Log.jobs, h]

theorem post_reply (h : Remembers r log) : (r.post p).2.1 = answerTo log p := by
  have hcount : Tally.get r.deliveries p.jobId = log.count p.jobId := h.counts.get p.jobId
  unfold post answerTo
  simp only [record, hcount]
  cases p.hook with
  | hook | down | slow => rfl
  | idempotent =>
      by_cases happlied : p.jobId ∈ r.applied
      · simp only [if_pos happlied, (h.applied _).mp happlied, decide_true]
      · simp only [if_neg happlied, mt (h.applied _).mpr happlied, decide_false]
  | flaky failures =>
      dsimp only
      split <;> rfl

theorem post_deliveries : (r.post p).1.deliveries = Tally.bump r.deliveries p.jobId := by
  unfold post
  cases p.hook with
  | hook | down | slow => rfl
  | idempotent => by_cases happlied : p.jobId ∈ r.applied <;> simp [record, happlied]
  | flaky failures =>
      by_cases hagain : failures.isAtLeast (Tally.get r.deliveries p.jobId + 1) <;> simp [record, hagain]

theorem post_applied : (r.post p).1.applied =
    if p.hook = .idempotent ∧ p.jobId ∉ r.applied then r.applied ++ [p.jobId] else r.applied := by
  unfold post
  cases p.hook with
  | hook | down | slow => rfl
  | idempotent =>
      by_cases happlied : p.jobId ∈ r.applied <;> simp [record, happlied]
  | flaky failures =>
      by_cases hagain : failures.isAtLeast (Tally.get r.deliveries p.jobId + 1) <;> simp [record, hagain]

theorem Remembers.start : Remembers start [] := ⟨.nil, fun _ => Iff.rfl, List.nodup_nil, trivial⟩

theorem Remembers.post (h : Remembers r log) (p : Post) :
    Remembers (r.post p).1 ((p, (r.post p).2.1) :: log) where
  counts := by
    rw [post_deliveries]
    exact h.counts.bump p.jobId
  applied id := by
    rw [post_applied, Log.applied_cons]
    by_cases hhook : p.hook = .idempotent
    · by_cases hmem : p.jobId ∈ r.applied
      · rw [if_neg (fun hnot => hnot.2 hmem), if_pos hhook, List.mem_cons, h.applied]
        refine ⟨.inr, fun hid => hid.elim (fun heq => heq ▸ (h.applied _).mp hmem) fun hid => hid⟩
      · rw [if_pos ⟨hhook, hmem⟩, if_pos hhook, List.mem_append, List.mem_singleton, List.mem_cons, h.applied]
        exact or_comm
    · rw [if_neg (fun hnot => hhook hnot.1), if_neg hhook]
      exact h.applied id
  once := by
    rw [post_applied]
    split
    · rename_i hnew
      exact List.nodup_append.mpr ⟨h.once, List.nodup_singleton _, by
        intro a ha b hb
        rw [List.mem_singleton.mp hb]
        exact fun heq => hnew.2 (heq ▸ ha)⟩
    · exact h.once
  answered := ⟨post_reply h, h.answered⟩

theorem remembers_of_run (hrun : Observed step ok Log.note start [] r log) : Remembers r log := by
  refine hrun.invariant (P := Remembers) .start fun t log req u h _ hstep => ?_
  cases req with
  | post p =>
      cases hstep
      exact h.post p
  | list =>
      cases hstep
      exact h
  | clear =>
      cases hstep
      exact .start

private theorem isFirst_answerTo :
    (answerTo log p).isFirst = decide (p.hook = .idempotent ∧ p.jobId ∉ log.applied) := by
  unfold answerTo
  cases p.hook with
  | hook | down | slow => exact (decide_eq_false (by rintro ⟨⟨⟩, -⟩)).symm
  | idempotent => by_cases hmem : p.jobId ∈ log.applied <;> simp [HookReply.isFirst, hmem]
  | flaky failures =>
      dsimp only
      split <;> exact (decide_eq_false (by rintro ⟨⟨⟩, -⟩)).symm

/-- Of the deliveries of one job to the idempotent hook, one is answered as the first. -/
theorem countP_isFirst (h : Answered log) : log.countP (fun e => e.1.jobId = id && e.2.isFirst) =
    if id ∈ log.applied then 1 else 0 := by
  induction log with
  | nil => rfl
  | cons e earlier ih =>
      obtain ⟨p, reply⟩ := e
      obtain ⟨rfl, h⟩ := h
      have ih : earlier.countP (fun e => e.1.jobId = id && e.2.isFirst) =
          if id ∈ Log.applied earlier then 1 else 0 := ih h
      rw [List.countP_cons, ih, Log.applied_cons, isFirst_answerTo]
      by_cases hid : p.jobId = id
      · subst hid
        by_cases hhook : p.hook = .idempotent
        · by_cases hmem : p.jobId ∈ Log.applied earlier <;> simp [hhook, hmem]
        · simp [hhook]
      · have hne : id ≠ p.jobId := Ne.symm hid
        by_cases hhook : p.hook = .idempotent <;> simp [hid, hhook, hne]

/-- Every answer is the one that the deliveries since the last clearing call for, and the list of deliveries
says how often each job was delivered and how many were applied. -/
theorem answered_and_listed (hrun : Observed step ok Log.note start [] r log) :
    Answered log ∧ r.list.total = log.length ∧ r.list.applied = log.applied.dedup.length ∧
      (∀ id n, (id, n) ∈ r.list.byJob ↔ id ∈ log.jobs ∧ n = log.count id) ∧
      (∀ id n, (id, n) ∈ r.list.duplicates ↔ n = log.count id ∧ 1 < n) ∧
      ∀ id, log.countP (fun e => e.1.jobId = id && e.2.isFirst) = if id ∈ log.applied then 1 else 0 := by
  have h := remembers_of_run hrun
  refine ⟨h.answered, ?_, ?_, fun id n => h.counts.mem_iff, fun id n => ?_, fun id => countP_isFirst h.answered⟩
  · exact h.counts.total.trans (List.length_map ..)
  · have hperm : r.applied.Perm log.applied.dedup := (List.perm_ext_iff_of_nodup h.once (List.nodup_dedup _)).mpr
      fun id => (h.applied id).trans List.mem_dedup.symm
    exact hperm.length_eq
  · rw [list, List.mem_filter, h.counts.mem_iff, decide_eq_true_eq, gt_iff_lt]
    constructor
    · rintro ⟨⟨-, hn⟩, hmany⟩
      exact ⟨hn, hmany⟩
    · rintro ⟨hn, hmany⟩
      refine ⟨⟨?_, hn⟩, hmany⟩
      have hpos : 0 < log.count id := hn ▸ Nat.zero_lt_of_lt hmany
      obtain ⟨x, hx, heq⟩ := List.countP_pos_iff.mp hpos
      exact of_decide_eq_true heq ▸ hx

/-- A job is delivered to the idempotent hook twice, and another one is not. -/
theorem answered_and_listed_twice : ∃ r log, Observed step always Log.note start [] r log ∧
    (log.map (·.2) = [.applied true 2, .received 1, .applied false 1] ∧ r.list.duplicates = [(['j'], 2)]) ∧
      log.countP (fun e => e.1.jobId = ['j'] && e.2.isFirst) = 1 := by
  have hplay : ∃ q, Run (observe step Log.note) (fun _ _ => True) (start, []) q ∧
      q.2.map (·.2) = [.applied true 2, .received 1, .applied false 1] ∧
        q.1.list.duplicates = [(['j'], 2)] ∧ ['j'] ∈ Log.applied q.2 :=
    exists_run_of_perform (f := fun _ req => some req)
      [.post ⟨.down, none, .nan⟩, .clear, .post ⟨.idempotent, some ['j'], .nan⟩, .post ⟨.hook, some ['k'], .nan⟩,
        .list, .post ⟨.idempotent, some ['j'], .nan⟩] (by decide +kernel)
  obtain ⟨⟨r, log⟩, hrun, hreplies, hdup, happlied⟩ := hplay
  have hrun : Observed step always Log.note start [] r log := hrun
  obtain ⟨-, -, -, -, -, hfirst⟩ := answered_and_listed hrun
  exact ⟨r, log, hrun, ⟨hreplies, hdup⟩, (hfirst ['j']).trans (if_pos happlied)⟩

end Receiver

end QueueFlow
