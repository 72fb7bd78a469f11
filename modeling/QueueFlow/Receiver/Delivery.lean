-- SUMMARY: The system together with an idempotent receiver: the requests of deliverWebhook on their way, and how often a job takes effect there.
import QueueFlow.Frame
import QueueFlow.Fencing.Lease
import QueueFlow.Receiver.Hooks
import QueueFlow.Script

/-!
# Deliveries

A job is attempted as often as it is claimed, and an attempt whose worker has died may still reach the receiver.
Here some jobs are deliveries to the idempotent hook. The handler of each attempt sends one request under the id
of its job, which arrives at some time or never, also after the worker is gone; the handler returns only if it
has arrived. Others may post to the receiver as well, under ids of their own. The receiver keeps what it has
applied in memory; here it is neither restarted nor cleared.
-/

namespace QueueFlow

open Transition

/-- The receiver and the requests to it. -/
structure Wire where
  /-- The attempts whose requests are on their way. -/
  sent : List Holding
  /-- Those whose requests have arrived. -/
  arrived : List Holding
  receiver : Receiver
  /-- History: the deliveries with their answers. -/
  log : Receiver.Log

inductive WireAct where
  /-- The system takes a step, or time passes. -/
  | other (a : Act)
  /-- A handler issues its `fetch`. -/
  | fetch (e : Exec)
  /-- A request arrives. -/
  | arrive (h : Holding)
  /-- Somebody else posts to the receiver. -/
  | foreign (p : Post)
  deriving DecidableEq

/-- The attempt whose handler has returned, up to `COMMIT`. -/
def ExecPc.done? : ExecPc → Option Holding
  | .txBegin h | .txUpdate h _ | .txInsert h _ | .txCommit h _ => some h
  | _ => none

namespace Wire

def start : Wire := ⟨[], [], .start, []⟩

/-- What `deliverWebhook` posts. -/
def request (h : Holding) : Post := ⟨.idempotent, some (uuidOut h.job), .nan⟩

/-- The receiver handles a delivery. -/
def deliver (w : Wire) (p : Post) : Wire :=
  { w with receiver := (w.receiver.post p).1, log := (p, (w.receiver.post p).2.1) :: w.log }

/-- The request of an attempt arrives. -/
def receive (w : Wire) (h : Holding) : Wire where
  sent := w.sent.erase h
  arrived := h :: w.arrived
  receiver := (w.deliver (request h)).receiver
  log := (w.deliver (request h)).log

section

variable (deliveries : Uuid → Bool) (cfg : Config)

/-- The step lets a handler return whose request has not been answered. -/
def early (w : Wire) : Act → Bool
  | .exec e .returned =>
      match e.pc with
      | .handler h => deliveries h.job && w.arrived.all fun x => x.lease ≠ h.lease
      | _ => false
  | _ => false

def step (q : State × Wire) : WireAct → Option (State × Wire)
  | .other a => if q.2.early deliveries a then none else (QueueFlow.step cfg q.1 a).map fun t => (t, q.2)
  | .fetch e =>
      match e.pc with
      | .handler h =>
          if e ∈ q.1.execs ∧ deliveries h.job = true ∧ (q.2.sent ++ q.2.arrived).all fun x => x.lease ≠ h.lease then
            some (q.1, { q.2 with sent := h :: q.2.sent })
          else none
      | _ => none
  | .arrive h => if h ∈ q.2.sent then some (q.1, q.2.receive h) else none
  | .foreign p => if (uuidIn p.jobId).any deliveries then none else some (q.1, q.2.deliver p)

end

variable {deliveries : Uuid → Bool} {cfg : Config} {s s' t : State} {w w' : Wire} {a : Act} {e e' : Exec} {h : Holding}
  {job : Uuid} {q q' : State × Wire} {act : WireAct}

/-! ## A handler that has returned -/

private theorem done?_caught {message : Text} {random : Random} : (caught cfg s h message random).done? = none := by
  unfold caught
  split <;> rfl

/-- An attempt is past its handler because it was so before, or because the handler returns now. -/
private theorem done_of_processOne {o : Outcome} (hmem : e ∈ s.execs) (hproc : processOne cfg s e o = some s')
    (he : e' ∈ s'.execs) (hdone : e'.pc.done? = some h) :
    (∃ e ∈ s.execs, e.pc.done? = some h) ∨ o = .returned ∧ e.pc = .handler h := by
  have herase (he : e' ∈ s.execs.erase e) : ∃ e ∈ s.execs, e.pc.done? = some h :=
    ⟨e', List.mem_of_mem_erase he, hdone⟩
  have hswap {pc : ExecPc} (he : e' ∈ Bag.swap s.execs e { e with pc }) :
      (∃ e ∈ s.execs, e.pc.done? = some h) ∨ pc.done? = some h := by
    rcases Bag.mem_of_mem_swap he with rfl | he
    · exact .inr hdone
    · exact .inl ⟨e', he, hdone⟩
  have hother {pc : ExecPc} (hpc : pc.done? = none) (he : e' ∈ Bag.swap s.execs e { e with pc }) :
      ∃ e ∈ s.execs, e.pc.done? = some h :=
    (hswap he).resolve_right (by rw [hpc]; rintro ⟨⟩)
  have hkept {pc : ExecPc} (hpc : pc.done? = e.pc.done?) (he : e' ∈ Bag.swap s.execs e { e with pc }) :
      ∃ e ∈ s.execs, e.pc.done? = some h :=
    (hswap he).elim id fun hpc' => ⟨e, hmem, hpc.symm.trans hpc'⟩
  unfold processOne at hproc
  split at hproc
  case h_1 =>
    cases hproc
    exact .inl (herase he)
  case h_2 =>
    split at hproc
    · cases hproc
      exact .inl (herase he)
    · split at hproc <;> cases hproc <;> exact .inl (hother rfl he)
  case h_3 =>
    split at hproc
    · cases hproc
    · split at hproc <;> cases hproc <;> exact .inl (hother rfl he)
  case h_4 hold hpc =>
    cases o with
    | returned =>
        cases hproc
        refine (hswap he).imp_right fun hbegin => ⟨rfl, ?_⟩
        cases hbegin
        exact hpc
    | threw message random =>
        cases hproc
        exact .inl (hother done?_caught he)
  case h_5 hpc =>
    cases hproc
    exact .inl (hkept (by rw [hpc]; rfl) he)
  case h_6 hpc =>
    split at hproc
    · cases hproc
    · split at hproc <;> cases hproc
      · exact .inl (hother rfl he)
      · exact .inl (hkept (by rw [hpc]; rfl) he)
  case h_7 hpc =>
    cases hproc
    exact .inl (hkept (by rw [hpc]; rfl) he)
  case h_8 | h_9 | h_12 =>
    cases hproc
    exact .inl (hother rfl he)
  case h_10 | h_11 =>
    split at hproc
    · cases hproc
    · split at hproc <;> cases hproc <;> exact .inl (hother rfl he)
  case h_13 =>
    cases hproc
    exact .inl (herase he)

/-- A failing command ends the execution, or leads to the outer catch block. -/
private theorem execs_of_fails {took : Bool} {message : Text} {random : Random}
    (hfails : fails cfg s e took message random = some s') : s'.execs = s.execs.erase e ∨
      ∃ hold, s'.execs = Bag.swap s.execs e { e with pc := caught cfg s hold message random } := by
  unfold fails at hfails
  split at hfails
  case h_1 | h_4 => cases hfails
  case h_2 =>
    cases hfails
    exact .inl rfl
  case h_5 hold _ | h_6 hold _ _ | h_7 hold _ _ | h_9 hold _ =>
    cases hfails
    exact .inr ⟨hold, rfl⟩
  case h_8 hold _ _ =>
    split at hfails <;> cases hfails <;> exact .inr ⟨hold, rfl⟩
  case h_12 | h_13 =>
    split at hfails <;> cases hfails <;> exact .inl rfl
  case h_3 | h_10 | h_11 =>
    split at hfails
    · split at hfails
      · cases hfails
      · split at hfails <;> cases hfails <;> exact .inl rfl
    · cases hfails
      exact .inl rfl

theorem done_of_step (hstep : QueueFlow.step cfg s a = some s') (he : e' ∈ s'.execs) (hdone : e'.pc.done? = some h) :
    (∃ e ∈ s.execs, e.pc.done? = some h) ∨ ∃ e, a = .exec e .returned ∧ e.pc = .handler h := by
  rcases exec_origin hstep he with hmem | ⟨-, -, -, -, -, hpc⟩ | ⟨e, o, rfl, hmem, hproc⟩ |
    ⟨e, took, message, random, rfl, -, hfails⟩
  · exact .inl ⟨e', hmem, hdone⟩
  · rw [hpc] at hdone
    split at hdone <;> cases hdone
  · refine (done_of_processOne hmem hproc he hdone).imp_right ?_
    rintro ⟨rfl, hpc⟩
    exact ⟨e, rfl, hpc⟩
  · rcases execs_of_fails hfails with heq | ⟨hold, heq⟩ <;> rw [heq] at he
    · exact .inl ⟨e', List.mem_of_mem_erase he, hdone⟩
    · rcases Bag.mem_of_mem_swap he with rfl | he
      · rw [done?_caught] at hdone
        cases hdone
      · exact .inl ⟨e', he, hdone⟩

/-- Only a commit makes a row 'succeeded'. -/
theorem succeeded_cases {r : JobRow} (hstep : QueueFlow.step cfg s a = some s') (hrow : s'.db.row job = some r)
    (hst : r.status = .succeeded) : s.db.row job = some r ∨
      ∃ e ∈ s.execs, ∃ hold, e.pc.done? = some hold ∧ hold.job = job := by
  have hupdate : ∀ {whr set}, Db.KeepsId set → (∀ r, ¬ (set r).status = .succeeded) →
      (s.db.update whr set).row job = some r → s.db.row job = some r := fun hid hset hrow =>
    row_of_row_update (P := fun r => r.status = .succeeded) hid hset hrow hst
  have hdb := db_cases hstep
  generalize s'.db = db at hdb hrow
  generalize s'.claims = claims at hdb
  cases hdb with
  | same => exact .inl hrow
  | inserted key g generated _ hnew =>
      rw [Db.row_insertJob hnew] at hrow
      split at hrow
      · cases hrow
        cases hst
      · exact .inl hrow
  | claimed => exact .inl (hupdate (Db.keepsId_claimed _ _) (fun _ => by rintro ⟨⟩) hrow)
  | settled e hold began he ha hpc =>
      by_cases hne : job = hold.job
      · exact .inr ⟨e, he, hold, by rw [hpc]; rfl, hne.symm⟩
      · rw [Db.row_insertEffect, Db.row_updateRow_ne (Db.keepsId_succeeded _) hne] at hrow
        exact .inl hrow
  | buried | reapBuried => exact .inl (hupdate (Db.keepsId_buried _ _) (fun _ => by rintro ⟨⟩) hrow)
  | parked => exact .inl (hupdate (Db.keepsId_parked _ _) (fun _ => by rintro ⟨⟩) hrow)
  | promoted => exact .inl (hupdate Db.keepsId_promoted (fun _ => by rintro ⟨⟩) hrow)
  | replayed => exact .inl (hupdate Db.keepsId_replayed (fun _ => by rintro ⟨⟩) hrow)
  | reapRequeued | reset => exact .inl (hupdate Db.keepsId_requeued (fun _ => by rintro ⟨⟩) hrow)

theorem claims_of_step {c : Claim} (hstep : QueueFlow.step cfg s a = some s') (hc : c ∈ s.claims) : c ∈ s'.claims := by
  rcases claims_cases hstep with heq | ⟨job, e, heq⟩ <;> rw [heq]
  · exact hc
  · exact List.mem_cons_of_mem _ hc

/-! ## What the requests have done -/

/-- The request of some attempt at the job has arrived. -/
def Reached (w : Wire) (job : Uuid) : Prop := ∃ h ∈ w.arrived, h.job = job

/-- How the requests and the receiver fit the system. -/
structure WireWf (deliveries : Uuid → Bool) (cfg : Config) (s : State) (w : Wire) : Prop where
  leases : LeaseWf cfg s
  remembers : Receiver.Remembers w.receiver w.log
  /-- An attempt sends one request. -/
  distinct : ((w.sent ++ w.arrived).map (·.lease)).Nodup
  claimed : ∀ h ∈ w.sent ++ w.arrived, deliveries h.job = true ∧ ∃ c ∈ s.claims, c.job = h.job ∧ c.lease = h.lease
  counted : ∀ job, deliveries job = true → w.log.count (uuidOut job) = w.arrived.countP fun h => h.job = job
  applied : ∀ job, deliveries job = true → (uuidOut job ∈ w.log.applied ↔ w.Reached job)
  /-- A handler has returned only after its request has arrived. -/
  done : ∀ e ∈ s.execs, ∀ h, e.pc.done? = some h → deliveries h.job = true → w.Reached h.job
  succeeded : ∀ job r, s.db.row job = some r → r.status = .succeeded → deliveries job = true → w.Reached job

namespace WireWf

theorem init : WireWf deliveries cfg .init start where
  leases := .init
  remembers := .start
  distinct := .nil
  claimed := by rintro _ ⟨⟩
  counted _ _ := rfl
  applied job _ := by
    constructor
    · rintro ⟨⟩
    · rintro ⟨_, ⟨⟩, -⟩
  done := by rintro _ ⟨⟩
  succeeded := by rintro _ _ ⟨⟩

/-- The rest of the system takes a step. -/
theorem other (wf : WireWf deliveries cfg s w) (hearly : w.early deliveries a = false)
    (hstep : QueueFlow.step cfg s a = some s') : WireWf deliveries cfg s' w where
  leases := wf.leases.step hstep
  remembers := wf.remembers
  distinct := wf.distinct
  claimed h hh := by
    obtain ⟨hjob, c, hc, heq⟩ := wf.claimed h hh
    exact ⟨hjob, c, claims_of_step hstep hc, heq⟩
  counted := wf.counted
  applied := wf.applied
  done e he h hdone hjob := by
    rcases done_of_step hstep he hdone with ⟨e₀, he₀, hdone₀⟩ | ⟨e₀, rfl, hpc⟩
    · exact wf.done e₀ he₀ h hdone₀ hjob
    · -- The handler returns: its own request has arrived, and that was for the same job.
      have he₀ : e₀ ∈ s.execs := exec_mem_of_step hstep rfl
      simp only [early, hpc, hjob, Bool.true_and, List.all_eq_false, decide_not, Bool.not_eq_true',
        decide_eq_false_iff_not,
        not_not] at hearly
      obtain ⟨x, hx, hlease⟩ := hearly
      obtain ⟨-, c, hc, hcjob, hclease⟩ := wf.claimed x (List.mem_append_right _ hx)
      have hheld := wf.leases.held e₀ he₀ h (by rw [hpc]; rfl)
      have hsame := wf.leases.claim_eq hc hheld (hclease.trans hlease)
      refine ⟨x, hx, ?_⟩
      rw [← hcjob, hsame]
  succeeded job r hrow hst hjob := by
    rcases succeeded_cases hstep hrow hst with hrow | ⟨e, he, hold, hdone, rfl⟩
    · exact wf.succeeded job r hrow hst hjob
    · exact wf.done e he hold hdone hjob

theorem fetch (wf : WireWf deliveries cfg s w) (he : e ∈ s.execs) (hpc : e.pc = .handler h)
    (hjob : deliveries h.job = true) (hnew : ∀ x ∈ w.sent ++ w.arrived, x.lease ≠ h.lease) :
    WireWf deliveries cfg s { w with sent := h :: w.sent } where
  leases := wf.leases
  remembers := wf.remembers
  distinct := by
    refine List.nodup_cons.mpr ⟨fun hmem => ?_, wf.distinct⟩
    obtain ⟨x, hx, heq⟩ := List.mem_map.mp hmem
    exact hnew x hx heq
  claimed x hx := by
    rcases List.mem_cons.mp hx with rfl | hx
    · exact ⟨hjob, _, wf.leases.held e he x (by rw [hpc]; rfl), rfl, rfl⟩
    · exact wf.claimed x hx
  counted := wf.counted
  applied := wf.applied
  done := wf.done
  succeeded := wf.succeeded

/-- A request arrives. -/
theorem arrive (wf : WireWf deliveries cfg s w) (hsent : h ∈ w.sent) : WireWf deliveries cfg s (w.receive h) := by
  have hperm : (w.sent.erase h ++ h :: w.arrived).Perm (w.sent ++ w.arrived) :=
    List.perm_middle.trans ((List.perm_cons_erase hsent).symm.append_right w.arrived)
  have hreached {job : Uuid} (hjob : w.Reached job) : (w.receive h).Reached job := by
    obtain ⟨x, hx, heq⟩ := hjob
    exact ⟨x, List.mem_cons_of_mem _ hx, heq⟩
  have hid {job : Uuid} : (request h).jobId = uuidOut job ↔ h.job = job := ⟨uuidOut_inj, congrArg uuidOut⟩
  exact {
    leases := wf.leases
    remembers := wf.remembers.post _
    distinct := (hperm.map _).nodup_iff.mpr wf.distinct
    claimed := fun x hx => wf.claimed x (hperm.mem_iff.mp hx)
    counted := fun job hjob => by
      show Receiver.Log.count ((request h, _) :: w.log) (uuidOut job) = List.countP _ (h :: w.arrived)
      simp only [Receiver.Log.count_cons, hid, wf.counted job hjob, List.countP_cons, decide_eq_true_eq]
    applied := fun job hjob => by
      show uuidOut job ∈ Receiver.Log.applied ((request h, _) :: w.log) ↔ _
      rw [Receiver.Log.applied_cons, if_pos (show (request h).hook = .idempotent from rfl), List.mem_cons,
        wf.applied job hjob]
      constructor
      · rintro (heq | hjob)
        · exact ⟨h, List.mem_cons_self, hid.mp heq.symm⟩
        · exact hreached hjob
      · rintro ⟨x, hx, heq⟩
        rcases List.mem_cons.mp hx with rfl | hx
        · exact .inl (hid.mpr heq).symm
        · exact .inr ⟨x, hx, heq⟩
    done := fun e he x hdone hjob => hreached (wf.done e he x hdone hjob)
    succeeded := fun job r hrow hst hjob => hreached (wf.succeeded job r hrow hst hjob) }

/-- Somebody else's delivery is none of a job's. -/
theorem foreign {p : Post} (wf : WireWf deliveries cfg s w) (hp : (uuidIn p.jobId).any deliveries = false) :
    WireWf deliveries cfg s (w.deliver p) := by
  have hne {job : Uuid} (hjob : deliveries job = true) : p.jobId ≠ uuidOut job := by
    intro heq
    rw [heq, uuidIn_uuidOut, Option.any_some, hjob] at hp
    cases hp
  exact {
    leases := wf.leases
    remembers := wf.remembers.post p
    distinct := wf.distinct
    claimed := wf.claimed
    counted := fun job hjob => by
      show Receiver.Log.count ((p, _) :: w.log) (uuidOut job) = _
      rw [Receiver.Log.count_cons, if_neg (hne hjob)]
      exact wf.counted job hjob
    applied := fun job hjob => by
      show uuidOut job ∈ Receiver.Log.applied ((p, _) :: w.log) ↔ _
      rw [← show w.Reached job ↔ (w.deliver p).Reached job from Iff.rfl, ← wf.applied job hjob,
        Receiver.Log.applied_cons]
      split
      · rw [List.mem_cons, or_iff_right (hne hjob).symm]
      · rfl
    done := wf.done
    succeeded := wf.succeeded }

theorem step (wf : WireWf deliveries cfg q.1 q.2) (h : Wire.step deliveries cfg q act = some q') :
    WireWf deliveries cfg q'.1 q'.2 := by
  cases act with
  | other a =>
      obtain ⟨hearly, h⟩ := Option.ite_none_left_eq_some.mp h
      obtain ⟨t, hstep, rfl⟩ := Option.map_eq_some_iff.mp h
      exact wf.other (Bool.eq_false_of_not_eq_true hearly) hstep
  | fetch e =>
      simp only [Wire.step] at h
      split at h
      · rename_i hold hpc
        obtain ⟨⟨he, hjob, hnew⟩, h⟩ := Option.ite_none_right_eq_some.mp h
        cases h
        exact wf.fetch he hpc hjob fun x hx => of_decide_eq_true (List.all_eq_true.mp hnew x hx)
      · cases h
  | arrive hold =>
      obtain ⟨hsent, h⟩ := Option.ite_none_right_eq_some.mp h
      cases h
      exact wf.arrive hsent
  | foreign p =>
      obtain ⟨hp, h⟩ := Option.ite_none_left_eq_some.mp h
      cases h
      exact wf.foreign (Bool.eq_false_of_not_eq_true hp)

/-- Each request that has arrived was sent for a claim of its own. -/
theorem countP_le (wf : WireWf deliveries cfg s w) (job : Uuid) :
    (w.arrived.countP fun h => h.job = job) ≤ s.claims.countP fun c => c.job = job := by
  have hclaims : (s.claims.countP fun c => c.job = job) =
      ((s.claims.filter fun c => c.job = job).map (·.lease)).length := by
    rw [List.countP_eq_length_filter, List.length_map]
  rw [hclaims, List.countP_eq_length_filter, ← List.length_map (·.lease)]
  have hnodup : ((w.arrived.filter fun h => h.job = job).map (·.lease)).Nodup := by
    have harrived := wf.distinct
    rw [List.map_append] at harrived
    exact (List.nodup_append.mp harrived).2.1.sublist (List.filter_sublist.map _)
  refine (hnodup.subperm fun l hl => ?_).length_le
  obtain ⟨h, hh, rfl⟩ := List.mem_map.mp hl
  obtain ⟨hmem, hjob⟩ := List.mem_filter.mp hh
  obtain ⟨-, c, hc, hcjob, hlease⟩ := wf.claimed h (List.mem_append_right _ hmem)
  refine List.mem_map.mpr ⟨c, List.mem_filter.mpr ⟨hc, ?_⟩, hlease⟩
  rw [hcjob]
  exact hjob

end WireWf

/-- How often a job took effect at the receiver. -/
def effects (w : Wire) (job : Uuid) : Nat := w.log.countP fun e => e.1.jobId = uuidOut job && e.2.isFirst

/-- A delivery takes effect at most once, however often the job is attempted, by whichever workers, and exactly
once if its row says 'succeeded', whether or not stale owners are fenced out. The receiver gets it no more often
than it was claimed. -/
theorem effect_exactly_once {ok : State × Wire → WireAct → Prop}
    (hrun : Run (step deliveries cfg) ok (.init, start) (s, w)) (hjob : deliveries job = true) :
    w.effects job ≤ 1 ∧ (∀ r, s.db.row job = some r → r.status = .succeeded → w.effects job = 1) ∧
      w.log.count (uuidOut job) ≤ s.claims.countP fun c => c.job = job := by
  have wf : WireWf deliveries cfg s w := hrun.invariant (P := fun q => WireWf deliveries cfg q.1 q.2) .init
    fun _ _ _ wf _ h => wf.step h
  have hfirst : w.effects job = if uuidOut job ∈ w.log.applied then 1 else 0 :=
    Receiver.countP_isFirst wf.remembers.answered
  refine ⟨?_, fun r hrow hst => ?_, ?_⟩
  · rw [hfirst]
    split <;> decide
  · rw [hfirst, if_pos ((wf.applied job hjob).mpr (wf.succeeded job r hrow hst hjob))]
  · rw [wf.counted job hjob]
    exact wf.countP_le job

/-- A cue for the rest of the system, a worker whose handler issues its `fetch`, or the request that was sent
first. -/
private def resolveWire (q : State × Wire) : Cue ⊕ Option WorkerId → Option WireAct
  | .inl cue => (resolve q.1 cue).map .other
  | .inr (some w) => (q.1.execs.find? fun e => e.worker = w).map .fetch
  | .inr none => q.2.sent.getLast?.map .arrive

/-- A worker dies while its request is on the way, another one attempts the job again, and both requests arrive. -/
private def twice : List (Cue ⊕ Option WorkerId) :=
  (Script.start ['a'] ++ Script.submit (Script.job 1) ++ Script.takes ['a'] 2).map .inl ++ [.inr (some ['a'])] ++
    (Script.dies ['a'] ++ .act .startSched :: Script.reaps ['a'] 6 ++ Script.start ['b'] ++
      Script.takes ['b'] 2).map .inl ++
      [.inr (some ['b']), .inr none, .inr none] ++ (List.replicate 5 (.work ['b'] .returned)).map .inl

theorem effect_exactly_once_twice : ∃ s w,
    Run (step (fun job => job = Script.job 1) Script.defaults) always (.init, start) (s, w) ∧
      w.log.count (uuidOut (Script.job 1)) = 2 ∧ w.effects (Script.job 1) = 1 := by
  have hplay : ∃ q, Run (step (fun job => job = Script.job 1) Script.defaults) (fun _ _ => True) (.init, start) q ∧
      (q.1.db.row (Script.job 1)).any (fun r => r.status = .succeeded) = true ∧
        q.2.log.count (uuidOut (Script.job 1)) = 2 :=
    exists_run_of_perform (f := resolveWire) twice (by decide +kernel)
  obtain ⟨⟨s, w⟩, hrun, hrow, hcount⟩ := hplay
  obtain ⟨r, hr, hst⟩ := (Option.any_eq_true _ _).mp hrow
  obtain ⟨-, honce, -⟩ := effect_exactly_once hrun (decide_eq_true rfl)
  exact ⟨s, w, hrun, hcount, honce r hr (of_decide_eq_true hst)⟩

end Wire

end QueueFlow
