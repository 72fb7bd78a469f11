-- SUMMARY: The outer catch block of processOne with both stores reachable: which errors of a handler are recorded.
import QueueFlow.Script
import QueueFlow.Worker.Moves
import QueueFlow.Shared.Js

/-!
# Recording a failure

The message of an error becomes a parameter of the `UPDATE` that records it. With both stores
reachable, Postgres still rejects one kind of text, and the error of that rejection leaves
`processOne`. Between two commands of the execution the rest of the system may do anything.
-/

namespace QueueFlow

/-! ## Messages -/

/-- The one character that a text in Postgres cannot have. -/
def nul : Char := Char.ofNat 0

/-- `${url} responded ${response.status} after ${elapsed}ms: ${snippet}`, the snippet being the
beginning of the receiver's answer. -/
def respondedMessage (url : Text) (status elapsed : Nat) (body : Text) : Text :=
  url ++ " responded ".toList ++ decimal status ++ " after ".toList ++ decimal elapsed ++ "ms: ".toList ++
    body.take 200

/-- The parameter `last_error` of the next command. -/
def ExecPc.message? : ExecPc → Option Text
  | .bury _ message => some message
  | .park _ message _ => some message
  | _ => none

/-- The next command of an execution, if both stores can be reached. -/
def answered (cfg : Config) (s : State) (e : Exec) : Option State :=
  if e.pc.message?.any (nul ∈ ·) then fails cfg s e false [] Script.noJitter
  else processOne cfg s e .returned

/-! ## What is to be recorded -/

/-- The row has the lease of the execution. -/
def State.HoldsLease (s : State) (h : Holding) : Prop :=
  (s.db.row h.job).bind (·.leaseId) = some h.lease

def State.HasStatus (s : State) (job : Uuid) (status : JobStatus) : Prop :=
  (s.db.row job).map (·.status) = some status

instance (s : State) (h : Holding) : Decidable (s.HoldsLease h) := inferInstanceAs (Decidable (_ = _))

instance (s : State) (job : Uuid) (status : JobStatus) : Decidable (s.HasStatus job status) :=
  inferInstanceAs (Decidable (_ = _))

/-- The execution's command is answered, the execution goes on at `pc`, and `Φ` holds of the state. -/
def GoesOn (cfg : Config) (s : State) (e : Exec) (pc : ExecPc) (Φ : State → Prop) : Prop :=
  ∃ s', answered cfg s e = some s' ∧ s'.execs = Bag.swap s.execs e { e with pc } ∧ Φ s'

/-- Whenever the execution gets to add the job to the delayed set, it does so. -/
def Delays (cfg : Config) (e : Exec) (h : Holding) (runAt : Nat) : Prop :=
  ∀ t : State, { e with pc := .zadd h runAt } ∈ t.execs →
    GoesOn cfg t { e with pc := .zadd h runAt } .release fun t' =>
      (uuidOut h.job, runAt) ∈ t'.redis.delayed

/-- Whenever the execution gets to release its entry, the entry is removed and the execution ends. -/
def Releases (cfg : Config) (e : Exec) : Prop :=
  ∀ t : State, { e with pc := .release } ∈ t.execs →
    ∃ t', answered cfg t { e with pc := .release } = some t' ∧
      t'.execs = t.execs.erase { e with pc := .release } ∧
      t'.redis.lrange e.worker = (t.redis.lrange e.worker).erase e.id

/-- The failure of an execution that is about to issue its `UPDATE` is recorded: the row becomes
`dead`, or `retrying` and the job is delayed, and then the entry is released. -/
def Recorded (cfg : Config) (s : State) (e : Exec) (h : Holding) : Prop :=
  (if h.attempts ≥ h.maxAttempts then GoesOn cfg s e .release fun s' => s'.HasStatus h.job .dead
    else ∃ runAt, GoesOn cfg s e (.zadd h runAt) (fun s' => s'.HasStatus h.job .retrying) ∧
      Delays cfg e h runAt) ∧
  Releases cfg e

/-! ## Commands that are answered -/

variable {cfg : Config} {s t : State} {e : Exec} {h : Holding} {message : Text} {runAt : Nat}

/-- Such a command is one of the system's steps. -/
theorem step_of_answered (he : e ∈ s.execs) (hanswer : answered cfg s e = some t) :
    ∃ a, a.exec? = some e ∧ step cfg s a = some t := by
  rw [answered] at hanswer
  split at hanswer
  · exact ⟨.execFail e false [] Script.noJitter, rfl, by rw [step, if_pos he, hanswer]⟩
  · exact ⟨.exec e .returned, rfl, by rw [step, if_pos he, hanswer]⟩

theorem ownRow_of_holdsLease (cfg : Config) (hlease : s.HoldsLease h) :
    ∃ r, s.db.row h.job = some r ∧ s.ownRow cfg h = some r := by
  obtain ⟨r, hrow, hlease⟩ := Option.bind_eq_some_iff.mp hlease
  refine ⟨r, hrow, ?_⟩
  rw [State.ownRow, hrow, Option.filter_some, if_pos]
  simp [ownsRow, hlease]

theorem hasStatus_write {set : JobRow → JobRow} {status : JobStatus} {r : JobRow}
    (hset : Db.KeepsId set) (hstatus : (set r).status = status) (hrow : s.db.row h.job = some r) :
    (s.write h.job set).HasStatus h.job status :=
  Option.map_eq_some_iff.mpr ⟨set r, Db.row_updateRow_self hset hrow, hstatus⟩

theorem delays : Delays cfg e h runAt := by
  intro t _
  refine ⟨_, rfl, rfl, ?_⟩
  exact Redis.mem_zadd.mpr (.inl rfl)

theorem lrange_lrem {r : Redis} {w : WorkerId} {id : Text} :
    (r.lrem w id).lrange w = (r.lrange w).erase id := by
  rw [lawful_beq_subsingleton List.instBEq instBEqOfDecidableEq]
  exact KeyedList.get_removeLeft_self

theorem releases : Releases cfg e := by
  intro t _
  exact ⟨_, rfl, rfl, lrange_lrem⟩

theorem rejected (hnul : nul ∈ message) (hmessage : e.pc.message? = some message) :
    answered cfg s e = some (s.endExec e) := by
  rw [answered, if_pos (by simp [hmessage, hnul])]
  cases hpc : e.pc with
  | bury h m => simp [fails, hpc]
  | park h m runAt => simp [fails, hpc]
  | _ => simp [hpc, ExecPc.message?] at hmessage

/-! ## Failures that are recorded -/

/-- With a message that Postgres rejects, the execution ends where it should have gone on. -/
theorem not_goesOn (hnul : nul ∈ message) (hmessage : e.pc.message? = some message)
    {pc : ExecPc} {Φ : State → Prop} : ¬ GoesOn cfg s e pc Φ := by
  rintro ⟨s', hs', hexecs, -⟩
  obtain rfl : s.endExec e = s' := Option.some.inj ((rejected hnul hmessage).symm.trans hs')
  have hlen := congrArg List.length hexecs
  rw [State.endExec_execs, Bag.swap, List.length_cons] at hlen
  omega

theorem goesOn_of_bury (hpc : e.pc = .bury h message) (hnul : nul ∉ message) (hlease : s.HoldsLease h)
    (hfree : s.locked h.job = false) :
    GoesOn cfg s e .release fun s' => s'.HasStatus h.job .dead := by
  obtain ⟨r, hrow, hown⟩ := ownRow_of_holdsLease cfg hlease
  refine ⟨(s.write h.job (.buried message s.now)).setExec e .release, ?_, rfl,
    hasStatus_write (Db.keepsId_buried _ _) rfl hrow⟩
  rw [answered, if_neg (by simp [hpc, ExecPc.message?, hnul]), processOne, hpc]
  simp only [hfree, hown, Bool.false_eq_true, if_false]

theorem goesOn_of_park (hpc : e.pc = .park h message runAt) (hnul : nul ∉ message)
    (hlease : s.HoldsLease h) (hfree : s.locked h.job = false) :
    GoesOn cfg s e (.zadd h runAt) fun s' => s'.HasStatus h.job .retrying := by
  obtain ⟨r, hrow, hown⟩ := ownRow_of_holdsLease cfg hlease
  refine ⟨(s.write h.job (.parked message runAt)).setExec e (.zadd h runAt), ?_, rfl,
    hasStatus_write (Db.keepsId_parked _ _) rfl hrow⟩
  rw [answered, if_neg (by simp [hpc, ExecPc.message?, hnul]), processOne, hpc]
  simp only [hfree, hown, Bool.false_eq_true, if_false]

theorem recorded_iff {random : Random} (hcaught : e.pc = caught cfg s h message random)
    (hlease : t.HoldsLease h) (hfree : t.locked h.job = false) : Recorded cfg t e h ↔ nul ∉ message := by
  rw [caught] at hcaught
  rw [Recorded, and_iff_left releases]
  by_cases hlast : h.attempts ≥ h.maxAttempts
  · rw [if_pos hlast] at hcaught ⊢
    constructor
    · intro hgoes hnul
      exact not_goesOn hnul (by rw [hcaught]; rfl) hgoes
    · exact fun hnul => goesOn_of_bury hcaught hnul hlease hfree
  · rw [if_neg hlast] at hcaught ⊢
    constructor
    · rintro ⟨runAt, hgoes, -⟩ hnul
      exact not_goesOn hnul (by rw [hcaught]; rfl) hgoes
    · exact fun hnul => ⟨_, goesOn_of_park hcaught hnul hlease hfree, delays⟩

/-- The error that a handler threw is recorded if and only if its message has no U+0000: the `UPDATE`
comes in any later state in which the execution still holds its lease and the row is not locked. -/
theorem failure_recorded_iff {random : Random} (hpc : e.pc = .handler h)
    (hthrew : step cfg s (.exec e (.threw message random)) = some t) :
    { e with pc := caught cfg s h message random } ∈ t.execs ∧
      ∀ u : State, { e with pc := caught cfg s h message random } ∈ u.execs → u.HoldsLease h →
        u.locked h.job = false → (Recorded cfg u { e with pc := caught cfg s h message random } h ↔ nul ∉ message) := by
  refine ⟨?_, fun u _ hlease hfree => recorded_iff (s := s) rfl hlease hfree⟩
  rw [step] at hthrew
  split at hthrew
  · rw [processOne, hpc] at hthrew
    obtain rfl := Option.some.inj hthrew
    exact Bag.mem_swap_self
  · cases hthrew

open Script in
theorem failure_recorded_iff_threw : ∃ s t, ∃ h : Holding, ∃ e : Exec,
    Reaches defaults (fun _ a => a.isFault = false) s ∧ e.pc = .handler h ∧
      step defaults s (.exec e (.threw "boom".toList noJitter)) = some t ∧
        Recorded defaults t { e with pc := caught defaults s h "boom".toList noJitter } h := by
  let h : Holding := ⟨job 1, 0, 1, 5⟩
  let e : Exec := ⟨['a'], uuidOut (job 1), .handler h⟩
  have hrun : ∃ s, Reaches defaults (fun _ a => a.isFault = false) s ∧
      (step defaults s (.exec e (.threw "boom".toList noJitter))).any
        (fun t => t.HoldsLease h ∧ t.locked h.job = false) = true :=
    exists_run_of_play (start ['a'] ++ submit (job 1) ++ takes ['a'] 2) (by decide +kernel)
  obtain ⟨s, hs, hstep⟩ := hrun
  obtain ⟨t, ht, hholds⟩ := (Option.any_eq_true _ _).mp hstep
  obtain ⟨hlease, hfree⟩ := of_decide_eq_true hholds
  obtain ⟨hmem, hiff⟩ := failure_recorded_iff (h := h) rfl ht
  exact ⟨s, t, h, e, hs, rfl, ht, (hiff t hmem hlease hfree).mpr (by decide)⟩

/-- What a receiver of webhooks answers with. -/
def hookFailure : Text := respondedMessage "https://example.com/hook".toList 500 12 ("oops".toList ++ [nul])

open Script in
/-- A receiver answers 500 with a U+0000 in its text. The worker lives on, and the entry of the job stays
in its list, with a running row and no execution. -/
theorem failure_not_recorded : ∃ s t, ∃ h : Holding, ∃ e : Exec,
    Reaches defaults (fun _ a => a.isFault = false) s ∧ e ∈ s.execs ∧
      e.pc = .park h hookFailure 2000 ∧ s.HoldsLease h ∧ s.locked h.job = false ∧
      ¬ Recorded defaults s e h ∧ answered defaults s e = some t ∧ t.execs = [] ∧
      t.HasStatus h.job .running ∧ e.id ∈ t.redis.lrange e.worker ∧ e.worker ∈ t.redis.alive := by
  let h : Holding := ⟨job 1, 0, 1, 5⟩
  let e : Exec := ⟨['a'], uuidOut (job 1), .park h hookFailure 2000⟩
  have hrun : ∃ s, Reaches defaults (fun _ a => a.isFault = false) s ∧
      (e ∈ s.execs ∧ s.HoldsLease h ∧ s.locked h.job = false) ∧ (answered defaults s e).any (fun t =>
        t.execs = [] ∧ t.HasStatus h.job .running ∧ e.id ∈ t.redis.lrange e.worker ∧
          e.worker ∈ t.redis.alive) = true :=
    exists_run_of_play
      (start ['a'] ++ submit (job 1) ++ takes ['a'] 2 ++
        [.work ['a'] (.threw hookFailure noJitter)])
      (by decide +kernel)
  obtain ⟨s, hs, ⟨he, hlease, hfree⟩, hanswer⟩ := hrun
  obtain ⟨t, ht, hleft⟩ := (Option.any_eq_true _ _).mp hanswer
  refine ⟨s, t, h, e, hs, he, rfl, hlease, hfree, ?_, ht, of_decide_eq_true hleft⟩
  rintro ⟨hgoes, -⟩
  obtain ⟨runAt, hgoes, -⟩ := hgoes
  have hmessage : e.pc.message? = some hookFailure := rfl
  exact not_goesOn (by decide +kernel) hmessage hgoes

end QueueFlow
