-- SUMMARY: The copies of an id in a state of the system, each at the place where it is, and what counting them says.
import QueueFlow.Ledger.Rules
import QueueFlow.Recovery.World
import QueueFlow.Fencing.Lease

/-!
# Copies of an id

`State.tokens` lists every copy of a job's id: one for each entry of a list that
names the job, for its member of the delayed set, and for each thread that has the
id in hand.
-/

namespace QueueFlow

open Marking

/-- A copy at `p` if the id names the job. -/
def idAt (p : Place) (job : Uuid) (id : Text) : List Place :=
  if uuidIn id = some job then [p] else []

def Phase.place : Phase → Place
  | .taken => .taken
  | .owning _ => .owning
  | .parked _ => .parked
  | .finished => .finished

def Exec.places (job : Uuid) (e : Exec) : List Place := idAt e.pc.phase.place job e.id

def Sched.places (job : Uuid) : Sched → List Place
  | .promoteUpdate id _ => idAt .updating job id
  | .promotePush id _ => idAt .promoting job id
  | .reapBury _ id _ => idAt .judged job id
  | .reapRequeue _ id _ => idAt .judged job id
  | .reapMove _ id _ => idAt .rescued job id
  | _ => []

def Api.places (job : Uuid) : Api → List Place
  | .push _ id => idAt .submitting job id
  | _ => []

namespace State

/-- The copy in the delayed set. -/
def delayedAt (r : Redis) (job : Uuid) : List Place :=
  if r.isDelayed (uuidOut job) then [.delayed] else []

/-- Every copy of the id, by the place where it is. -/
def tokens (s : State) (job : Uuid) : List Place :=
  s.redis.pending.flatMap (idAt .pending job) ++
    (s.redis.processing.flatMap (fun k => idAt .listed job k.2) ++
      (delayedAt s.redis job ++
        (s.execs.flatMap (Exec.places job) ++
          (s.scheds.flatMap (Sched.places job) ++ s.apis.flatMap (Api.places job)))))

/-- What the rows, the lists and the threads say about one job. -/
def ledger (s : State) (job : Uuid) : Ledger where
  status := (s.db.row job).map (·.status)
  effects := s.db.effectsFor job
  tokens := s.tokens job

end State

variable {cfg : Config} {s s' : State} {job : Uuid} {p : Place} {id : Text} {e : Exec}
  {out into : List Place}

@[simp] theorem idAt_of_names (h : uuidIn id = some job) : idAt p job id = [p] := if_pos h

@[simp] theorem idAt_of_not (h : uuidIn id ≠ some job) : idAt p job id = [] := if_neg h

/-! ## What a count says -/

theorem mem_idAt {q : Place} : q ∈ idAt p job id ↔ q = p ∧ uuidIn id = some job := by
  by_cases h : uuidIn id = some job <;> simp [idAt, h]

theorem Exec.places_of_names (h : uuidIn e.id = some job) :
    e.places job = [e.pc.phase.place] := if_pos h

theorem Exec.places_of_not (h : uuidIn e.id ≠ some job) : e.places job = [] := if_neg h

theorem State.mem_tokens : p ∈ s.tokens job ↔
    (∃ id ∈ s.redis.pending, p ∈ idAt .pending job id) ∨
    (∃ k ∈ s.redis.processing, p ∈ idAt .listed job k.2) ∨
    p ∈ delayedAt s.redis job ∨
    (∃ e ∈ s.execs, p ∈ e.places job) ∨ (∃ σ ∈ s.scheds, p ∈ σ.places job) ∨
    ∃ a ∈ s.apis, p ∈ a.places job := by
  simp only [State.tokens, List.mem_append, List.mem_flatMap]

/-- A member of a component that puts a copy at a place makes the count positive. -/
theorem State.count_pos (h : p ∈ s.tokens job) : 0 < (s.ledger job).count p :=
  List.count_pos_iff.mpr h

theorem count_pos_of_exec (he : e ∈ s.execs) (hid : uuidIn e.id = some job)
    (hp : e.pc.phase.place = p) : 0 < (s.ledger job).count p :=
  State.count_pos (State.mem_tokens.mpr
    (.inr (.inr (.inr (.inl ⟨e, he, by simp [Exec.places_of_names hid, hp]⟩)))))

theorem count_pos_of_sched {σ : Sched} (hσ : σ ∈ s.scheds) (hp : p ∈ σ.places job) :
    0 < (s.ledger job).count p :=
  State.count_pos (State.mem_tokens.mpr (.inr (.inr (.inr (.inr (.inl ⟨σ, hσ, hp⟩))))))

private theorem count_idAt {α : Type*} {f : α → Text} {l : List α} :
    (l.flatMap fun a => idAt p job (f a)).count p = l.countP fun a => uuidIn (f a) = some job := by
  induction l with
  | nil => rfl
  | cons a l ih =>
    rw [List.flatMap_cons, List.count_append, ih, List.countP_cons]
    by_cases h : uuidIn (f a) = some job
    · simp [idAt, h, Nat.add_comm]
    · simp [idAt, h]

private theorem count_flatMap_eq_zero {α : Type*} {f : α → List Place} {l : List α}
    (h : ∀ a ∈ l, p ∉ f a) : (l.flatMap f).count p = 0 :=
  List.count_eq_zero.mpr fun hmem => by
    obtain ⟨a, ha, hp⟩ := List.mem_flatMap.mp hmem
    exact h a ha hp

/-- The places where the copies of executions are. -/
def Place.ofExec : Place → Bool
  | .taken | .owning | .parked | .finished => true
  | _ => false

/-- The places where the copies of schedulers are. -/
def Place.ofSched : Place → Bool
  | .updating | .promoting | .judged | .rescued => true
  | _ => false

theorem Exec.ofExec_of_mem_places (h : p ∈ e.places job) : p.ofExec = true := by
  obtain ⟨rfl, -⟩ := mem_idAt.mp h
  cases e.pc.phase <;> rfl

theorem Sched.ofSched_of_mem_places {σ : Sched} (h : p ∈ σ.places job) : p.ofSched = true := by
  cases σ <;> first | cases h | exact (mem_idAt.mp h).1 ▸ rfl

theorem Api.submitting_of_mem_places {a : Api} (h : p ∈ a.places job) : p = .submitting := by
  cases a <;> first | cases h | exact (mem_idAt.mp h).1

theorem State.delayed_of_mem_delayedAt {r : Redis} (h : p ∈ State.delayedAt r job) :
    p = .delayed := by
  unfold State.delayedAt at h
  split at h
  · exact List.mem_singleton.mp h
  · cases h

private theorem count_pendings (h : p ≠ .pending) :
    (s.redis.pending.flatMap (idAt .pending job)).count p = 0 :=
  count_flatMap_eq_zero fun _ _ hp => h (mem_idAt.mp hp).1

private theorem count_listeds (h : p ≠ .listed) :
    (s.redis.processing.flatMap fun k => idAt .listed job k.2).count p = 0 :=
  count_flatMap_eq_zero fun _ _ hp => h (mem_idAt.mp hp).1

private theorem count_delayedAt (h : p ≠ .delayed) : (State.delayedAt s.redis job).count p = 0 :=
  List.count_eq_zero.mpr fun hp => h (State.delayed_of_mem_delayedAt hp)

theorem count_execPlaces (h : p.ofExec = false) :
    (s.execs.flatMap (Exec.places job)).count p = 0 :=
  count_flatMap_eq_zero fun e _ hp => by
    rw [Exec.ofExec_of_mem_places hp] at h
    cases h

private theorem count_schedPlaces (h : p.ofSched = false) :
    (s.scheds.flatMap (Sched.places job)).count p = 0 :=
  count_flatMap_eq_zero fun e _ hp => by
    rw [Sched.ofSched_of_mem_places hp] at h
    cases h

private theorem count_apiPlaces (h : p ≠ .submitting) :
    (s.apis.flatMap (Api.places job)).count p = 0 :=
  count_flatMap_eq_zero fun _ _ hp => h (Api.submitting_of_mem_places hp)

namespace State

private theorem count_eq : (s.ledger job).count p =
    (s.redis.pending.flatMap (idAt .pending job)).count p +
      ((s.redis.processing.flatMap fun k => idAt .listed job k.2).count p +
        ((delayedAt s.redis job).count p + ((s.execs.flatMap (Exec.places job)).count p +
          ((s.scheds.flatMap (Sched.places job)).count p +
            (s.apis.flatMap (Api.places job)).count p)))) := by
  simp only [Ledger.count, ledger, tokens, List.count_append]

/-- When only the executions change, only their copies do. -/
theorem count_of_execs {s' : State} (hredis : s'.redis = s.redis) (hscheds : s'.scheds = s.scheds)
    (hapis : s'.apis = s.apis) : (s'.ledger job).count p + (s.execs.flatMap (Exec.places job)).count p =
      (s.ledger job).count p + (s'.execs.flatMap (Exec.places job)).count p := by
  rw [count_eq, count_eq, hredis, hscheds, hapis]
  omega

/-- The copies of executions are counted over the executions. -/
theorem count_ofExec (h : p.ofExec = true) :
    (s.ledger job).count p = (s.execs.flatMap (Exec.places job)).count p := by
  have hne (q : Place) (hq : q.ofExec = false) : p ≠ q := by
    rintro rfl
    rw [h] at hq
    cases hq
  have hsched : p.ofSched = false := by cases p <;> first | rfl | cases h
  rw [count_eq, count_pendings (hne _ rfl), count_listeds (hne _ rfl), count_delayedAt (hne _ rfl),
    count_schedPlaces hsched, count_apiPlaces (hne _ rfl)]
  omega

theorem count_ofSched (h : p.ofSched = true) :
    (s.ledger job).count p = (s.scheds.flatMap (Sched.places job)).count p := by
  have hne (q : Place) (hq : q.ofSched = false) : p ≠ q := by
    rintro rfl
    rw [h] at hq
    cases hq
  have hexec : p.ofExec = false := by cases p <;> first | rfl | cases h
  rw [count_eq, count_pendings (hne _ rfl), count_listeds (hne _ rfl), count_delayedAt (hne _ rfl),
    count_execPlaces hexec, count_apiPlaces (hne _ rfl)]
  omega

theorem count_listed : (s.ledger job).count .listed =
    s.redis.processing.countP fun k => uuidIn k.2 = some job := by
  have hne (q : Place) (hq : q ≠ .listed) : Place.listed ≠ q := hq.symm
  rw [count_eq, count_pendings (hne _ nofun), count_idAt, count_delayedAt (hne _ nofun),
    count_execPlaces rfl, count_schedPlaces rfl, count_apiPlaces (hne _ nofun)]
  omega

theorem count_pending : (s.ledger job).count .pending =
    s.redis.pending.countP fun id => uuidIn id = some job := by
  have hne (q : Place) (hq : q ≠ .pending) : Place.pending ≠ q := hq.symm
  have hcount : (s.redis.pending.flatMap (idAt .pending job)).count .pending =
      s.redis.pending.countP fun id => uuidIn id = some job := count_idAt (f := fun id => id)
  rw [count_eq, hcount, count_listeds (hne _ nofun), count_delayedAt (hne _ nofun),
    count_execPlaces rfl, count_schedPlaces rfl, count_apiPlaces (hne _ nofun)]
  omega

theorem count_delayed : (s.ledger job).count .delayed = if s.redis.isDelayed (uuidOut job) then 1 else 0 := by
  have hne (q : Place) (hq : q ≠ .delayed) : Place.delayed ≠ q := hq.symm
  rw [count_eq, count_pendings (hne _ (by rintro ⟨⟩)), count_listeds (hne _ (by rintro ⟨⟩)), count_execPlaces rfl,
    count_schedPlaces rfl, count_apiPlaces (hne _ (by rintro ⟨⟩)), delayedAt]
  split <;> rfl

end State

/-- Every execution of the job is at one of the four places. -/
theorem State.count_execs : (s.ledger job).execs = s.execs.countP fun e => uuidIn e.id = some job := by
  simp only [Ledger.execs, State.count_ofExec (p := .taken) rfl,
    State.count_ofExec (p := .owning) rfl, State.count_ofExec (p := .parked) rfl,
    State.count_ofExec (p := .finished) rfl]
  generalize s.execs = l
  induction l with
  | nil => rfl
  | cons e l ih =>
    simp only [List.flatMap_cons, List.count_append, List.countP_cons]
    by_cases h : uuidIn e.id = some job
    · rw [Exec.places_of_names h]
      cases hph : e.pc.phase <;> simp [Phase.place, h] <;> omega
    · rw [Exec.places_of_not h]
      simp [h]
      omega

/-! ## The entries of a job -/

/-- Entries that no execution accounts for leave room in the lists. -/
theorem State.count_of_spares (world : WorldWf s) {ks : List (WorkerId × Text)} (hnodup : ks.Nodup)
    (hks : ∀ k ∈ ks, s.Spare k ∧ uuidIn k.2 = some job) :
    (s.ledger job).execs + ks.length ≤ (s.ledger job).count .listed := by
  rw [State.count_execs, State.count_listed]
  have hall : ks.countP (fun k => uuidIn k.2 = some job) = ks.length :=
    List.countP_eq_length.mpr fun k hk => by simp [(hks k hk).2]
  rw [← hall]
  refine Bag.countP_add_le (f := Exec.key) (fun k => ?_) fun k => uuidIn k.2 = some job
  change s.holders k + _ ≤ s.entries k
  have hone : ks.countP (fun k' => k' = k) ≤ 1 := by
    have := List.nodup_iff_count_le_one.mp hnodup k
    simpa only [List.count, beq_eq_decide] using this
  by_cases hk : k ∈ ks
  · have := (hks k hk).1
    simp only [State.Spare] at this
    omega
  · have hzero : ks.countP (fun k' => k' = k) = 0 := Bag.countP_eq_zero_of_forall fun k' hk' => by
      have hne : ¬ k' = k := by
        rintro rfl
        exact hk hk'
      simp [hne]
    have := world.entries k
    omega

theorem left_of_spare (world : WorldWf s) {k : WorkerId × Text} (hspare : s.Spare k)
    (hid : uuidIn k.2 = some job) : (s.ledger job).Left := by
  exact State.count_of_spares world (List.nodup_singleton k) (by simpa using ⟨hspare, hid⟩)

/-- An entry in the list of a worker that has no running process is spare. -/
theorem spare_of_not_running (world : WorldWf s) {k : WorkerId × Text}
    (hk : k ∈ s.redis.processing) (hw : (s.procs k.1).isRunning = false) : s.Spare k := by
  have hzero : s.holders k = 0 := Bag.countP_eq_zero_of_forall fun e he => by
    have hkey : ¬ e.key = k := by
      rintro rfl
      exact world.no_execs hw e he rfl
    simp [hkey]
  rw [State.Spare, hzero]
  exact Bag.countP_pos_of_mem (p := fun p => decide (p = k)) hk (by simp)

/-- What a reaper judges is an entry that is left behind. -/
theorem left_of_judging (world : WorldWf s) {σ : Sched} (hσ : σ ∈ s.scheds) {k : WorkerId × Text}
    (hk : σ.judging = some k) (hid : uuidIn k.2 = some job) : (s.ledger job).Left := by
  have hgone := world.reaped σ hσ k.1 (Sched.reaping_of_judging hk)
  have hmem := KeyedList.mem_of_last? (world.tail σ hσ k.1 k.2 hk)
  exact left_of_spare world (spare_of_not_running world hmem (by rw [hgone]; rfl)) hid

/-- The scheduler has found the job active, and not yet dealt with its entry. -/
def Sched.hasJudged (job : Uuid) (σ : Sched) : Bool :=
  (σ.places job).any fun p => p = .judged ∨ p = .rescued

theorem Sched.judging_of_hasJudged {σ : Sched} (h : σ.hasJudged job = true) :
    ∃ k, σ.judging = some k ∧ uuidIn k.2 = some job := by
  cases σ <;> simp_all [Sched.hasJudged, Sched.places, Sched.judging, mem_idAt]

private theorem count_judging : (s.ledger job).count .judged + (s.ledger job).count .rescued =
    s.scheds.countP (Sched.hasJudged job) := by
  rw [State.count_ofSched (p := .judged) rfl, State.count_ofSched (p := .rescued) rfl]
  generalize s.scheds = l
  induction l with
  | nil => rfl
  | cons σ l ih =>
    simp only [List.flatMap_cons, List.count_append, List.countP_cons, ← ih]
    have hone : (σ.places job).count .judged + (σ.places job).count .rescued =
        if σ.hasJudged job = true then 1 else 0 := by
      cases σ <;> simp only [Sched.hasJudged, Sched.places, idAt] <;> (try split) <;> rfl
    omega

theorem booked (world : WorldWf s) (job : Uuid) : (s.ledger job).Booked where
  held := by
    exact State.count_of_spares world List.nodup_nil nofun
  judged h := by
    rw [count_judging] at h
    obtain ⟨σ, hσ, hp⟩ := List.countP_pos_iff.mp h
    obtain ⟨k, hk, hid⟩ := Sched.judging_of_hasJudged hp
    exact left_of_judging world hσ hk hid
  single := by
    rw [count_judging]
    refine (List.countP_mono_left fun σ _ hp => ?_).trans world.single
    obtain ⟨k, hk, -⟩ := Sched.judging_of_hasJudged hp
    exact Sched.recovering_of_reaping (Sched.reaping_of_judging hk)

end QueueFlow
