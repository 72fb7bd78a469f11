-- SUMMARY: A reaper that takes no live worker for dead: the bookkeeping of processes, processing lists and reap passes that holds in such runs.
import QueueFlow.Frame

/-!
# A steady world

`Steady` is what an operator is expected to provide: heartbeats are accurate enough
that a worker taken for dead is gone, at most one scheduler is in its recovery pass,
and a worker id is not started anew while its old list is being reaped. Workers may
still be killed at any command. In such runs a list that is being reaped has no live owner
(`WorldWf.reaped`), every execution has its own entry in its worker's list
(`WorldWf.entries`), and the reaper's verdict stands (`WorldWf.tail`).
-/

namespace QueueFlow

open Transition

/-- The entry of a processing list that belongs to an execution. -/
def Exec.key (e : Exec) : WorkerId × Text := (e.worker, e.id)

/-- How many executions have the entry `k`. -/
def State.holders (s : State) (k : WorkerId × Text) : Nat := s.execs.countP fun e => e.key = k

/-- How many copies of the entry `k` there are. -/
def State.entries (s : State) (k : WorkerId × Text) : Nat := s.redis.processing.countP fun p => p = k

theorem entries_eq_count {s : State} {k : WorkerId × Text} :
    s.entries k = (s.redis.lrange k.1).count k.2 := by
  have hcount := KeyedList.count_get (l := s.redis.processing) (k := k.1) (a := k.2)
  rw [State.entries, ← hcount, Redis.lrange]
  exact List.countP_congr fun id _ => by simp

/-- What the scheduler may rely on when it takes a worker for dead. -/
def Steady (s : State) : Act → Prop
  | .spawn w _ => s.procs w = .fresh ∨ ∀ σ ∈ s.scheds, σ.reaping ≠ some w
  | .recoverOwn w deadline => deadline = true → w ∉ s.redis.alive
  | .sched (.reapCheck (key :: _)) _ => key ∈ s.redis.alive ∨ s.procs key = .gone
  | .sched .idle .recover => ∀ σ ∈ s.scheds, σ.recovering = false
  | _ => True

instance (s : State) (a : Act) : Decidable (Steady s a) := by
  induction a using Act.casesOn with
  | spawn => exact inferInstanceAs (Decidable (_ ∨ ∀ _ ∈ _, _))
  | recoverOwn => exact inferInstanceAs (Decidable (_ → _))
  | sched σ pick =>
      induction σ using Sched.casesOn with
      | reapCheck keys =>
          induction keys using List.casesOn with
          | nil => exact .isTrue trivial
          | cons => exact inferInstanceAs (Decidable (_ ∨ _))
      | idle =>
          induction pick using Pick.casesOn with
          | recover => exact inferInstanceAs (Decidable (∀ _ ∈ _, _))
          | _ => exact .isTrue trivial
      | _ => exact .isTrue trivial
  | _ => exact .isTrue trivial

/-- The bookkeeping of a steady world. -/
structure WorldWf (s : State) : Prop where
  /-- Every execution has an entry of its own in its worker's list. -/
  entries : ∀ k, s.holders k ≤ s.entries k
  /-- Executions belong to running processes. -/
  hosted : ∀ e ∈ s.execs, (s.procs e.worker).isRunning = true
  /-- An execution that may still write works on an id that passes the test. -/
  accepted : ∀ e ∈ s.execs, e.pc.phase ≠ .finished → isUuid e.id = true
  /-- A list that is being reaped is one that a process has left behind. -/
  reaped : ∀ σ ∈ s.scheds, ∀ w, σ.reaping = some w → s.procs w = .gone
  single : s.scheds.countP Sched.recovering ≤ 1
  /-- The entry that the reaper judges is the tail of the list. -/
  tail : ∀ σ ∈ s.scheds, ∀ w id, σ.judging = some (w, id) →
    KeyedList.last? s.redis.processing w = some id
  /-- A starting process resets the jobs that its list names. -/
  stranded : ∀ w ids c, s.procs w = .starting (.reset ids) c →
    ids = (s.redis.lrange w).filter isUuid

theorem Sched.recovering_of_reaping {σ : Sched} {w : WorkerId} (h : σ.reaping = some w) :
    σ.recovering = true := by
  cases σ <;> first | rfl | cases h

theorem Sched.reaping_of_judging {σ : Sched} {w : WorkerId} {id : Text}
    (h : σ.judging = some (w, id)) : σ.reaping = some w := by
  cases σ <;> simp_all [Sched.judging, Sched.reaping]

namespace WorldWf

variable {cfg : Config} {s s' : State}

theorem init : WorldWf .init where
  entries _ := Nat.zero_le _
  hosted := nofun
  accepted := nofun
  reaped := nofun
  single := Nat.zero_le _
  tail := nofun
  stranded _ _ _ h := by cases h

/-! ## Consequences -/

theorem entry_mem (wf : WorldWf s) {e : Exec} (he : e ∈ s.execs) :
    (e.worker, e.id) ∈ s.redis.processing := by
  have hpos : 0 < s.holders e.key :=
    Bag.countP_pos_of_mem (p := fun e' : Exec => decide (e'.key = e.key)) he (by simp)
  obtain ⟨p, hp, heq⟩ := List.countP_pos_iff.mp (hpos.trans_le (wf.entries e.key))
  obtain rfl : p = e.key := by simpa using heq
  exact hp

/-- A worker without a running process has no executions. -/
theorem no_execs (wf : WorldWf s) {w : WorkerId} (hw : (s.procs w).isRunning = false) :
    ∀ e ∈ s.execs, e.worker ≠ w := by
  rintro e he rfl
  rw [wf.hosted e he] at hw
  cases hw

/-- No other scheduler is in its recovery pass. -/
theorem others_rest (wf : WorldWf s) {σ : Sched} (hσ : σ ∈ s.scheds)
    (hrσ : σ.recovering = true) : ∀ τ ∈ s.scheds.erase σ, τ.recovering = false := by
  intro τ hτ
  by_contra hrτ
  have hrτ : τ.recovering = true := by simpa using hrτ
  have hcount := Bag.countP_erase_add (p := Sched.recovering) hσ
  have hpos := Bag.countP_pos_of_mem hτ hrτ
  have hsingle := wf.single
  simp only [Bag.unit, hrσ, if_true] at hcount
  omega

/-! ## Operations on the state -/

/-- Nothing that the bookkeeping mentions has changed. -/
theorem same (wf : WorldWf s) (hexecs : s'.execs = s.execs)
    (hprocessing : s'.redis.processing = s.redis.processing)
    (hprocs : s'.procs = s.procs) (hscheds : s'.scheds = s.scheds) : WorldWf s' := by
  obtain ⟨h1, h2, h3, h4, h5, h6, h7⟩ := wf
  simp only [State.holders, State.entries, Redis.lrange] at h1 h7
  constructor <;>
    simpa only [State.holders, State.entries, Redis.lrange, hexecs, hprocessing, hprocs, hscheds]

theorem write (wf : WorldWf s) {job : Uuid} {set : JobRow → JobRow} : WorldWf (s.write job set) :=
  wf.same rfl rfl rfl rfl

theorem claim (wf : WorldWf s) {e : Exec} {job : Uuid} : WorldWf (s.claim e job) :=
  wf.same rfl rfl rfl rfl

theorem settle (wf : WorldWf s) {e : Exec} {h : Holding} {began : Nat} :
    WorldWf (s.settle e h began) :=
  wf.same rfl rfl rfl rfl

theorem zadd (wf : WorldWf s) {score : Nat} {id : Text} :
    WorldWf (s.withRedis (s.redis.zadd score id)) :=
  wf.same rfl rfl rfl rfl

theorem zrem (wf : WorldWf s) {id : Text} : WorldWf (s.withRedis (s.redis.zrem id)) :=
  wf.same rfl rfl rfl rfl

theorem lpush (wf : WorldWf s) {id : Text} : WorldWf (s.withRedis (s.redis.lpush id)) :=
  wf.same rfl rfl rfl rfl

theorem rpush (wf : WorldWf s) {id : Text} : WorldWf (s.withRedis (s.redis.rpush id)) :=
  wf.same rfl rfl rfl rfl

/-- An execution moves; once finished it does not come back. -/
theorem setExec (wf : WorldWf s) {e : Exec} {pc : ExecPc} (he : e ∈ s.execs)
    (hphase : pc.phase ≠ .finished → e.pc.phase ≠ .finished) : WorldWf (s.setExec e pc) := by
  refine ⟨fun k => ?_, ?_, ?_, wf.reaped, wf.single, wf.tail, wf.stranded⟩
  · have hsame : (s.setExec e pc).holders k = s.holders k :=
      Bag.countP_swap_eq (p := fun e' : Exec => decide (e'.key = k)) he rfl
    rw [hsame]
    exact wf.entries k
  · intro e' he'
    rcases Bag.mem_of_mem_swap he' with rfl | he'
    · exact wf.hosted e he
    · exact wf.hosted e' he'
  · intro e' he' hne
    rcases Bag.mem_of_mem_swap he' with rfl | he'
    · exact wf.accepted e he (hphase hne)
    · exact wf.accepted e' he' hne

/-- An execution takes its own entry off the list and ends. -/
theorem letGo (wf : WorldWf s) {e : Exec} (he : e ∈ s.execs) :
    WorldWf ((s.withRedis (s.redis.lrem e.worker e.id)).endExec e) := by
  have hrunning := wf.hosted e he
  have hne : ∀ w, (s.procs w).isRunning = false → w ≠ e.worker := by
    rintro w hw rfl
    rw [hrunning] at hw
    cases hw
  refine ⟨fun k => ?_, fun e' he' => wf.hosted e' (List.mem_of_mem_erase he'),
    fun e' he' => wf.accepted e' (List.mem_of_mem_erase he'), wf.reaped,
    wf.single, ?_, ?_⟩
  · have h1 := Bag.countP_erase_add (p := fun e' : Exec => decide (e'.key = k)) he
    have h2 := KeyedList.countP_removeLeft (p := fun p => decide (p = k)) (wf.entry_mem he)
    have h3 := wf.entries k
    have hunit : Bag.unit (fun e' : Exec => decide (e'.key = k)) e =
        Bag.unit (fun p : WorkerId × Text => decide (p = k)) (e.worker, e.id) := rfl
    change (s.execs.erase e).countP (fun e' => e'.key = k) ≤
      (KeyedList.removeLeft s.redis.processing e.worker e.id).countP (fun p => p = k)
    simp only [State.holders, State.entries] at h3
    omega
  · intro σ hσ w id hjudging
    have hw := wf.reaped σ hσ w (Sched.reaping_of_judging hjudging)
    exact (KeyedList.last?_removeLeft_ne (hne w (by rw [hw]; rfl))).trans (wf.tail σ hσ w id hjudging)
  · intro w ids c hp
    have hp' : (s.procs w).isRunning = false := by
      have : s.procs w = .starting (.reset ids) c := hp
      rw [this]; rfl
    have hlist : KeyedList.get (KeyedList.removeLeft s.redis.processing e.worker e.id) w =
        KeyedList.get s.redis.processing w := KeyedList.get_removeLeft_ne (hne w hp')
    exact (wf.stranded w ids c hp).trans (congrArg (List.filter isUuid) hlist.symm)

/-- An execution ends and leaves its entry behind. -/
theorem endExec (wf : WorldWf s) {e : Exec} : WorldWf (s.endExec e) where
  entries k := (List.erase_sublist.countP_le).trans (wf.entries k)
  hosted e' he' := wf.hosted e' (List.mem_of_mem_erase he')
  accepted e' he' := wf.accepted e' (List.mem_of_mem_erase he')
  reaped := wf.reaped
  single := wf.single
  tail := wf.tail
  stranded := wf.stranded

/-- `BLMOVE`: an entry and its execution appear together. -/
theorem take (wf : WorldWf s) {w : WorkerId} {c : Nat} {id : Text} {rest : List Text}
    (hp : s.procs w = .running c) :
    WorldWf ((s.withRedis { s.redis with
      pending := rest,
      processing := KeyedList.pushLeft s.redis.processing w id }).addExec
        ⟨w, id, if isUuid id then .select else .discard⟩) := by
  refine ⟨fun k => ?_, ?_, ?_, wf.reaped, wf.single, ?_, ?_⟩
  · have h := wf.entries k
    simp only [State.holders, State.entries, State.addExec_execs, State.addExec_redis,
      State.withRedis_redis, State.withRedis_execs, KeyedList.countP_pushLeft,
      Bag.countP_cons_unit] at h ⊢
    exact Nat.add_le_add h (le_of_eq rfl)
  · intro e he
    rcases List.mem_cons.mp he with rfl | he
    · simp [hp, Proc.isRunning]
    · exact wf.hosted e he
  · intro e he hne
    rcases List.mem_cons.mp he with rfl | he
    · by_contra hid
      simp [hid, ExecPc.phase] at hne
    · exact wf.accepted e he hne
  · intro σ hσ w' id' hjudging
    exact KeyedList.last?_pushLeft (wf.tail σ hσ w' id' hjudging)
  · intro w' ids c' hp'
    have hne : w' ≠ w := by
      rintro rfl
      cases hp.symm.trans hp'
    have hlist : KeyedList.get (KeyedList.pushLeft s.redis.processing w id) w' =
        KeyedList.get s.redis.processing w' := KeyedList.get_pushLeft_ne hne
    exact (wf.stranded w' ids c' hp').trans (congrArg (List.filter isUuid) hlist.symm)

/-- A process is gone, and its executions with it. -/
theorem kill (wf : WorldWf s) {w : WorkerId} : WorldWf ((s.setProc w .gone).dropExecs w) := by
  have hprocs : ∀ w', (s.setProc w .gone).procs w' = if w' = w then .gone else s.procs w' :=
    fun w' => by simp [Function.update_apply]
  refine ⟨fun k => ?_, ?_, fun e he => wf.accepted e (List.mem_of_mem_filter he), ?_,
    wf.single, wf.tail, ?_⟩
  · exact (List.filter_sublist.countP_le).trans (wf.entries k)
  · intro e he
    obtain ⟨he, hne⟩ := List.mem_filter.mp he
    have hne : e.worker ≠ w := by simpa using hne
    rw [State.dropExecs_procs, hprocs, if_neg hne]
    exact wf.hosted e he
  · intro σ hσ w' hw'
    rw [State.dropExecs_procs, hprocs]
    split
    · rfl
    · exact wf.reaped σ hσ w' hw'
  · intro w' ids c hw'
    rw [State.dropExecs_procs, hprocs] at hw'
    split at hw'
    · cases hw'
    · exact wf.stranded w' ids c hw'

/-- A scheduler moves to a point that the bookkeeping vouches for. -/
theorem setSched (wf : WorldWf s) {σ σ' : Sched} (hσ : σ ∈ s.scheds)
    (hreap : ∀ w, σ'.reaping = some w → σ.reaping = some w ∨ s.procs w = .gone)
    (hrec : σ'.recovering = true → σ.recovering = true ∨ ∀ τ ∈ s.scheds, τ.recovering = false)
    (htail : ∀ w id, σ'.judging = some (w, id) →
      KeyedList.last? s.redis.processing w = some id) : WorldWf (s.setSched σ σ') := by
  refine ⟨wf.entries, wf.hosted, wf.accepted, ?_, ?_, ?_, wf.stranded⟩
  · intro τ hτ w hw
    rcases Bag.mem_of_mem_swap hτ with rfl | hτ
    · rcases hreap w hw with hr | hr
      · exact wf.reaped σ hσ w hr
      · exact hr
    · exact wf.reaped τ hτ w hw
  · have hcount := Bag.countP_swap (p := Sched.recovering) (b := σ') hσ
    have hsingle := wf.single
    change (Bag.swap s.scheds σ σ').countP Sched.recovering ≤ 1
    cases hr' : σ'.recovering with
    | false =>
        simp only [Bag.unit, hr', Bool.false_eq_true, if_false] at hcount
        omega
    | true =>
        rcases hrec hr' with hr | hall
        · simp only [Bag.unit, hr, hr', if_true] at hcount
          omega
        · have hzero := Bag.countP_eq_zero_of_forall (p := Sched.recovering) hall
          simp only [Bag.unit, hr', if_true] at hcount
          omega
  · intro τ hτ w id hjudging
    rcases Bag.mem_of_mem_swap hτ with rfl | hτ
    · exact htail w id hjudging
    · exact wf.tail τ hτ w id hjudging

theorem endSched (wf : WorldWf s) {σ : Sched} : WorldWf (s.endSched σ) where
  entries := wf.entries
  hosted := wf.hosted
  accepted := wf.accepted
  reaped τ hτ := wf.reaped τ (List.mem_of_mem_erase hτ)
  single := (List.erase_sublist.countP_le).trans wf.single
  tail τ hτ := wf.tail τ (List.mem_of_mem_erase hτ)
  stranded := wf.stranded

theorem addSched (wf : WorldWf s) : WorldWf (s.addSched .idle) := by
  refine ⟨wf.entries, wf.hosted, wf.accepted, ?_, ?_, ?_, wf.stranded⟩
  · intro σ hσ
    rcases List.mem_cons.mp hσ with rfl | hσ
    · exact nofun
    · exact wf.reaped σ hσ
  · have : (s.addSched .idle).scheds.countP Sched.recovering = s.scheds.countP Sched.recovering :=
      List.countP_cons_of_neg (by simp [Sched.recovering])
    rw [this]
    exact wf.single
  · intro σ hσ
    rcases List.mem_cons.mp hσ with rfl | hσ
    · exact nofun
    · exact wf.tail σ hσ

/-- An entry is taken off the right end of a list that nobody judges and that no
running process owns. -/
theorem dropEntry (wf : WorldWf s) {w : WorkerId} {id : Text} {pending : List Text}
    (hw : (s.procs w).isRunning = false)
    (hreset : ∀ ids c, s.procs w ≠ .starting (.reset ids) c)
    (hjudged : ∀ σ ∈ s.scheds, ∀ id', σ.judging ≠ some (w, id')) :
    WorldWf (s.withRedis { s.redis with
      pending := pending, processing := KeyedList.removeRight s.redis.processing w id }) := by
  refine ⟨fun k => ?_, wf.hosted, wf.accepted, wf.reaped, wf.single, ?_, ?_⟩
  · by_cases hk : k.1 = w
    · -- The worker is not running, so none of its entries has an execution.
      have hzero : s.holders k = 0 := Bag.countP_eq_zero_of_forall fun e he => by
        have hne := wf.no_execs hw e he
        have hkey : ¬ e.key = k := by
          rintro rfl
          exact hne hk
        simp [hkey]
      change s.holders k ≤ _
      omega
    · have hne : ¬ (w, id) = k := by
        rintro rfl
        exact hk rfl
      have hsame : (KeyedList.removeRight s.redis.processing w id).countP (fun p => decide (p = k)) =
          s.entries k := KeyedList.countP_removeRight_of_not (by simp [hne])
      change s.holders k ≤ (KeyedList.removeRight s.redis.processing w id).countP (fun p => p = k)
      rw [hsame]
      exact wf.entries k
  · intro σ hσ w' id' hjudging
    have hne : w' ≠ w := by
      rintro rfl
      exact hjudged σ hσ id' hjudging
    exact (KeyedList.last?_removeRight_ne hne).trans (wf.tail σ hσ w' id' hjudging)
  · intro w' ids c hp
    have hne : w' ≠ w := by
      rintro rfl
      exact hreset ids c hp
    have hlist : KeyedList.get (KeyedList.removeRight s.redis.processing w id) w' =
        KeyedList.get s.redis.processing w' := KeyedList.get_removeRight_ne hne
    exact (wf.stranded w' ids c hp).trans (congrArg (List.filter isUuid) hlist.symm)

/-- A process of an id that no reap pass is working on starts or goes on. -/
theorem setProc (wf : WorldWf s) {w : WorkerId} {p : Proc}
    (hnone : ∀ e ∈ s.execs, e.worker ≠ w)
    (hreap : ∀ σ ∈ s.scheds, σ.reaping ≠ some w)
    (hreset : ∀ ids c, p = .starting (.reset ids) c → ids = (s.redis.lrange w).filter isUuid) :
    WorldWf (s.setProc w p) := by
  have hprocs : ∀ w', (s.setProc w p).procs w' = if w' = w then p else s.procs w' :=
    fun w' => by simp [Function.update_apply]
  refine ⟨wf.entries, ?_, wf.accepted, ?_, wf.single, wf.tail, ?_⟩
  · intro e he
    rw [hprocs, if_neg (hnone e he)]
    exact wf.hosted e he
  · intro σ hσ w' hr
    have hne : w' ≠ w := by
      rintro rfl
      exact hreap σ hσ hr
    rw [hprocs, if_neg hne]
    exact wf.reaped σ hσ w' hr
  · intro w' ids c hp
    rw [hprocs] at hp
    split at hp
    · rename_i heq
      subst heq
      exact hreset ids c hp
    · exact wf.stranded w' ids c hp

theorem beat (wf : WorldWf s) {w : WorkerId} : WorldWf (s.withRedis (s.redis.beat w)) :=
  wf.same rfl rfl rfl rfl

/-! ## Steps -/

theorem execMove (wf : WorldWf s) {e : Exec} (he : e ∈ s.execs) (h : ExecMove cfg s e s') :
    WorldWf s' := by
  cases h with
  | letGo => exact wf.letGo he
  | rejected hpc hid =>
      -- The id passed the test, so Postgres reads it.
      obtain ⟨job, hjob⟩ := uuidIn_of_isUuid (wf.accepted e he (by rw [hpc]; nofun))
      rw [hid] at hjob
      cases hjob
  | found job r hpc => exact wf.setExec he fun _ => by rw [hpc]; nofun
  | missing | notClaimable | fenced => exact wf.setExec he fun h => absurd rfl h
  | claimed job m r hpc =>
      exact wf.claim.setExec he fun _ => by rw [hpc]; nofun
  | work h pc hpc => exact wf.setExec he fun _ => by rw [hpc]; nofun
  | lock h began r hpc | unowned h began hpc | insert h began hpc =>
      exact wf.setExec he fun _ => by rw [hpc]; nofun
  | settled h began =>
      exact wf.settle.setExec he fun h => absurd rfl h
  | buried h message =>
      exact wf.write.setExec he fun h => absurd rfl h
  | parked h message runAt r hpc =>
      exact wf.write.setExec he fun _ => by rw [hpc]; nofun
  | zadded h runAt =>
      exact wf.zadd.setExec he fun h => absurd rfl h

theorem failMove (wf : WorldWf s) {e : Exec} {took : Bool} (he : e ∈ s.execs)
    (h : FailMove cfg s e took s') : WorldWf s' := by
  cases h with
  | lost => exact wf.endExec
  | released => exact wf.letGo he
  | claimed job => exact wf.claim.endExec
  | caught h pc hpc => exact wf.setExec he fun _ => by rw [hpc]; nofun
  | settled h began pc _ hpc =>
      exact wf.settle.setExec he fun _ => by rw [hpc]; nofun
  | buried h message =>
      exact wf.write.endExec
  | parked h message runAt =>
      exact wf.write.endExec
  | zadded h runAt =>
      exact wf.zadd.endExec

/-- The scheduler is done with the entry it judged and looks at the list again. -/
private theorem back_to_peek (wf : WorldWf s) {σ : Sched} {key : WorkerId} {keys : List WorkerId}
    (hσ : σ ∈ s.scheds) (hreap : σ.reaping = some key) :
    WorldWf (s.setSched σ (.reapPeek key keys)) ∧ (s.procs key).isRunning = false ∧
      (∀ ids c, s.procs key ≠ .starting (.reset ids) c) ∧
      ∀ τ ∈ (s.setSched σ (.reapPeek key keys)).scheds, ∀ id', τ.judging ≠ some (key, id') := by
  have hgone := wf.reaped σ hσ key hreap
  have hrec := Sched.recovering_of_reaping hreap
  refine ⟨wf.setSched hσ ?_ (fun _ => .inl hrec) nofun, by rw [hgone]; rfl,
    fun _ _ => by rw [hgone]; nofun, fun τ hτ id' hjudging => ?_⟩
  · rintro w ⟨⟩
    exact .inl hreap
  · rcases List.mem_cons.mp hτ with rfl | hτ
    · cases hjudging
    · have := wf.others_rest hσ hrec τ hτ
      rw [Sched.recovering_of_reaping (Sched.reaping_of_judging hjudging)] at this
      cases this

theorem schedMove (wf : WorldWf s) {σ : Sched} (hσ : σ ∈ s.scheds) (hidle : σ ≠ .idle)
    (hcheck : ∀ key keys, σ = .reapCheck (key :: keys) → key ∈ s.redis.alive ∨ s.procs key = .gone)
    (h : SchedMove s σ s') : WorldWf s' := by
  cases h with
  | quiet σ' _ _ hreap hrec =>
      refine wf.setSched hσ (by simp [hreap]) (fun hr => (hrec hr).imp_right fun h => ?_) ?_
      · exact absurd h.1 hidle
      · intro w id hjudging
        rw [Sched.reaping_of_judging hjudging] at hreap
        cases hreap
  | removed id due =>
      exact wf.zrem.setSched hσ nofun nofun nofun
  | promoted id due job =>
      exact wf.write.setSched hσ nofun nofun nofun
  | crashed => exact wf.endSched
  | pushed id due =>
      exact wf.lpush.setSched hσ nofun nofun nofun
  | check key keys hpc halive =>
      refine wf.setSched hσ ?_ (fun _ => .inl (by rw [hpc]; rfl)) nofun
      rintro w ⟨⟩
      exact .inr ((hcheck key keys hpc).resolve_left halive)
  | peek key id keys hpc hlast | junk key id keys hpc hlast =>
      refine wf.setSched hσ ?_ (fun _ => .inl (by rw [hpc]; rfl)) ?_
      · rintro w ⟨⟩
        exact .inl (by rw [hpc]; rfl)
      · rintro w id' ⟨⟩
        exact hlast
  | select key id keys job hpc =>
      have hlast := wf.tail σ hσ key id (by rw [hpc]; rfl)
      rcases judge_cases key id keys (s.db.row job) with
        ⟨heq, -⟩ | ⟨r, -, -, -, ⟨heq, -⟩ | ⟨heq, -⟩⟩ <;> rw [heq]
      all_goals
        refine wf.setSched hσ ?_ (fun _ => .inl (by rw [hpc]; rfl)) ?_
        · rintro w ⟨⟩
          exact .inl (by rw [hpc]; rfl)
        · rintro w id' ⟨⟩
          exact hlast
  | dropped key id keys hpc =>
      obtain ⟨wf', hrun, hreset, hjudged⟩ := wf.back_to_peek hσ (by rw [hpc]; rfl)
      exact wf'.dropEntry hrun hreset hjudged
  | buried key id keys job hpc =>
      have hlast := wf.tail σ hσ key id (by rw [hpc]; rfl)
      refine wf.write.setSched hσ ?_ (fun _ => .inl (by rw [hpc]; rfl)) ?_
      · rintro w ⟨⟩
        exact .inl (by rw [hpc]; rfl)
      · rintro w id' ⟨⟩
        exact hlast
  | requeued key id keys job hpc =>
      have hlast := wf.tail σ hσ key id (by rw [hpc]; rfl)
      refine wf.write.setSched hσ ?_
        (fun _ => .inl (by rw [hpc]; rfl)) ?_
      · rintro w ⟨⟩
        exact .inl (by rw [hpc]; rfl)
      · rintro w id' ⟨⟩
        exact hlast
  | moved key id last keys hpc =>
      obtain ⟨wf', hrun, hreset, hjudged⟩ := wf.back_to_peek hσ (by rw [hpc]; rfl)
      exact wf'.dropEntry hrun hreset hjudged
  | emptied key id keys hpc => exact (wf.back_to_peek hσ (by rw [hpc]; rfl)).1
  | swept job candidates held hpc =>
      exact wf.rpush.setSched hσ nofun (fun _ => .inl (by rw [hpc]; rfl)) nofun

theorem startMove (wf : WorldWf s) {w : WorkerId} {deadline : Bool}
    (h : StartMove s w deadline s') : WorldWf s' := by
  have hproc : ∀ {pc pc' c}, s.procs w = .starting pc c →
      (∀ ids, pc' = .reset ids → ids = (s.redis.lrange w).filter isUuid) →
        WorldWf (s.setProc w (.starting pc' c)) := by
    intro pc pc' c hp hreset
    refine wf.setProc (wf.no_execs (by rw [hp]; rfl)) ?_ ?_
    · intro σ hσ hr
      rw [wf.reaped σ hσ w hr] at hp
      cases hp
    · rintro ids c' ⟨⟩
      exact hreset ids rfl
  cases h with
  | wait => exact wf
  | refrain c hp | proceed c hp | nothing c hp => exact hproc hp nofun
  | done c hp => exact hproc hp nofun
  | read c hp =>
      refine hproc hp ?_
      rintro ids ⟨⟩
      rfl
  | reset c ids hp =>
      have wf' : WorldWf (s.setProc w (.starting .moveAll c)) := hproc hp nofun
      exact wf'.same rfl rfl rfl rfl
  | moved c id hp =>
      refine wf.dropEntry (by rw [hp]; rfl) (fun ids c' => by rw [hp]; nofun) ?_
      intro σ hσ id' hjudging
      rw [wf.reaped σ hσ w (Sched.reaping_of_judging hjudging)] at hp
      cases hp
  | beat c hp =>
      refine wf.beat.setProc (wf.no_execs (by rw [hp]; rfl)) ?_ nofun
      intro σ hσ hr
      rw [wf.reaped σ hσ w hr] at hp
      cases hp

/-- Every step of a steady world keeps its books. -/
theorem step {a : Act} (wf : WorldWf s) (hok : Steady s a)
    (h : QueueFlow.step cfg s a = some s') : WorldWf s' := by
  cases a with
  | tick | request => cases h; exact wf.same rfl rfl rfl rfl
  | api =>
      obtain ⟨-, h⟩ := Option.ite_none_right_eq_some.mp h
      cases handle_cases h <;> exact wf.same rfl rfl rfl rfl
  | apiCrash =>
      obtain ⟨-, h⟩ := Option.ite_none_right_eq_some.mp h
      cases h
      exact wf.same rfl rfl rfl rfl
  | spawn w =>
      obtain ⟨hp, -, rfl⟩ := spawn_cases h
      have hrun : (s.procs w).isRunning = false := by rcases hp with hp | hp <;> rw [hp] <;> rfl
      refine wf.setProc (wf.no_execs hrun) (fun σ hσ hr => ?_) nofun
      rcases hok with hfresh | hguard
      · rw [wf.reaped σ hσ w hr] at hfresh
        cases hfresh
      · exact hguard σ hσ hr
  | recoverOwn => exact wf.startMove (recoverOwnProcessing_cases h)
  | beat =>
      obtain ⟨-, rfl⟩ := beat_cases h
      exact wf.beat
  | expire w =>
      cases expire_cases h
      exact wf.same rfl rfl rfl rfl
  | take =>
      obtain ⟨c, rest, id, hp, -, rfl⟩ := take_cases h
      exact wf.take hp
  | exec e =>
      obtain ⟨he, h⟩ := Option.ite_none_right_eq_some.mp h
      exact wf.execMove he (processOne_cases h)
  | execFail e =>
      obtain ⟨he, h⟩ := Option.ite_none_right_eq_some.mp h
      exact wf.failMove he (fails_cases h)
  | kill =>
      cases kill_cases h
      exact wf.kill
  | startSched =>
      cases h
      exact wf.addSched
  | sched σ pick =>
      obtain ⟨hσ, h⟩ := Option.ite_none_right_eq_some.mp h
      by_cases hidle : σ = .idle
      · subst hidle
        cases pick with
        | next =>
            cases h
            exact wf.setSched hσ nofun nofun nofun
        | recover =>
            cases h
            exact wf.setSched hσ nofun (fun _ => .inr hok) nofun
        | visit => cases h
      · refine wf.schedMove hσ hidle ?_ (schedule_cases h)
        rintro key keys rfl
        exact hok
  | schedFail σ =>
      obtain ⟨hσ, h⟩ := Option.ite_none_right_eq_some.mp h
      unfold abandonPass at h
      split at h
      · cases h
        exact wf.setSched hσ nofun nofun nofun
      · cases h
  | schedKill =>
      obtain ⟨-, h⟩ := Option.ite_none_right_eq_some.mp h
      cases h
      exact wf.endSched

end WorldWf

/-! ## Releasing an entry -/

/-- The entry that the next command of `reapWorker` takes off its list. -/
def Sched.releasing : Sched → Option (WorkerId × Text)
  | .reapDrop key id _ => some (key, id)
  | .reapMove key id _ => some (key, id)
  | _ => none

theorem Sched.judging_of_releasing {σ : Sched} {k : WorkerId × Text}
    (h : σ.releasing = some k) : σ.judging = some k := by
  cases σ <;> simp_all [Sched.releasing, Sched.judging]

/-- The reaper comes to release an entry only if it names no job, or because of the row
that it has just read or written. -/
theorem releasing_of_step {cfg : Config} {s s' : State} {a : Act} {k : WorkerId × Text} {τ : Sched}
    (h : step cfg s a = some s') (hτ : τ ∈ s'.scheds) (hk : τ.releasing = some k) :
    τ ∈ s.scheds ∨ isUuid k.2 = false ∨ ∃ job, uuidIn k.2 = some job ∧
      ((∃ keys pick, a = .sched (.reapSelect k.1 k.2 keys) pick ∧
          ∀ r, s.db.row job = some r → r.status.terminal = true ∨ r.status = .retrying) ∨
        ∀ r, s'.db.row job = some r → r.status = .dead ∨ r.status = .queued) := by
  cases sched_origin h hτ with
  | stays hτ => exact .inl hτ
  | rests _ hreap =>
      rw [Sched.reaping_of_judging (Sched.judging_of_releasing hk)] at hreap
      cases hreap
  | removed | promoted | peeks | reads => cases hk
  | rejects key id keys hid =>
      cases hk
      exact .inr (.inl hid)
  | judges key id keys job pick ha hid =>
      rcases judge_cases key id keys (s.db.row job) with
        ⟨heq, hstale⟩ | ⟨r, -, -, -, ⟨heq, -⟩ | ⟨heq, -⟩⟩ <;> rw [heq] at hk <;> cases hk
      exact .inr (.inr ⟨job, hid, .inl ⟨keys, pick, ha, hstale⟩⟩)
  | buried key id keys job hid hdb =>
      cases hk
      refine .inr (.inr ⟨job, hid, .inr fun r hr => .inl ?_⟩)
      rw [hdb, Db.row_updateRow (Db.keepsId_buried _ _), if_pos rfl] at hr
      obtain ⟨r₀, -, rfl⟩ := Option.map_eq_some_iff.mp hr
      rfl
  | requeued key id keys job hid hdb =>
      cases hk
      refine .inr (.inr ⟨job, hid, .inr fun r hr => .inr ?_⟩)
      rw [hdb, Db.row_updateRow Db.keepsId_requeued, if_pos rfl] at hr
      obtain ⟨r₀, -, rfl⟩ := Option.map_eq_some_iff.mp hr
      rfl

/-! ## Spare entries -/

/-- The list holds more copies of the entry than executions account for. -/
def State.Spare (s : State) (k : WorkerId × Text) : Prop := s.holders k < s.entries k

/-- The entry that a recovery takes off a list. -/
def Act.recovers (s : State) : Act → Option (WorkerId × Text)
  | .recoverOwn w _ =>
      match s.procs w with
      | .starting .moveAll _ => (KeyedList.last? s.redis.processing w).map fun id => (w, id)
      | _ => none
  | .sched (.reapDrop key id _) _ => some (key, id)
  | .sched (.reapMove key _ _) _ =>
      (KeyedList.last? s.redis.processing key).map fun id => (key, id)
  | _ => none

/-- A restarted worker puts the entry on the pending list; the reaper has said before
that it would release it. -/
theorem WorldWf.recovers_cases {cfg : Config} {s s' : State} {a : Act} {k : WorkerId × Text}
    (world : WorldWf s) (h : QueueFlow.step cfg s a = some s') (hrec : a.recovers s = some k) :
    (∃ c, s.procs k.1 = .starting .moveAll c) ∧ k.2 ∈ s'.redis.pending ∨
      ∃ σ ∈ s.scheds, σ.releasing = some k := by
  unfold Act.recovers at hrec
  split at hrec
  case h_1 w deadline =>
    split at hrec
    · rename_i c hp
      obtain ⟨id, hlast, rfl⟩ := Option.map_eq_some_iff.mp hrec
      refine .inl ⟨⟨c, hp⟩, ?_⟩
      simp only [QueueFlow.step, recoverOwnProcessing, hp, Redis.lmove, hlast, Option.map_some,
        Option.some.injEq] at h
      subst h
      exact List.mem_append_right _ (List.mem_singleton.mpr rfl)
    · cases hrec
  case h_2 key id keys pick =>
    obtain ⟨hσ, -⟩ := Option.ite_none_right_eq_some.mp h
    exact .inr ⟨_, hσ, hrec⟩
  case h_3 key id keys pick =>
    obtain ⟨hσ, -⟩ := Option.ite_none_right_eq_some.mp h
    rw [world.tail _ hσ key id rfl, Option.map_some] at hrec
    exact .inr ⟨_, hσ, hrec⟩
  case h_4 => cases hrec

section Spare

variable {cfg : Config} {s s' : State} {a : Act} {k : WorkerId × Text} {e : Exec}

theorem State.Spare.mem (h : s.Spare k) : k ∈ s.redis.processing := by
  obtain ⟨p, hp, heq⟩ := List.countP_pos_iff.mp (Nat.zero_lt_of_lt h)
  obtain rfl : p = k := by simpa using heq
  exact hp

private theorem spare_setExec {pc : ExecPc} (h : s.Spare k) (he : e ∈ s.execs)
    (hexecs : s'.execs = Bag.swap s.execs e { e with pc })
    (hprocessing : s'.redis.processing = s.redis.processing) : s'.Spare k := by
  have hsame : s'.holders k = s.holders k := by
    rw [State.holders, hexecs]
    exact Bag.countP_swap_eq (p := fun e' : Exec => decide (e'.key = k)) he rfl
  simpa only [State.Spare, hsame, State.entries, hprocessing] using h

private theorem spare_endExec (h : s.Spare k) (hexecs : s'.execs = s.execs.erase e)
    (hprocessing : s'.redis.processing = s.redis.processing) : s'.Spare k := by
  have hle : s'.holders k ≤ s.holders k := by
    rw [State.holders, hexecs]
    exact List.erase_sublist.countP_le
  simp only [State.Spare, State.entries, hprocessing] at h ⊢
  omega

private theorem spare_letGo (h : s.Spare k) (he : e ∈ s.execs)
    (hexecs : s'.execs = s.execs.erase e)
    (hprocessing : s'.redis.processing = KeyedList.removeLeft s.redis.processing e.worker e.id) :
    s'.Spare k := by
  have h1 := Bag.countP_erase_add (p := fun e' : Exec => decide (e'.key = k)) he
  have h2 := KeyedList.countP_le_removeLeft (l := s.redis.processing) (k := e.worker) (a := e.id)
    (p := fun p => decide (p = k))
  have hunit : Bag.unit (fun e' : Exec => decide (e'.key = k)) e =
      Bag.unit (fun p : WorkerId × Text => decide (p = k)) (e.worker, e.id) := rfl
  simp only [State.Spare, State.holders, State.entries, hexecs, hprocessing] at h ⊢
  omega

private theorem spare_removed {w : WorkerId} {id : Text} (h : s.Spare k)
    (hexecs : s'.execs = s.execs)
    (hprocessing : s'.redis.processing = KeyedList.removeRight s.redis.processing w id)
    (hne : some (w, id) ≠ some k) : s'.Spare k := by
  have hne : ¬ (w, id) = k := fun heq => hne (congrArg some heq)
  simpa only [State.Spare, State.holders, State.entries, hexecs, hprocessing,
    KeyedList.countP_removeRight_of_not (p := fun p => decide (p = k)) (by simpa using hne)] using h

/-- A spare entry stays spare until a recovery takes it. -/
theorem spare_of_step (h : step cfg s a = some s') (hk : s.Spare k) (hrec : a.recovers s ≠ some k) :
    s'.Spare k := by
  cases a with
  | tick | request | startSched => cases h; exact hk
  | api =>
      obtain ⟨-, h⟩ := Option.ite_none_right_eq_some.mp h
      cases handle_cases h <;> exact hk
  | apiCrash | schedKill =>
      obtain ⟨-, h⟩ := Option.ite_none_right_eq_some.mp h
      cases h
      exact hk
  | spawn =>
      obtain ⟨-, -, rfl⟩ := spawn_cases h
      exact hk
  | recoverOwn w =>
      cases recoverOwnProcessing_cases h with
      | moved c id hp hlast =>
          exact spare_removed hk rfl rfl (by simpa only [Act.recovers, hp, hlast, Option.map_some] using hrec)
      | wait | refrain | proceed | nothing | read | reset | done | beat => exact hk
  | beat =>
      obtain ⟨-, rfl⟩ := beat_cases h
      exact hk
  | expire =>
      cases expire_cases h
      exact hk
  | take w =>
      obtain ⟨c, rest, id, -, -, rfl⟩ := take_cases h
      simp only [State.Spare, State.holders, State.entries, State.addExec_execs,
        State.addExec_redis, State.withRedis_redis, State.withRedis_execs,
        KeyedList.countP_pushLeft, Bag.countP_cons_unit] at hk ⊢
      exact Nat.add_lt_add_right hk _
  | exec e =>
      obtain ⟨he, h⟩ := Option.ite_none_right_eq_some.mp h
      cases processOne_cases h with
      | letGo => exact spare_letGo hk he rfl rfl
      | rejected => exact spare_endExec hk rfl rfl
      | found | missing | notClaimable | claimed | work | lock | unowned | insert | settled
      | fenced | buried | parked | zadded => exact spare_setExec hk he rfl rfl
  | execFail e =>
      obtain ⟨he, h⟩ := Option.ite_none_right_eq_some.mp h
      cases fails_cases h with
      | released => exact spare_letGo hk he rfl rfl
      | lost | claimed | buried | parked | zadded => exact spare_endExec hk rfl rfl
      | caught | settled => exact spare_setExec hk he rfl rfl
  | kill =>
      cases kill_cases h
      exact (List.filter_sublist.countP_le).trans_lt hk
  | sched σ =>
      obtain ⟨-, h⟩ := Option.ite_none_right_eq_some.mp h
      cases schedule_cases h with
      | dropped key id keys hpc =>
          subst hpc
          exact spare_removed hk rfl rfl hrec
      | moved key id last keys hpc hlast =>
          subst hpc
          exact spare_removed hk rfl rfl (by simpa only [Act.recovers, hlast, Option.map_some] using hrec)
      | quiet | removed | promoted | crashed | pushed | check | peek | junk | select | buried
      | requeued | emptied | swept => exact hk
  | schedFail =>
      obtain ⟨-, h⟩ := Option.ite_none_right_eq_some.mp h
      unfold abandonPass at h
      split at h
      · cases h; exact hk
      · cases h

/-- An execution that ends and leaves its entry behind makes the entry spare. -/
theorem spare_of_ended (world : WorldWf s) (he : e ∈ s.execs) (hexecs : s'.execs = s.execs.erase e)
    (hprocessing : s'.redis.processing = s.redis.processing) : s'.Spare e.key := by
  have h1 := Bag.countP_erase_add (p := fun e' : Exec => decide (e'.key = e.key)) he
  have h2 := world.entries e.key
  simp only [Bag.unit, decide_true, if_true] at h1
  simp only [State.Spare, State.holders, State.entries, hexecs, hprocessing] at h2 ⊢
  omega

/-- So does the end of its worker. -/
theorem spare_of_killed (world : WorldWf s) (he : e ∈ s.execs) :
    ((s.setProc e.worker .gone).dropExecs e.worker).Spare e.key := by
  have hzero : ((s.setProc e.worker .gone).dropExecs e.worker).holders e.key = 0 := by
    refine Bag.countP_eq_zero_of_forall fun e' he' => ?_
    have hne : e'.worker ≠ e.worker := by simpa using (List.mem_filter.mp he').2
    have hkey : ¬ e'.key = e.key := fun heq => hne (congrArg Prod.fst heq)
    simp [hkey]
  have hpos : 0 < s.entries e.key :=
    (Bag.countP_pos_of_mem (p := fun e' : Exec => decide (e'.key = e.key)) he (by simp)).trans_le
      (world.entries e.key)
  rw [State.Spare, hzero]
  exact hpos

end Spare

end QueueFlow
