-- SUMMARY: Whether a running execution keeps the entry of its worker's list that brings its job back when the worker dies.
import QueueFlow.Fencing.Lease
import QueueFlow.Recovery.World
import QueueFlow.Worker.Failure

/-!
# The entry of an execution

`LREM processing:<w> 1 id` removes an entry by its value. When a worker holds one id twice, because
the reaper took the first entry away and the worker popped the id again, the clean-up of the older
execution finds the entry of the newer one.

Whose entry the reaper took is not written anywhere, so a mark is kept beside every execution: the
reaper has left the list alone since the pop.
-/

namespace QueueFlow

open Transition

/-! ## Marks -/

structure Marked where
  exec : Exec
  /-- No scheduler has removed an entry of the worker's list since this execution was popped. -/
  intact : Bool
  deriving DecidableEq

/-- How the marks follow a step. Of executions that are equal, `intact` says which one moves. -/
def follow (s : State) (a : Act × Bool) (s' : State) (ms : List Marked) : Option (List Marked) :=
  match a with
  | (.exec e _, intact) | (.execFail e _ _ _, intact) =>
      if ⟨e, intact⟩ ∈ ms then
        if s'.execs.length < s.execs.length then some (ms.erase ⟨e, intact⟩)
        else s'.execs.head?.map fun e' => Bag.swap ms ⟨e, intact⟩ ⟨e', intact⟩
      else none
  | (.take _, _) => s'.execs.head?.map fun e => ⟨e, true⟩ :: ms
  | (.kill w, _) => some (ms.filter fun m => m.exec.worker ≠ w)
  | (.sched _ _, _) =>
      some (ms.map fun m =>
        { m with intact := m.intact && s'.redis.lrange m.exec.worker = s.redis.lrange m.exec.worker })
  | _ => some ms

/-- The system with its marks. -/
def markedStep (cfg : Config) : State × List Marked → Act × Bool → Option (State × List Marked) :=
  accompany (step cfg) follow

/-- How many executions hold the entry `k` and were popped since the reaper last removed an entry of
the list. -/
def intacts (ms : List Marked) (k : WorkerId × Text) : Nat :=
  ms.countP fun m => m.intact && m.exec.key = k

/-- The execution whose entry an action removes with `LREM`. -/
def Act.letsGo : Act → Option Exec
  | .exec e _ => if e.pc.phase = .finished then some e else none
  | .execFail e took _ _ => if took = true ∧ e.pc = .release then some e else none
  | _ => none

/-- Whenever a worker executes a job under its current lease and the reaper has removed nothing from
the worker's list since the pop, the id is in that list, and still is when the worker is killed. -/
def KeepsEntries (cfg : Config) (p : State × List Marked) : Prop :=
  ∀ m ∈ p.2, m.intact = true → ∀ h, m.exec.pc.holding? = some h → p.1.HoldsLease h →
    m.exec.id ∈ p.1.redis.lrange m.exec.worker ∧
      ∀ s', step cfg p.1 (.kill m.exec.worker) = some s' →
        m.exec.id ∈ s'.redis.lrange m.exec.worker

/-- An execution from whose list the reaper has removed an entry lets go of an id only when the list
holds that id more often than newer executions need it. -/
def SparesNewer (p : State × List Marked) (a : Act × Bool) : Prop :=
  ∀ e, a.1.letsGo = some e → isUuid e.id = true → a.2 = false →
    intacts p.2 e.key = 0 ∨ intacts p.2 e.key < p.1.entries e.key

instance (p : State × List Marked) (a : Act × Bool) : Decidable (SparesNewer p a) :=
  inferInstanceAs (Decidable (∀ e ∈ a.1.letsGo, isUuid e.id = true → a.2 = false →
    intacts p.2 e.key = 0 ∨ intacts p.2 e.key < p.1.entries e.key))

variable {cfg : Config} {s s' : State} {a : Act} {ms ms' : List Marked} {k : WorkerId × Text}

/-! ## What a step does to the marks -/

section Follow

variable {e e' : Exec} {b : Bool}

private theorem follow_ended (ha : a.exec? = some e) (he : e ∈ s.execs)
    (hexecs : s'.execs = s.execs.erase e) : follow s (a, b) s' ms =
      if ⟨e, b⟩ ∈ ms then some (ms.erase ⟨e, b⟩) else none := by
  have hlt : s'.execs.length < s.execs.length := by
    have hlen := List.length_erase_of_mem he
    have hpos := List.length_pos_of_mem he
    rw [hexecs]
    omega
  cases a with
  | exec | execFail =>
    cases ha
    simp only [follow]
    rw [if_pos hlt]
  | _ => cases ha

private theorem follow_moved (ha : a.exec? = some e) (he : e ∈ s.execs)
    (hexecs : s'.execs = Bag.swap s.execs e e') : follow s (a, b) s' ms =
      if ⟨e, b⟩ ∈ ms then some (Bag.swap ms ⟨e, b⟩ ⟨e', b⟩) else none := by
  have hnot : ¬ s'.execs.length < s.execs.length := by
    have hlen := List.length_erase_of_mem he
    have hpos := List.length_pos_of_mem he
    rw [hexecs, Bag.swap, List.length_cons]
    omega
  cases a with
  | exec | execFail =>
    cases ha
    simp only [follow]
    rw [if_neg hnot, hexecs]
    rfl
  | _ => cases ha

end Follow

/-- What a step does to the marks, to the executions and to the processing lists. -/
inductive MarkMove (s : State) (a : Act) (b : Bool) (s' : State) (ms : List Marked) :
    List Marked → Prop where
  | quiet (hexecs : s'.execs = s.execs) (hlist : s'.redis.processing = s.redis.processing)
      (hprocs : ∀ w, (s.procs w).isRunning = true → (s'.procs w).isRunning = true) :
      MarkMove s a b s' ms ms
  | recovered (w : WorkerId) (id : Text) (hrun : (s.procs w).isRunning = false)
      (hexecs : s'.execs = s.execs) (hprocs : s'.procs = s.procs)
      (hlist : s'.redis.processing = KeyedList.removeRight s.redis.processing w id) :
      MarkMove s a b s' ms ms
  | reaped (hexecs : s'.execs = s.execs) (hprocs : s'.procs = s.procs) :
      MarkMove s a b s' ms (ms.map fun m =>
        { m with intact := m.intact && s'.redis.lrange m.exec.worker = s.redis.lrange m.exec.worker })
  | taken (w : WorkerId) (id : Text) (pc : ExecPc) (hrun : (s.procs w).isRunning = true)
      (hpc : pc.phase ≠ .finished → isUuid id = true)
      (hexecs : s'.execs = ⟨w, id, pc⟩ :: s.execs) (hprocs : s'.procs = s.procs)
      (hlist : s'.redis.processing = KeyedList.pushLeft s.redis.processing w id) :
      MarkMove s a b s' ms (⟨⟨w, id, pc⟩, true⟩ :: ms)
  | killed (w : WorkerId) (hexecs : s'.execs = s.execs.filter fun e => e.worker ≠ w)
      (hprocs : s'.procs = Function.update s.procs w .gone)
      (hlist : s'.redis.processing = s.redis.processing) :
      MarkMove s a b s' ms (ms.filter fun m => m.exec.worker ≠ w)
  | letGo (e : Exec) (hgo : a.letsGo = some e) (hm : ⟨e, b⟩ ∈ ms)
      (hexecs : s'.execs = s.execs.erase e) (hprocs : s'.procs = s.procs)
      (hlist : s'.redis.processing = KeyedList.removeLeft s.redis.processing e.worker e.id) :
      MarkMove s a b s' ms (ms.erase ⟨e, b⟩)
  | ended (e : Exec) (hm : ⟨e, b⟩ ∈ ms) (hexecs : s'.execs = s.execs.erase e)
      (hprocs : s'.procs = s.procs) (hlist : s'.redis.processing = s.redis.processing) :
      MarkMove s a b s' ms (ms.erase ⟨e, b⟩)
  | moved (e : Exec) (pc : ExecPc) (hm : ⟨e, b⟩ ∈ ms) (hpc : e.pc.phase ≠ .finished)
      (hexecs : s'.execs = Bag.swap s.execs e { e with pc }) (hprocs : s'.procs = s.procs)
      (hlist : s'.redis.processing = s.redis.processing) :
      MarkMove s a b s' ms (Bag.swap ms ⟨e, b⟩ ⟨{ e with pc }, b⟩)

/-- What one command does to the executions and to the processing lists. -/
theorem execs_of_exec {e : Exec} (h : step cfg s a = some s') (ha : a.exec? = some e) :
    e ∈ s.execs ∧ s'.procs = s.procs ∧
      (s'.execs = s.execs.erase e ∧
          (a.letsGo = some e ∧
              s'.redis.processing = KeyedList.removeLeft s.redis.processing e.worker e.id ∨
            s'.redis.processing = s.redis.processing) ∨
        ∃ pc, e.pc.phase ≠ .finished ∧ s'.execs = Bag.swap s.execs e { e with pc } ∧
          s'.redis.processing = s.redis.processing) := by
  cases a with
  | exec e o =>
    cases ha
    obtain ⟨he, h⟩ := Option.ite_none_right_eq_some.mp h
    cases processOne_cases h with
    | letGo hpc => exact ⟨he, rfl, .inl ⟨rfl, .inl ⟨by simp [Act.letsGo, hpc], rfl⟩⟩⟩
    | rejected => exact ⟨he, rfl, .inl ⟨rfl, .inr rfl⟩⟩
    | found | missing | notClaimable | claimed | work | lock | unowned | insert | settled | fenced
    | buried | parked | zadded =>
      exact ⟨he, rfl, .inr ⟨_, by simp_all [ExecPc.phase], rfl, rfl⟩⟩
  | execFail e took message random =>
    cases ha
    obtain ⟨he, h⟩ := Option.ite_none_right_eq_some.mp h
    cases fails_cases h with
    | released htook hpc =>
      exact ⟨he, rfl, .inl ⟨rfl, .inl ⟨by simp [Act.letsGo, htook, hpc], rfl⟩⟩⟩
    | lost | claimed | buried | parked | zadded => exact ⟨he, rfl, .inl ⟨rfl, .inr rfl⟩⟩
    | caught | settled => exact ⟨he, rfl, .inr ⟨_, by simp_all [ExecPc.phase], rfl, rfl⟩⟩
  | _ => cases ha

private theorem running_of_setProc {w w' : WorkerId} {p : Proc}
    (hnot : (s.procs w).isRunning = false) (hrun : (s.procs w').isRunning = true) :
    (Function.update s.procs w p w').isRunning = true := by
  by_cases heq : w' = w
  · subst heq
    rw [hrun] at hnot
    cases hnot
  · rwa [Function.update_of_ne heq]

theorem follow_cases {b : Bool} (h : step cfg s a = some s')
    (hf : follow s (a, b) s' ms = some ms') : MarkMove s a b s' ms ms' := by
  cases hexec : a.exec? with
  | some e =>
    obtain ⟨he, hprocs, ⟨hexecs, hlist⟩ | ⟨pc, hpc, hexecs, hlist⟩⟩ := execs_of_exec h hexec
    · rw [follow_ended hexec he hexecs] at hf
      obtain ⟨hm, hf⟩ := Option.ite_none_right_eq_some.mp hf
      cases hf
      rcases hlist with ⟨hgo, hlist⟩ | hlist
      · exact .letGo e hgo hm hexecs hprocs hlist
      · exact .ended e hm hexecs hprocs hlist
    · rw [follow_moved hexec he hexecs] at hf
      obtain ⟨hm, hf⟩ := Option.ite_none_right_eq_some.mp hf
      cases hf
      exact .moved e pc hm hpc hexecs hprocs hlist
  | none =>
    cases a with
    | exec | execFail => cases hexec
    | tick | request | startSched =>
      cases h
      cases hf
      exact .quiet rfl rfl fun _ => id
    | api =>
      obtain ⟨-, h⟩ := Option.ite_none_right_eq_some.mp h
      cases hf
      cases handle_cases h <;> exact .quiet rfl rfl fun _ => id
    | apiCrash | schedKill =>
      obtain ⟨-, h⟩ := Option.ite_none_right_eq_some.mp h
      cases h
      cases hf
      exact .quiet rfl rfl fun _ => id
    | schedFail =>
      obtain ⟨-, h⟩ := Option.ite_none_right_eq_some.mp h
      cases hf
      unfold abandonPass at h
      split at h
      · cases h
        exact .quiet rfl rfl fun _ => id
      · cases h
    | beat =>
      obtain ⟨-, rfl⟩ := beat_cases h
      cases hf
      exact .quiet rfl rfl fun _ => id
    | expire =>
      cases expire_cases h
      cases hf
      exact .quiet rfl rfl fun _ => id
    | spawn w c =>
      obtain ⟨hp, -, rfl⟩ := spawn_cases h
      cases hf
      refine .quiet rfl rfl fun _ => running_of_setProc ?_
      rcases hp with hp | hp <;> rw [hp] <;> rfl
    | recoverOwn w deadline =>
      cases hf
      cases recoverOwnProcessing_cases h with
      | wait => exact .quiet rfl rfl fun _ => id
      | moved c id hp hlast => exact .recovered w id (by rw [hp]; rfl) rfl rfl rfl
      | refrain c hp | proceed c hp | nothing c hp | read c hp | reset c _ hp | done c hp
      | beat c hp =>
        exact .quiet rfl rfl fun _ => running_of_setProc (by rw [hp]; rfl)
    | take w =>
      obtain ⟨c, rest, id, hp, -, rfl⟩ := take_cases h
      cases hf
      refine .taken w id _ (by rw [hp]; rfl) (fun hpc => ?_) rfl rfl rfl
      by_contra hid
      rw [if_neg hid] at hpc
      exact hpc rfl
    | kill w =>
      cases kill_cases h
      cases hf
      exact .killed w rfl rfl rfl
    | sched σ pick =>
      obtain ⟨-, h⟩ := Option.ite_none_right_eq_some.mp h
      cases hf
      cases schedule_cases h <;> exact .reaped rfl rfl

/-! ## The marks belong to the executions -/

/-- Every execution has one mark, belongs to a running process, and works on an accepted id. -/
structure MarksWf (s : State) (ms : List Marked) : Prop where
  matched : (ms.map Marked.exec).Perm s.execs
  hosted : ∀ m ∈ ms, (s.procs m.exec.worker).isRunning = true
  accepted : ∀ m ∈ ms, m.exec.pc.phase ≠ .finished → isUuid m.exec.id = true

namespace MarksWf

theorem init : MarksWf .init [] where
  matched := .nil
  hosted := by rintro m ⟨⟩
  accepted := by rintro m ⟨⟩

private theorem map_erase {m : Marked} (h : m ∈ ms) :
    ((ms.erase m).map Marked.exec).Perm ((ms.map Marked.exec).erase m.exec) := by
  have hperm : (ms.map Marked.exec).Perm (m.exec :: (ms.erase m).map Marked.exec) :=
    (List.perm_cons_erase h).map Marked.exec
  have herase := hperm.erase m.exec
  rw [List.erase_cons_head] at herase
  exact herase.symm

theorem move {b : Bool} (wf : MarksWf s ms) (h : MarkMove s a b s' ms ms') : MarksWf s' ms' := by
  obtain ⟨hmatch, hhost, hacc⟩ := wf
  cases h with
  | quiet hexecs _ hprocs =>
    exact ⟨by rwa [hexecs], fun m hm => hprocs _ (hhost m hm), hacc⟩
  | recovered w id _ hexecs hprocs => exact ⟨by rwa [hexecs], by rwa [hprocs], hacc⟩
  | reaped hexecs hprocs =>
    refine ⟨by rwa [hexecs, List.map_map], ?_, ?_⟩
    · rw [hprocs]
      exact List.forall_mem_map.mpr hhost
    · exact List.forall_mem_map.mpr hacc
  | taken w id pc hrun hpc hexecs hprocs =>
    refine ⟨by rw [hexecs]; exact hmatch.cons _, ?_, ?_⟩
    · rw [hprocs]
      exact List.forall_mem_cons.mpr ⟨hrun, hhost⟩
    · exact List.forall_mem_cons.mpr ⟨hpc, hacc⟩
  | killed w hexecs hprocs =>
    refine ⟨?_, ?_, fun m hm => hacc m (List.mem_of_mem_filter hm)⟩
    · rw [hexecs]
      have hfilter := hmatch.filter fun e => decide (e.worker ≠ w)
      rwa [List.filter_map] at hfilter
    · intro m hm
      obtain ⟨hm, hne⟩ := List.mem_filter.mp hm
      rw [hprocs, Function.update_of_ne (of_decide_eq_true hne)]
      exact hhost m hm
  | letGo e _ hm hexecs hprocs | ended e hm hexecs hprocs =>
    refine ⟨by rw [hexecs]; exact (map_erase hm).trans (hmatch.erase e), ?_, ?_⟩
    · rw [hprocs]
      exact fun m hmem => hhost m (List.mem_of_mem_erase hmem)
    · exact fun m hmem => hacc m (List.mem_of_mem_erase hmem)
  | moved e pc hm hpc hexecs hprocs =>
    refine ⟨by rw [hexecs]; exact ((map_erase hm).trans (hmatch.erase e)).cons _, ?_, ?_⟩
    · rw [hprocs]
      exact List.forall_mem_cons.mpr
        ⟨hhost ⟨e, b⟩ hm, fun m hmem => hhost m (List.mem_of_mem_erase hmem)⟩
    · exact List.forall_mem_cons.mpr
        ⟨fun _ => hacc ⟨e, b⟩ hm hpc, fun m hmem => hacc m (List.mem_of_mem_erase hmem)⟩

/-- The marks can follow every step. -/
theorem exists_follow (wf : MarksWf s ms) (h : step cfg s a = some s') :
    ∃ b ms', follow s (a, b) s' ms = some ms' := by
  cases hexec : a.exec? with
  | some e =>
    obtain ⟨he, -, hmove⟩ := execs_of_exec h hexec
    obtain ⟨m, hm, rfl⟩ := List.mem_map.mp (wf.matched.mem_iff.mpr he)
    rcases hmove with ⟨hexecs, -⟩ | ⟨pc, -, hexecs, -⟩
    · exact ⟨m.intact, _, by rw [follow_ended hexec he hexecs, if_pos hm]⟩
    · exact ⟨m.intact, _, by rw [follow_moved hexec he hexecs, if_pos hm]⟩
  | none =>
    cases a with
    | exec | execFail => cases hexec
    | take w =>
      obtain ⟨c, rest, id, -, -, rfl⟩ := take_cases h
      exact ⟨true, _, rfl⟩
    | _ => exact ⟨true, _, rfl⟩

end MarksWf

/-- Every run of the system is a run with marks. -/
theorem exists_marks (h : Run (step cfg) always .init s) :
    ∃ ms, Run (markedStep cfg) always (.init, []) (s, ms) ∧ MarksWf s ms :=
  h.accompanied MarksWf.init fun t c a u wf hstep => by
    obtain ⟨b, d, hd⟩ := wf.exists_follow hstep
    exact ⟨b, d, hd, wf.move (follow_cases hstep hd)⟩

/-! ## Every intact execution has an entry of its own -/

theorem mem_lrange_of_entries (h : 0 < s.entries k) : k.2 ∈ s.redis.lrange k.1 := by
  rw [entries_eq_count] at h
  exact List.count_pos_iff.mp h

theorem intacts_pos {m : Marked} (hm : m ∈ ms) (hintact : m.intact = true) :
    0 < intacts ms m.exec.key :=
  Bag.countP_pos_of_mem hm (by simp [hintact])

theorem intacts_erase {m : Marked} (hm : m ∈ ms) :
    intacts (ms.erase m) k + (if m.intact = true ∧ m.exec.key = k then 1 else 0) = intacts ms k := by
  have hcount := Bag.countP_erase_add (p := fun m : Marked => m.intact && m.exec.key = k) hm
  have hown : Bag.unit (fun m : Marked => m.intact && m.exec.key = k) m =
      if m.intact = true ∧ m.exec.key = k then 1 else 0 := by simp [Bag.unit]
  rwa [hown] at hcount

private theorem unit_key {j : WorkerId × Text} :
    Bag.unit (fun p => decide (p = k)) j = if j = k then 1 else 0 := by
  by_cases hkey : j = k
  · rw [if_pos hkey]
    exact if_pos (decide_eq_true hkey)
  · rw [if_neg hkey]
    exact if_neg fun h => hkey (of_decide_eq_true h)

theorem entries_le_of_removed {e : Exec}
    (hlist : s'.redis.processing = KeyedList.removeLeft s.redis.processing e.worker e.id) :
    s.entries k ≤ s'.entries k + if e.key = k then 1 else 0 := by
  rw [State.entries, State.entries, hlist, ← unit_key]
  exact KeyedList.countP_le_removeLeft

theorem entries_of_removed {e : Exec} (hmem : e.key ∈ s.redis.processing)
    (hlist : s'.redis.processing = KeyedList.removeLeft s.redis.processing e.worker e.id) :
    s'.entries k + (if e.key = k then 1 else 0) = s.entries k := by
  rw [State.entries, State.entries, hlist, ← unit_key]
  exact KeyedList.countP_removeLeft hmem

/-- The list holds an accepted id as often as intact executions of it run. -/
def HasEntries (s : State) (ms : List Marked) : Prop :=
  ∀ k, isUuid k.2 = true → intacts ms k ≤ s.entries k

theorem HasEntries.init : HasEntries .init [] := fun _ _ => Nat.zero_le _

/-- Nobody is intact any more whose list the reaper has changed. -/
private theorem intacts_reaped : intacts (ms.map fun m =>
      { m with intact := m.intact && s'.redis.lrange m.exec.worker = s.redis.lrange m.exec.worker }) k
    = if s'.redis.lrange k.1 = s.redis.lrange k.1 then intacts ms k else 0 := by
  rw [intacts, List.countP_map, intacts]
  split
  case isTrue hsame =>
    refine List.countP_congr fun m _ => ?_
    simp only [Function.comp, Bool.and_eq_true, decide_eq_true_eq]
    constructor
    · rintro ⟨⟨hint, -⟩, hkey⟩
      exact ⟨hint, hkey⟩
    · rintro ⟨hint, hkey⟩
      have hworker : m.exec.worker = k.1 := congrArg Prod.fst hkey
      exact ⟨⟨hint, by rw [hworker, hsame]⟩, hkey⟩
  case isFalse hne =>
    refine List.countP_eq_zero.mpr fun m _ => ?_
    simp only [Function.comp, Bool.and_eq_true, decide_eq_true_eq]
    rintro ⟨⟨-, hsame⟩, hkey⟩
    have hworker : m.exec.worker = k.1 := congrArg Prod.fst hkey
    rw [hworker] at hsame
    exact hne hsame

theorem HasEntries.move {b : Bool} (h : HasEntries s ms) (wf : MarksWf s ms)
    (hok : SparesNewer (s, ms) (a, b)) (hmove : MarkMove s a b s' ms ms') : HasEntries s' ms' := by
  intro k hk
  have hle := h k hk
  cases hmove with
  | quiet _ hlist => rwa [State.entries, hlist]
  | recovered w id hrun _ _ hlist =>
    by_cases hkw : k = (w, id)
    · -- a starting process has no executions
      subst hkw
      have hnone : intacts ms (w, id) = 0 := by
        refine List.countP_eq_zero.mpr fun m hm => ?_
        simp only [Bool.and_eq_true, decide_eq_true_eq]
        rintro ⟨-, hkey⟩
        have hworker : m.exec.worker = w := congrArg Prod.fst hkey
        have hhost := wf.hosted m hm
        rw [hworker, hrun] at hhost
        cases hhost
      rw [hnone]
      exact Nat.zero_le _
    · rw [State.entries, hlist, KeyedList.countP_removeRight_of_not (by simpa using Ne.symm hkw)]
      exact hle
  | reaped =>
    rw [intacts_reaped]
    split
    case isTrue hsame =>
      rwa [entries_eq_count, hsame, ← entries_eq_count]
    case isFalse => exact Nat.zero_le _
  | taken w id pc _ _ _ _ hlist =>
    have hmarks : intacts (⟨⟨w, id, pc⟩, true⟩ :: ms) k =
        intacts ms k + Bag.unit (fun p => decide (p = k)) (w, id) := Bag.countP_cons_unit
    have hentries : s'.entries k =
        s.entries k + Bag.unit (fun p => decide (p = k)) (w, id) := by
      rw [State.entries, hlist]
      exact KeyedList.countP_pushLeft
    omega
  | killed w _ _ hlist =>
    rw [State.entries, hlist]
    exact List.filter_sublist.countP_le.trans hle
  | letGo e hgo hm _ _ hlist =>
    have hmarks := intacts_erase (k := k) hm
    have hentries := entries_le_of_removed (k := k) hlist
    by_cases hkey : e.key = k
    · rw [if_pos hkey] at hentries
      cases b with
      | true =>
        -- the execution leaves with its own entry
        rw [if_pos ⟨rfl, hkey⟩] at hmarks
        omega
      | false =>
        rw [if_neg (by rintro ⟨⟨⟩, -⟩)] at hmarks
        have hspare := hok e hgo (by rw [← hkey] at hk; exact hk) rfl
        rw [hkey] at hspare
        dsimp only at hspare
        omega
    · rw [if_neg hkey] at hentries
      rw [if_neg (fun hb => hkey hb.2)] at hmarks
      omega
  | ended e hm _ _ hlist =>
    rw [State.entries, hlist]
    exact List.erase_sublist.countP_le.trans hle
  | moved e pc hm _ _ _ hlist =>
    rw [State.entries, hlist]
    exact (Bag.countP_swap_eq hm rfl).le.trans hle

private theorem letsGo_step {e : Exec} (h : step cfg s a = some s') (hgo : a.letsGo = some e) :
    a.exec? = some e ∧ e ∈ s.execs ∧
      s' = (s.withRedis (s.redis.lrem e.worker e.id)).endExec e := by
  unfold Act.letsGo at hgo
  split at hgo
  case h_1 e o =>
    obtain ⟨hpc, hgo⟩ := Option.ite_none_right_eq_some.mp hgo
    cases hgo
    obtain ⟨he, h⟩ := Option.ite_none_right_eq_some.mp h
    refine ⟨rfl, he, ?_⟩
    unfold processOne at h
    cases hat : e.pc with
    | discard | release =>
      rw [hat] at h
      exact (Option.some.inj h).symm
    | _ =>
      rw [hat] at hpc
      cases hpc
  case h_2 e took message random =>
    obtain ⟨⟨htook, hpc⟩, hgo⟩ := Option.ite_none_right_eq_some.mp hgo
    cases hgo
    obtain ⟨he, h⟩ := Option.ite_none_right_eq_some.mp h
    refine ⟨rfl, he, ?_⟩
    unfold fails at h
    rw [hpc] at h
    dsimp only at h
    rw [if_pos htook] at h
    exact (Option.some.inj h).symm
  case h_3 => cases hgo

/-- A step that does not spare a newer execution leaves fewer entries than intact executions. -/
theorem too_few_entries {p q : State × List Marked} {x : Act × Bool} (h : HasEntries p.1 p.2)
    (hstep : markedStep cfg p x = some q) (hnot : ¬ SparesNewer p x) :
    ∃ k, isUuid k.2 = true ∧ q.1.entries k < intacts q.2 k := by
  obtain ⟨a, b⟩ := x
  unfold SparesNewer at hnot
  push Not at hnot
  obtain ⟨e, hgo, hid, rfl, hsome, hle⟩ := hnot
  obtain ⟨hst, hf⟩ := accompany_cases hstep
  obtain ⟨hexec, he, hq⟩ := letsGo_step hst hgo
  rw [follow_ended hexec he (by rw [hq]; rfl)] at hf
  obtain ⟨hm, hf⟩ := Option.ite_none_right_eq_some.mp hf
  have hq₂ := Option.some.inj hf
  have hmem : e.key ∈ p.1.redis.processing := by
    have hpos : 0 < p.1.entries e.key := (Nat.pos_of_ne_zero hsome).trans_le (h e.key hid)
    exact KeyedList.mem_get.mp (mem_lrange_of_entries hpos)
  have hmarks := intacts_erase (k := e.key) hm
  rw [hq₂] at hmarks
  have hlist : q.1.redis.processing =
      KeyedList.removeLeft p.1.redis.processing e.worker e.id := by rw [hq]; rfl
  have hentries := entries_of_removed (k := e.key) hmem hlist
  rw [if_neg (by rintro ⟨⟨⟩, -⟩)] at hmarks
  rw [if_pos rfl] at hentries
  refine ⟨e.key, hid, ?_⟩
  omega

/-- A worker that has one execution under way at a time, as with `CONCURRENCY` 1, has no newer one to spare. -/
theorem sparesNewer_of_single {p q : State × List Marked} {x : Act × Bool} (wf : MarksWf p.1 p.2)
    (hsingle : ∀ w, p.1.execs.countP (fun e => e.worker = w) ≤ 1) (hstep : markedStep cfg p x = some q) :
    SparesNewer p x := by
  rintro e hgo - hmark
  obtain ⟨a, b⟩ := x
  obtain rfl : b = false := hmark
  obtain ⟨hst, hf⟩ := accompany_cases hstep
  obtain ⟨hexec, he, hq⟩ := letsGo_step hst hgo
  rw [follow_ended hexec he (by rw [hq]; rfl)] at hf
  obtain ⟨hm, -⟩ := Option.ite_none_right_eq_some.mp hf
  have hone : p.2.countP (fun m => m.exec.worker = e.worker) ≤ 1 := by
    have hcount := List.Perm.countP_eq (fun e' => decide (e'.worker = e.worker)) wf.matched
    rw [List.countP_map] at hcount
    exact hcount.le.trans (hsingle e.worker)
  refine .inl (List.countP_eq_zero.mpr fun m hmem hm' => ?_)
  obtain ⟨hintact, hkey⟩ := (Bool.and_eq_true _ _).mp hm'
  have hworker : m.exec.worker = e.worker := congrArg Prod.fst (of_decide_eq_true hkey)
  have heq : m = ⟨e, false⟩ := Bag.eq_of_countP_le_one hone hmem hm (by simpa using hworker) (by simp)
  rw [heq] at hintact
  cases hintact

/-! ## Runs with marks -/

theorem ExecPc.phase_of_holding? {pc : ExecPc} {h : Holding} (hpc : pc.holding? = some h) :
    pc.phase ≠ .finished := by
  cases pc <;> cases hpc <;> rintro ⟨⟩

/-- The property holds of every state that is reached by steps that all spare newer executions. -/
theorem running_keeps_entry (h : Run (markedStep cfg) SparesNewer (.init, []) (s, ms)) :
    KeepsEntries cfg (s, ms) := by
  have hinv : ∀ p, Run (markedStep cfg) SparesNewer (.init, []) p →
      MarksWf p.1 p.2 ∧ HasEntries p.1 p.2 := by
    intro p hp
    refine hp.invariant (P := fun p => MarksWf p.1 p.2 ∧ HasEntries p.1 p.2)
      ⟨.init, .init⟩ fun t x u ⟨wf, hentries⟩ hok hst => ?_
    obtain ⟨hstep, hf⟩ := accompany_cases hst
    have hmove := follow_cases hstep hf
    exact ⟨wf.move hmove, hentries.move wf hok hmove⟩
  obtain ⟨wf, hentries⟩ := hinv _ h
  intro m hm hintact hold hhold _
  have hid : isUuid m.exec.id = true :=
    wf.accepted m hm (ExecPc.phase_of_holding? hhold)
  have hmem : m.exec.id ∈ s.redis.lrange m.exec.worker :=
    mem_lrange_of_entries ((intacts_pos hm hintact).trans_le (hentries _ hid))
  refine ⟨hmem, fun s' hkill => ?_⟩
  obtain rfl := kill_cases hkill
  exact hmem

/-- A script with marks: each cue comes with the mark of the execution that it moves. -/
def markedCue (p : State × List Marked) (c : Cue × Bool) : Option (Act × Bool) :=
  (resolve p.1 c.1).map fun a => (a, c.2)

private theorem exists_run_of_cues {ok : State × List Marked → Act × Bool → Prop}
    [∀ p a, Decidable (ok p a)] {P : State × List Marked → Prop} [DecidablePred P]
    (cues : List (Cue × Bool))
    (h : (perform (markedStep cfg) ok markedCue (.init, []) cues).any (fun p => decide (P p)) = true) :
    ∃ p, Run (markedStep cfg) ok (.init, []) p ∧ P p :=
  exists_run_of_perform cues h

/-- The execution holds a job under its current lease, and nothing was reaped from its list. -/
def State.Executes (s : State) (m : Marked) : Prop :=
  m.intact = true ∧ ∃ h ∈ m.exec.pc.holding?, s.HoldsLease h

instance (s : State) (m : Marked) : Decidable (s.Executes m) :=
  inferInstanceAs (Decidable (_ ∧ ∃ h ∈ m.exec.pc.holding?, s.HoldsLease h))

namespace Script

/-- A worker with free slots claims the job; its heartbeat lapses, the reaper returns the job to
`pending`, the heartbeat recovers, and the worker claims the job again. -/
def lapses : List Cue :=
  start ['a'] ++ submit (job 1) ++ takes ['a'] 2 ++ [.act (.expire ['a']), .act .startSched] ++
    reaps ['a'] 6 ++ .act (.beat ['a']) :: takes ['a'] 2

/-- The first handler returns, the write-back is fenced off, and the worker lets go of the id. -/
def fencedOut : List Cue :=
  .act (.exec ⟨['a'], uuidOut (job 1), .handler ⟨job 1, 0, 1, 5⟩⟩ .returned) ::
    List.replicate 4 (.work ['a'] .returned)

/-- The executions that a part of a script moves are all marked alike. -/
def marked (intact : Bool) (cues : List Cue) : List (Cue × Bool) := cues.map fun c => (c, intact)

end Script

open Script in
/-- The clean-up of the first execution removes the entry of the second. The job is in no list. -/
theorem entry_of_newer_removed : ∃ p, Run (markedStep defaults) always (.init, []) p ∧
    ¬ KeepsEntries defaults p ∧
    p.1.redis.pending = [] ∧ p.1.redis.processing = [] ∧ p.1.redis.delayed = [] := by
  have hrun : ∃ p, Run (markedStep defaults) always (.init, []) p ∧
      ((∃ m ∈ p.2, p.1.Executes m ∧ m.exec.id ∉ p.1.redis.lrange m.exec.worker) ∧
        p.1.redis.pending = [] ∧ p.1.redis.processing = [] ∧ p.1.redis.delayed = []) :=
    exists_run_of_cues (marked true lapses ++ marked false fencedOut) (by decide +kernel)
  obtain ⟨p, hp, ⟨m, hm, ⟨hintact, h, hhold, hlease⟩, hnot⟩, hempty⟩ := hrun
  exact ⟨p, hp, fun hkeeps => hnot (hkeeps m hm hintact h hhold hlease).1, hempty⟩

open Script in
theorem running_keeps_entry_lapsed : ∃ p, ∃ m ∈ p.2,
    Run (markedStep defaults) SparesNewer (.init, []) p ∧ p.2.length = 2 ∧ p.1.Executes m ∧
      m.exec.id ∈ p.1.redis.lrange m.exec.worker := by
  have hrun : ∃ p, Run (markedStep defaults) SparesNewer (.init, []) p ∧
      (p.2.length = 2 ∧ ∃ m ∈ p.2, p.1.Executes m) :=
    exists_run_of_cues (marked true lapses) (by decide +kernel)
  obtain ⟨p, hp, hlen, m, hm, hexec⟩ := hrun
  obtain ⟨hintact, h, hhold, hlease⟩ := hexec
  have hkept := running_keeps_entry hp m hm hintact h hhold hlease
  exact ⟨p, m, hm, hp, hlen, ⟨hintact, h, hhold, hlease⟩, hkept.1⟩

end QueueFlow
