-- SUMMARY: Workers started one at a time once everything is stopped: what a start puts back, and how a listed job succeeds.
import QueueFlow.Recovery.Agreement
import QueueFlow.Recovery.Stop

/-!
# Restarting after a stop

Once everything is stopped, one worker at a time is started. A worker that starts under an id puts
back what an earlier process of that id has left, sets its jobs back to 'queued', and then takes what is
pending. That is enough for every job whose id is in `pending` or in a processing list.
-/

namespace QueueFlow

open Transition

variable {cfg : Config} {can : Uuid → Outcome → Prop} {s t u : State} {w : WorkerId} {id : Text} {job : Uuid}
  {r : JobRow} {c : Nat} {message : Text} {random : Random}

/-! ## A worker starts -/

/-- One worker runs, with room for all that is pending, and nothing that it has taken holds a lock. -/
structure State.Staffed (s : State) (w : WorkerId) : Prop where
  room : ∃ c, s.procs w = .running c ∧ s.execs.length + s.redis.pending.length ≤ c
  others : ∀ w', w' ≠ w → (s.procs w').isDown = true
  hosts : ∀ e ∈ s.execs, e.worker = w
  free : ∀ e ∈ s.execs, e.pc.locks = none
  scheds : s.scheds = []
  apis : s.apis = []

/-- What the start of a worker has done to the stores. -/
structure Restarted (w : WorkerId) (s t : State) : Prop where
  db : t.db = s.db.update (strandedRow ((s.redis.lrange w).filter isUuid)) .requeued
  pending : ∀ id ∈ s.redis.pending, id ∈ t.redis.pending
  moved : ∀ id, (w, id) ∈ s.redis.processing → isUuid id = true → id ∈ t.redis.pending
  listed : ∀ k ∈ t.redis.processing, k ∈ s.redis.processing
  delayed : t.redis.delayed = s.redis.delayed
  alive : w ∈ t.redis.alive ∧ ∀ w' ∈ s.redis.alive, w' ∈ t.redis.alive

private theorem filter_removeRight {κ α : Type*} [DecidableEq κ] [DecidableEq α] (l : List (κ × α))
    (k : κ) (a : α) : (KeyedList.removeRight l k a).filter (·.1 ≠ k) = l.filter (·.1 ≠ k) := by
  have herase (l : List (κ × α)) : (l.erase (k, a)).filter (·.1 ≠ k) = l.filter (·.1 ≠ k) := by
    induction l with
    | nil => rfl
    | cons e l ih =>
      by_cases he : e = (k, a)
      · subst he
        simp
      · rw [List.erase_cons_tail (by simpa using he), List.filter_cons, List.filter_cons, ih]
  rw [KeyedList.removeRight, List.filter_reverse, herase, ← List.filter_reverse, List.reverse_reverse]

/-- `LMOVE` until the list is empty. -/
private theorem moveAll_continues (cfg : Config) (can : Uuid → Outcome → Prop) :
    ∀ (n : Nat) (s : State), (s.redis.lrange w).length = n →
    s.procs w = .starting .moveAll c → Tends cfg can s ((s.withRedis { s.redis with
      pending := s.redis.pending ++ (s.redis.lrange w).reverse,
      processing := s.redis.processing.filter (·.1 ≠ w) }).setProc w (.starting .firstBeat c)) := by
  intro n
  induction n with
  | zero =>
      intro s hn hp
      have hnil : s.redis.lrange w = [] := List.length_eq_zero_iff.mp hn
      have hkeep : s.redis.processing.filter (·.1 ≠ w) = s.redis.processing := by
        refine List.filter_eq_self.mpr fun k hk => ?_
        simp only [decide_eq_true_eq]
        rintro rfl
        exact List.ne_nil_of_mem (KeyedList.mem_get.mpr hk) hnil
      have hstep : step cfg s (.recoverOwn w false) = some (s.setProc w (.starting .firstBeat c)) := by
        simp only [step, recoverOwnProcessing, hp, Redis.lmove, KeyedList.last?_eq_none.mpr hnil,
          Option.map_none]
      have hend : Tends cfg can _ _ := Tends.of_step hstep trivial
      rw [hnil, hkeep, List.reverse_nil, List.append_nil]
      exact hend
  | succ n ih =>
      intro s hn hp
      obtain ⟨id, hlast⟩ : ∃ id, KeyedList.last? s.redis.processing w = some id := by
        refine Option.ne_none_iff_exists'.mp fun hnone => ?_
        rw [Redis.lrange, KeyedList.last?_eq_none.mp hnone] at hn
        cases hn
      have hlist := KeyedList.get_removeRight_last hlast
      have hstep : step cfg s (.recoverOwn w false) = some (s.withRedis { s.redis with
          pending := s.redis.pending ++ [id],
          processing := KeyedList.removeRight s.redis.processing w id }) := by
        simp only [step, recoverOwnProcessing, hp, Redis.lmove, hlast, Option.map_some]
      have hrest := ih (s.withRedis { s.redis with
          pending := s.redis.pending ++ [id],
          processing := KeyedList.removeRight s.redis.processing w id })
        (by rw [Redis.lrange, hlist, List.length_append] at hn
            exact Nat.succ.inj hn) hp
      have hrun := (Tends.of_step hstep trivial).trans hrest
      rw [Redis.lrange, hlist, List.reverse_append, List.reverse_singleton, ← List.append_assoc,
        ← filter_removeRight s.redis.processing w id]
      exact hrun

private theorem update_of_forall_not {db : Db} {whr : JobRow → Bool} {set : JobRow → JobRow}
    (h : ∀ r ∈ db.jobs, whr r = false) : db.update whr set = db := by
  have hmap : (db.jobs.map fun r => if whr r then set r else r) = db.jobs := by
    conv_rhs => rw [← List.map_id db.jobs]
    exact List.map_congr_left fun r hr => by simp [h r hr]
  rw [Db.update, hmap]

/-- The heartbeat that an earlier process of this id has left is gone. -/
private theorem expire_continues (s : State) (w : WorkerId) :
    Tends cfg can s (s.withRedis (s.redis.expire w)) := by
  by_cases halive : w ∈ s.redis.alive
  · exact Tends.of_step (a := .expire w) (if_pos halive) trivial
  · have hsame : s.redis.alive.filter (· ≠ w) = s.redis.alive := by
      refine List.filter_eq_self.mpr fun w' hw' => ?_
      simp only [decide_eq_true_eq]
      rintro rfl
      exact halive hw'
    rw [Redis.expire, hsame]
    exact .refl

/-- A process starts under the id and finds no heartbeat. -/
private theorem spawn_continues (cfg : Config) (can : Uuid → Outcome → Prop)
    (hdown : (s.procs w).isDown = true) (hw : w ≠ []) (hc : 1 ≤ c) :
    Tends cfg can s ((s.withRedis (s.redis.expire w)).setProc w (.starting .readList c)) := by
  have hspawn : step cfg (s.withRedis (s.redis.expire w)) (.spawn w c) =
      some ((s.withRedis (s.redis.expire w)).setProc w (.starting .checkAlive c)) := by
    rcases Proc.isDown_iff.mp hdown with hp | hp <;>
      simp only [step, spawn, State.withRedis_procs, hp, hw, hc, ne_eq, not_false_eq_true, and_self,
        if_true]
  have hcheck : step cfg ((s.withRedis (s.redis.expire w)).setProc w (.starting .checkAlive c))
      (.recoverOwn w false) =
        some ((s.withRedis (s.redis.expire w)).setProc w (.starting .readList c)) := by
    have hnone : w ∉ (s.redis.expire w).alive := by simp [Redis.expire]
    simp only [step, recoverOwnProcessing, State.withRedis_redis, Function.update_self, hnone,
      if_false, State.setProc, Function.update_idem]
  exact ((expire_continues s w).trans (Tends.of_step hspawn trivial)).trans
    (Tends.of_step hcheck trivial)

/-- What `recoverOwnProcessing` has done by the time of the first heartbeat. -/
private structure Recovered (w : WorkerId) (c : Nat) (s t : State) : Prop where
  procs : t.procs = Function.update s.procs w (.starting .firstBeat c)
  execs : t.execs = s.execs
  scheds : t.scheds = s.scheds
  apis : t.apis = s.apis
  db : t.db = s.db.update (strandedRow ((s.redis.lrange w).filter isUuid)) .requeued
  pending : ∃ back, t.redis.pending = s.redis.pending ++ back ∧
    back.length ≤ (s.redis.lrange w).length ∧
      ∀ id, (w, id) ∈ s.redis.processing → isUuid id = true → id ∈ back
  listed : ∀ k ∈ t.redis.processing, k ∈ s.redis.processing
  delayed : t.redis.delayed = s.redis.delayed
  alive : t.redis.alive = s.redis.alive

private theorem exists_recovered (cfg : Config) (can : Uuid → Outcome → Prop)
    (hp : s.procs w = .starting .readList c) (hexecs : s.execs = []) :
    ∃ t, Tends cfg can s t ∧ Recovered w c s t := by
  cases hlist : (s.redis.lrange w).filter isUuid with
  | nil =>
      have hstep : step cfg s (.recoverOwn w false) = some (s.setProc w (.starting .firstBeat c)) := by
        simp only [step, recoverOwnProcessing, hp, hlist]
      refine ⟨_, Tends.of_step hstep trivial, rfl, rfl, rfl, rfl, ?_,
        ⟨[], (List.append_nil _).symm, Nat.zero_le _, fun id hid huuid => ?_⟩, fun _ => id, rfl, rfl⟩
      · rw [hlist]
        exact (update_of_forall_not fun r _ => by simp [strandedRow]).symm
      · have hmem := List.mem_filter.mpr ⟨KeyedList.mem_get.mpr hid, huuid⟩
        rw [← hlist]
        exact hmem
  | cons first rest =>
      have hread : step cfg s (.recoverOwn w false) =
          some (s.setProc w (.starting (.reset (first :: rest)) c)) := by
        simp only [step, recoverOwnProcessing, hp, hlist]
      have hreset : step cfg (s.setProc w (.starting (.reset (first :: rest)) c)) (.recoverOwn w false) =
          some (((s.setProc w (.starting (.reset (first :: rest)) c)).withDb
            (s.db.update (strandedRow (first :: rest)) .requeued)).setProc w (.starting .moveAll c)) := by
        simp [step, recoverOwnProcessing, State.locked, hexecs]
      have hmove := moveAll_continues (c := c) (w := w) cfg can _
        (((s.setProc w (.starting (.reset (first :: rest)) c)).withDb
          (s.db.update (strandedRow (first :: rest)) .requeued)).setProc w (.starting .moveAll c))
        rfl (by simp)
      refine ⟨_, ((Tends.of_step hread trivial).trans
        (Tends.of_step hreset trivial)).trans hmove, ?_, rfl, rfl, rfl, ?_,
        ⟨(s.redis.lrange w).reverse, rfl, List.length_reverse.le, fun id hid _ => ?_⟩, ?_, rfl, rfl⟩
      · show Function.update (Function.update (Function.update s.procs w _) w _) w _ = _
        rw [Function.update_idem, Function.update_idem]
      · rw [hlist]
        rfl
      · exact List.mem_reverse.mpr (KeyedList.mem_get.mpr hid)
      · exact fun k hk => (List.mem_filter.mp hk).1

variable (cfg can) in
/-- A worker starts and runs, and has put back what its list held. -/
theorem State.Cold.exists_started (cold : s.Cold) (hw : w ≠ []) :
    ∃ t, Tends cfg can s t ∧ t.Staffed w ∧ t.execs = [] ∧ Restarted w s t := by
  obtain ⟨c, hc⟩ : ∃ c, c = s.redis.pending.length + (s.redis.lrange w).length + 1 := ⟨_, rfl⟩
  have hspawn := spawn_continues (c := c) cfg can (cold.procs w) hw (by omega)
  have hreads : ((s.withRedis (s.redis.expire w)).setProc w (.starting .readList c)).procs w =
      .starting .readList c := Function.update_self ..
  obtain ⟨v, hrun, hv⟩ := exists_recovered cfg can hreads cold.execs
  have hprocs : v.procs w = .starting .firstBeat c := by
    rw [hv.procs, Function.update_self]
  have hbeat : step cfg v (.recoverOwn w false) =
      some ((v.withRedis (v.redis.beat w)).setProc w (.running c)) := by
    simp only [step, recoverOwnProcessing, hprocs]
  obtain ⟨back, hpending, hlength, hmoved⟩ := hv.pending
  have hexecs : v.execs = [] := hv.execs.trans cold.execs
  refine ⟨_, (hspawn.trans hrun).trans (Tends.of_step hbeat trivial), ?_, hexecs, ?_⟩
  · refine ⟨⟨c, Function.update_self .., ?_⟩, fun w' hne => ?_, ?_, ?_, hv.scheds.trans cold.scheds,
      hv.apis.trans cold.apis⟩
    · show v.execs.length + v.redis.pending.length ≤ c
      have hle : back.length ≤ (s.redis.lrange w).length := hlength
      rw [hexecs, hpending, List.length_append]
      show 0 + (s.redis.pending.length + back.length) ≤ c
      omega
    · rw [State.setProc_procs, Function.update_of_ne hne, State.withRedis_procs, hv.procs,
        Function.update_of_ne hne, State.setProc_procs, Function.update_of_ne hne]
      exact cold.procs w'
    · rw [State.setProc_execs, State.withRedis_execs, hexecs]
      rintro e ⟨⟩
    · rw [State.setProc_execs, State.withRedis_execs, hexecs]
      rintro e ⟨⟩
  · refine ⟨hv.db, fun id hid => ?_, fun id hid huuid => ?_, hv.listed, hv.delayed,
      List.mem_cons_self, fun w' hw' => ?_⟩
    · show id ∈ v.redis.pending
      rw [hpending]
      exact List.mem_append_left _ hid
    · show id ∈ v.redis.pending
      rw [hpending]
      exact List.mem_append_right _ (hmoved id hid huuid)
    · show w' ∈ w :: v.redis.alive.filter (· ≠ w)
      rw [hv.alive]
      by_cases heq : w' = w
      · exact heq ▸ List.mem_cons_self
      · exact List.mem_cons_of_mem _ (by simp [Redis.expire, hw', heq])

/-! ## The worker takes what is pending -/

namespace State.Staffed

variable (cfg can) in
theorem exists_killed (staffed : s.Staffed w) :
    ∃ t, Tends cfg can s t ∧ t.Cold ∧ t.db = s.db ∧ t.redis = s.redis := by
  obtain ⟨c, hp, -⟩ := staffed.room
  have hstep : step cfg s (.kill w) = some ((s.setProc w .gone).dropExecs w) := by
    simp [step, kill, hp, Proc.isRunning]
  refine ⟨_, Tends.of_step hstep trivial, ⟨?_, staffed.scheds, staffed.apis, fun w' => ?_⟩,
    rfl, rfl⟩
  · exact List.filter_eq_nil_iff.mpr fun e he => by simp [staffed.hosts e he]
  · rw [State.dropExecs_procs, State.setProc_procs, Function.update_apply]
    split
    · rfl
    · rename_i hne
      exact staffed.others w' hne

variable (cfg can) in
/-- One `BLMOVE`. -/
private theorem take_last (staffed : s.Staffed w) {rest : List Text} (hpending : s.redis.pending = rest ++ [id]) :
    ∃ t, Tends cfg can s t ∧ t.Staffed w ∧ t.db = s.db ∧ t.redis.pending = rest ∧
      t.redis.processing = (w, id) :: s.redis.processing ∧
        t.execs = ⟨w, id, if isUuid id then .select else .discard⟩ :: s.execs := by
  obtain ⟨c, hp, hroom⟩ := staffed.room
  rw [hpending, List.length_append, List.length_singleton] at hroom
  have hflight : s.inFlight w < c :=
    lt_of_le_of_lt List.countP_le_length (by omega)
  have hstep : step cfg s (.take w) = some ((s.withRedis { s.redis with
      pending := rest, processing := (w, id) :: s.redis.processing }).addExec
        ⟨w, id, if isUuid id then .select else .discard⟩) := by
    simp [step, take, hp, hflight, Redis.blmove, hpending, KeyedList.pushLeft]
  refine ⟨_, Tends.of_step hstep trivial, ⟨⟨c, hp, ?_⟩, staffed.others, ?_, ?_,
    staffed.scheds, staffed.apis⟩, rfl, rfl, rfl, rfl⟩
  · show s.execs.length + 1 + rest.length ≤ c
    omega
  · intro e he
    rcases List.mem_cons.mp he with rfl | he
    · rfl
    · exact staffed.hosts e he
  · intro e he
    rcases List.mem_cons.mp he with rfl | he
    · by_cases huuid : isUuid id = true <;> simp [huuid, ExecPc.locks]
    · exact staffed.free e he

/-- The worker takes what is pending until it comes to the id. -/
theorem exists_taken : ∀ (n : Nat) (s : State), s.redis.pending.length = n → s.Staffed w →
    id ∈ s.redis.pending → ∃ t, Tends cfg can s t ∧ t.Staffed w ∧ t.db = s.db ∧
      (w, id) ∈ t.redis.processing ∧
        ⟨w, id, if isUuid id then .select else .discard⟩ ∈ t.execs := by
  intro n
  induction n with
  | zero =>
      intro s hn _ hid
      rw [List.length_eq_zero_iff.mp hn] at hid
      cases hid
  | succ n ih =>
      intro s hn staffed hid
      obtain ⟨rest, last, hpending⟩ : ∃ rest last, s.redis.pending = rest ++ [last] :=
        ⟨_, _, (List.dropLast_append_getLast (List.ne_nil_of_mem hid)).symm⟩
      obtain ⟨t, hrun, hstaffed, hdb, hrest, hlisted, hexecs⟩ := staffed.take_last cfg can hpending
      by_cases hlast : id = last
      · subst hlast
        exact ⟨t, hrun, hstaffed, hdb, by rw [hlisted]; exact List.mem_cons_self,
          by rw [hexecs]; exact List.mem_cons_self⟩
      · have hin : id ∈ rest := by
          rw [hpending] at hid
          exact (List.mem_append.mp hid).resolve_right fun h => hlast (List.mem_singleton.mp h)
        rw [hpending, List.length_append, List.length_singleton] at hn
        obtain ⟨u, hrun', hstaffed', hdb', hlisted', hexecs'⟩ :=
          ih t (by rw [hrest]; omega) hstaffed (by rw [hrest]; exact hin)
        exact ⟨u, hrun.trans hrun', hstaffed', hdb'.trans hdb, hlisted', hexecs'⟩

end State.Staffed

/-! ## The worker carries a job through -/

private theorem exec_continues {e : Exec} (he : e ∈ s.execs) (o : Outcome)
    (ho : ∀ h, e.pc = .handler h → can h.job o) (h : processOne cfg s e o = some t) :
    Tends cfg can s t :=
  Tends.of_step (a := .exec e o) ((if_pos he).trans h) ho

private theorem updateRow_updateRow (db : Db) (job : Uuid) {set set' : JobRow → JobRow}
    (hset : Db.KeepsId set) : (db.updateRow job set).updateRow job set' =
      db.updateRow job fun r => set' (set r) := by
  have hmap (r : JobRow) : (if (if r.id = job then set r else r).id = job then
      set' (if r.id = job then set r else r) else (if r.id = job then set r else r)) =
        if r.id = job then set' (set r) else r := by
    by_cases hr : r.id = job
    · rw [if_pos hr, if_pos ((hset r).trans hr), if_pos hr]
    · rw [if_neg hr, if_neg hr, if_neg hr]
  simp only [Db.updateRow, Db.update, List.map_map, Function.comp_def, decide_eq_true_eq, hmap]

/-- The state in which one execution is at this point and the others are as they are in `rest`. -/
private def State.amid (s : State) (rest : List Exec) (e : Exec) (db : Db) (claims : List Claim) : State :=
  { s with db := db, execs := e :: rest, claims := claims }

private theorem amid_continues {rest : List Exec} {pc pc' : ExecPc} {db db' : Db} {claims claims' : List Claim}
    (hpc : ∀ h, pc = .handler h → can h.job .returned)
    (h : processOne cfg (s.amid rest ⟨w, id, pc⟩ db claims) ⟨w, id, pc⟩ .returned =
      some (s.amid rest ⟨w, id, pc'⟩ db' claims')) :
    Tends cfg can (s.amid rest ⟨w, id, pc⟩ db claims) (s.amid rest ⟨w, id, pc'⟩ db' claims') :=
  exec_continues List.mem_cons_self .returned hpc h

private theorem setExec_amid {rest : List Exec} {pc pc' : ExecPc} {db : Db} {claims : List Claim} :
    (s.amid rest ⟨w, id, pc⟩ db claims).setExec ⟨w, id, pc⟩ pc' = s.amid rest ⟨w, id, pc'⟩ db claims := by
  simp only [State.amid, State.setExec, Bag.swap, List.erase_cons_head]

private theorem locked_amid {rest : List Exec} {pc : ExecPc} {db : Db} {claims : List Claim}
    (hrest : ∀ e ∈ rest, e.pc.locks = none) (hpc : pc.locks = none) (job : Uuid) :
    (s.amid rest ⟨w, id, pc⟩ db claims).locked job = false :=
  State.locked_eq_false.mpr fun e he => by
    rcases List.mem_cons.mp he with rfl | he
    · rw [hpc]
      rintro ⟨⟩
    · rw [hrest e he]
      rintro ⟨⟩

private theorem staffed_amid (staffed : s.Staffed w) (he : ⟨w, id, .select⟩ ∈ s.execs) {pc : ExecPc}
    (hpc : pc.locks = none) (db : Db) (claims : List Claim) :
    (s.amid (s.execs.erase ⟨w, id, .select⟩) ⟨w, id, pc⟩ db claims).Staffed w := by
  obtain ⟨c, hp, hroom⟩ := staffed.room
  have hlength := List.length_erase_add_one he
  refine ⟨⟨c, hp, by rw [← hlength] at hroom; exact hroom⟩, staffed.others, fun e hmem => ?_,
    fun e hmem => ?_, staffed.scheds, staffed.apis⟩
  · rcases List.mem_cons.mp hmem with rfl | hmem
    · rfl
    · exact staffed.hosts e (List.mem_of_mem_erase hmem)
  · rcases List.mem_cons.mp hmem with rfl | hmem
    · exact hpc
    · exact staffed.free e (List.mem_of_mem_erase hmem)

/-- The state in which the execution has claimed its job. -/
private def State.claiming (s : State) (w : WorkerId) (id : Text) (job : Uuid) (pc : ExecPc) (db : Db) : State :=
  s.amid (s.execs.erase ⟨w, id, .select⟩) ⟨w, id, pc⟩ db (⟨job, s.db.nextLease, w, id⟩ :: s.claims)

private theorem locked_claiming (staffed : s.Staffed w) {pc : ExecPc} {db : Db} (hpc : pc.locks = none)
    (job' : Uuid) : (s.claiming w id job pc db).locked job' = false :=
  locked_amid (fun e hmem => staffed.free e (List.mem_of_mem_erase hmem)) hpc job'

variable (cfg can) in
private theorem claims_job (staffed : s.Staffed w) (he : ⟨w, id, .select⟩ ∈ s.execs)
    (hid : uuidIn id = some job) (hrow : s.db.row job = some r) (hclaim : r.status.claimable = true) :
    Tends cfg can s (s.claiming w id job (.handler (s.claimOf job r r.maxAttempts)) (s.db.claim job s.now)) := by
  obtain ⟨rest, hrest⟩ : ∃ rest, rest = s.execs.erase ⟨w, id, .select⟩ := ⟨_, rfl⟩
  have hfree : ∀ e ∈ rest, e.pc.locks = none := fun e hmem =>
    staffed.free e (List.mem_of_mem_erase (hrest ▸ hmem))
  have hselect : Tends cfg can s (s.amid rest ⟨w, id, .claim job r.maxAttempts⟩ s.db s.claims) := by
    refine exec_continues he .returned (by rintro h ⟨⟩) ?_
    simp only [processOne, hid, hrow, hrest]
    rfl
  have hfound : (s.amid rest ⟨w, id, .claim job r.maxAttempts⟩ s.db s.claims).claimableRow job = some r := by
    rw [State.claimableRow, State.amid, hrow, Option.filter_some, if_pos hclaim]
  have hunlocked : (s.amid rest ⟨w, id, .claim job r.maxAttempts⟩ s.db s.claims).locked job = false :=
    locked_amid hfree rfl job
  refine hselect.trans ?_
  rw [State.claiming, ← hrest]
  refine amid_continues (by rintro h ⟨⟩) ?_
  simp only [processOne, hunlocked, hfound, Bool.false_eq_true, if_false]
  simp only [State.amid, State.claim, State.setExec, State.claimOf, Bag.swap, List.erase_cons_head]

/-- The row under the claim is found by every write-back. -/
private theorem ownRow_claiming {pc : ExecPc} (hrow : s.db.row job = some r) :
    (s.claiming w id job pc (s.db.claim job s.now)).ownRow cfg (s.claimOf job r r.maxAttempts) =
      some (r.claimed s.db.nextLease s.now) := by
  have hclaimed := Db.row_updateRow_self (Db.keepsId_claimed s.db.nextLease s.now) hrow
  have howns : ownsRow cfg (s.claimOf job r r.maxAttempts) (r.claimed s.db.nextLease s.now) = true := by
    simp [ownsRow, JobRow.claimed, State.claimOf]
  rw [State.ownRow, State.claiming, State.amid]
  show ((s.db.claim job s.now).row job).filter _ = _
  rw [Db.row_claim, hclaimed, Option.filter_some, if_pos howns]

/-- The job's row gets such a status, and no other row changes. -/
private def Writes (P : JobStatus → Prop) (job : Uuid) (s t : State) : Prop :=
  ∃ set, Db.KeepsId set ∧ (∀ r, P (set r).status) ∧ t.db.jobs = (s.db.updateRow job set).jobs

private theorem writes_of_claimed {P : JobStatus → Prop} {set : JobRow → JobRow} (hset : Db.KeepsId set)
    (hstatus : ∀ r, P (set r).status)
    (hjobs : t.db.jobs = ((s.db.claim job s.now).updateRow job set).jobs) : Writes P job s t := by
  refine ⟨fun r => set (r.claimed s.db.nextLease s.now), fun r => hset _, fun r => hstatus _, ?_⟩
  have hrows : ((s.db.updateRow job (.claimed s.db.nextLease s.now)).updateRow job set).jobs =
      (s.db.updateRow job fun r => set (r.claimed s.db.nextLease s.now)).jobs :=
    congrArg Db.jobs (updateRow_updateRow s.db job (Db.keepsId_claimed s.db.nextLease s.now))
  exact hjobs.trans hrows

variable (cfg) in
/-- A job that can be claimed is claimed, its handler returns, and the outcome is recorded. -/
private theorem State.Staffed.exists_returned (staffed : s.Staffed w) (hreturns : can job .returned)
    (he : ⟨w, id, .select⟩ ∈ s.execs) (hid : uuidIn id = some job) (hrow : s.db.row job = some r)
    (hclaim : r.status.claimable = true) :
    ∃ t, Tends cfg can s t ∧ t.Staffed w ∧ Writes (· = .succeeded) job s t ∧
      0 < t.db.effectsFor job := by
  obtain ⟨h, hh⟩ : ∃ h, h = s.claimOf job r r.maxAttempts := ⟨_, rfl⟩
  obtain ⟨db, hdb⟩ : ∃ db, db = s.db.claim job s.now := ⟨_, rfl⟩
  have hjob : h.job = job := by rw [hh]; rfl
  have hclaimed := claims_job cfg can staffed he hid hrow hclaim
  rw [← hh, ← hdb] at hclaimed
  have hreturned : Tends cfg can (s.claiming w id job (.handler h) db) (s.claiming w id job (.txBegin h) db) :=
    amid_continues (by rintro h ⟨⟩; rwa [hjob]) (congrArg some setExec_amid)
  have hbegun : Tends cfg can (s.claiming w id job (.txBegin h) db)
      (s.claiming w id job (.txUpdate h s.now) db) :=
    amid_continues (by rintro h ⟨⟩) (congrArg some setExec_amid)
  have hupdated : Tends cfg can (s.claiming w id job (.txUpdate h s.now) db)
      (s.claiming w id job (.txInsert h s.now) db) := by
    refine amid_continues (by rintro h ⟨⟩) ?_
    have howned : (s.claiming w id job (.txUpdate h s.now) db).ownRow cfg h =
        some (r.claimed s.db.nextLease s.now) := by
      rw [hh, hdb]
      exact ownRow_claiming hrow
    have hunlocked : (s.claiming w id job (.txUpdate h s.now) db).locked h.job = false :=
      locked_claiming staffed rfl h.job
    rw [State.claiming] at howned hunlocked
    simp only [processOne, hunlocked, howned, setExec_amid, Bool.false_eq_true, if_false]
  have hinserted : Tends cfg can (s.claiming w id job (.txInsert h s.now) db)
      (s.claiming w id job (.txCommit h s.now) db) :=
    amid_continues (by rintro h ⟨⟩) (congrArg some setExec_amid)
  have hcommitted : Tends cfg can (s.claiming w id job (.txCommit h s.now) db)
      (s.claiming w id job .release ((db.updateRow job (.succeeded s.now)).insertEffect ⟨job, w, s.now⟩)) := by
    refine amid_continues (by rintro h ⟨⟩) ?_
    simp only [processOne, State.settle, State.amid, State.setExec, hjob, Bag.swap, List.erase_cons_head]
  refine ⟨_, ((((hclaimed.trans hreturned).trans hbegun).trans hupdated).trans hinserted).trans hcommitted,
    staffed_amid staffed he rfl _ _,
    writes_of_claimed (Db.keepsId_succeeded s.now) (fun _ => rfl) (by rw [hdb]; rfl), ?_⟩
  show 0 < Db.effectsFor (Db.insertEffect _ _) job
  rw [Db.effectsFor_insertEffect, if_pos rfl]
  exact Nat.succ_pos _

variable (cfg) in
/-- A job that can be claimed is claimed, its handler throws, and the failure is recorded. -/
private theorem State.Staffed.exists_thrown (staffed : s.Staffed w) (hthrows : can job (.threw message random))
    (he : ⟨w, id, .select⟩ ∈ s.execs)
    (hid : uuidIn id = some job) (hrow : s.db.row job = some r) (hclaim : r.status.claimable = true) :
    ∃ t, Tends cfg can s t ∧ t.Staffed w ∧ Writes (fun st => st = .retrying ∨ st = .dead) job s t := by
  obtain ⟨h, hh⟩ : ∃ h, h = s.claimOf job r r.maxAttempts := ⟨_, rfl⟩
  obtain ⟨db, hdb⟩ : ∃ db, db = s.db.claim job s.now := ⟨_, rfl⟩
  have hjob : h.job = job := by rw [hh]; rfl
  have hclaimed := claims_job cfg can staffed he hid hrow hclaim
  rw [← hh, ← hdb] at hclaimed
  have howned (pc : ExecPc) : (s.claiming w id job pc db).ownRow cfg h = some (r.claimed s.db.nextLease s.now) := by
    rw [hh, hdb]
    exact ownRow_claiming hrow
  have hthrown : Tends cfg can (s.claiming w id job (.handler h) db)
      (s.claiming w id job (caught cfg (s.claiming w id job (.handler h) db) h message random) db) :=
    exec_continues List.mem_cons_self (.threw message random) (by rintro h ⟨⟩; rwa [hjob])
      (congrArg some setExec_amid)
  rw [caught] at hthrown
  split at hthrown
  · have hburied : Tends cfg can (s.claiming w id job (.bury h message) db)
        (s.claiming w id job .release (db.updateRow job (.buried message s.now))) := by
      refine amid_continues (by rintro h ⟨⟩) ?_
      have hown := howned (.bury h message)
      have hunlocked : (s.claiming w id job (.bury h message) db).locked h.job = false :=
        locked_claiming staffed rfl h.job
      rw [State.claiming] at hown hunlocked
      simp only [processOne, hunlocked, hown, Bool.false_eq_true, if_false]
      simp only [State.write, State.amid, State.setExec, hjob, Bag.swap, List.erase_cons_head]
    exact ⟨_, (hclaimed.trans hthrown).trans hburied, staffed_amid staffed he rfl _ _,
      writes_of_claimed (Db.keepsId_buried message s.now) (fun _ => .inr rfl) (by rw [hdb]; rfl)⟩
  · obtain ⟨runAt, hrunAt⟩ : ∃ n, n = (s.claiming w id job (.handler h) db).dateNow +
        nextDelayMs cfg h.attempts random := ⟨_, rfl⟩
    rw [← hrunAt] at hthrown
    have hparked : Tends cfg can (s.claiming w id job (.park h message runAt) db)
        (s.claiming w id job (.zadd h runAt) (db.updateRow job (.parked message runAt))) := by
      refine amid_continues (by rintro h ⟨⟩) ?_
      have hown := howned (.park h message runAt)
      have hunlocked : (s.claiming w id job (.park h message runAt) db).locked h.job = false :=
        locked_claiming staffed rfl h.job
      rw [State.claiming] at hown hunlocked
      simp only [processOne, hunlocked, hown, Bool.false_eq_true, if_false]
      simp only [State.write, State.amid, State.setExec, hjob, Bag.swap, List.erase_cons_head]
    obtain ⟨t, ht⟩ : ∃ t, t = s.claiming w id job .release (db.updateRow job (.parked message runAt)) := ⟨_, rfl⟩
    have hdelayed : Tends cfg can (s.claiming w id job (.zadd h runAt) (db.updateRow job (.parked message runAt)))
        (t.withRedis (t.redis.zadd runAt (uuidOut h.job))) := by
      refine exec_continues List.mem_cons_self .returned (by rintro h ⟨⟩) ?_
      rw [ht]
      simp only [processOne, State.claiming, State.amid, State.setExec, State.withRedis, Bag.swap,
        List.erase_cons_head]
    have hstaffed : t.Staffed w := ht ▸ staffed_amid staffed he rfl _ _
    refine ⟨_, ((hclaimed.trans hthrown).trans hparked).trans hdelayed, ⟨hstaffed.room, hstaffed.others,
      hstaffed.hosts, hstaffed.free, hstaffed.scheds, hstaffed.apis⟩, ?_⟩
    exact writes_of_claimed (Db.keepsId_parked message runAt) (fun _ => .inl rfl) (by rw [ht, hdb]; rfl)

/-! ## From one cold state to the next -/

/-- The rows that were 'running' may be 'queued' again; the others are as they were. -/
def SetsBack (f : JobRow → JobRow) (r : JobRow) : Prop := f r = r ∨ r.status = .running ∧ f r = r.requeued

theorem SetsBack.id_eq {f : JobRow → JobRow} (h : SetsBack f r) : (f r).id = r.id := by
  rcases h with h | ⟨-, h⟩ <;> rw [h]
  rfl

theorem SetsBack.terminal_eq {f : JobRow → JobRow} (h : SetsBack f r) :
    (f r).status.terminal = r.status.terminal := by
  rcases h with h | ⟨hrun, h⟩ <;> rw [h]
  rw [hrun]
  rfl

theorem SetsBack.trans {f g : JobRow → JobRow} (h : SetsBack f r) (h' : SetsBack g (f r)) :
    SetsBack (g ∘ f) r := by
  rcases h with h | ⟨hrun, h⟩
  · rw [h] at h'
    rw [SetsBack, Function.comp, h]
    exact h'
  · rcases h' with h' | ⟨hrun', -⟩
    · exact .inr ⟨hrun, h'.trans h⟩
    · rw [h] at hrun'
      cases hrun'

theorem Db.row_of_map {db db' : Db} {f : JobRow → JobRow} (hf : Db.KeepsId f)
    (h : db'.jobs = db.jobs.map f) : db'.row job = (db.row job).map f := by
  have hid : (fun r : JobRow => decide (r.id = job)) ∘ f = fun r => decide (r.id = job) := by
    funext r
    rw [Function.comp, hf r]
  rw [Db.row, h, List.find?_map, hid, Db.row]

/-- A worker has started and ended again. -/
def SetBack (s t : State) : Prop := ∃ f, t.db.jobs = s.db.jobs.map f ∧ ∀ r, SetsBack f r

theorem SetBack.row (h : SetBack s t) (hrow : s.db.row job = some r) :
    ∃ r', t.db.row job = some r' ∧ r'.status.terminal = r.status.terminal := by
  obtain ⟨f, hjobs, hf⟩ := h
  refine ⟨f r, ?_, (hf r).terminal_eq⟩
  rw [Db.row_of_map (fun r => (hf r).id_eq) hjobs, hrow]
  rfl

theorem SetBack.refl : SetBack s s := ⟨fun r => r, (List.map_id _).symm, fun _ => .inl rfl⟩

theorem SetBack.queued (h : SetBack s t) (hrow : s.db.row job = some r) (hqueued : r.status = .queued) :
    ∃ r', t.db.row job = some r' ∧ r'.status = .queued := by
  obtain ⟨f, hjobs, hf⟩ := h
  refine ⟨f r, by rw [Db.row_of_map (fun r => (hf r).id_eq) hjobs, hrow, Option.map_some], ?_⟩
  rcases hf r with heq | ⟨-, heq⟩
  · rw [heq, hqueued]
  · rw [heq]
    rfl

theorem SetBack.trans (h : SetBack s t) (h' : SetBack t u) : SetBack s u := by
  obtain ⟨f, hjobs, hf⟩ := h
  obtain ⟨g, hjobs', hg⟩ := h'
  exact ⟨g ∘ f, by rw [hjobs', hjobs, List.map_map], fun r => (hf r).trans (hg (f r))⟩

theorem SetBack.of_db (h : SetBack s t) (hdb : u.db = t.db) : SetBack s u := by
  obtain ⟨f, hjobs, hf⟩ := h
  exact ⟨f, by rw [hdb, hjobs], hf⟩

theorem Restarted.setBack (h : Restarted w s t) : SetBack s t := by
  refine ⟨_, congrArg Db.jobs h.db, fun r => ?_⟩
  by_cases hr : strandedRow ((s.redis.lrange w).filter isUuid) r = true
  · refine .inr ⟨?_, if_pos hr⟩
    simp only [strandedRow, Bool.and_eq_true, decide_eq_true_eq] at hr
    exact hr.2
  · exact .inl (if_neg hr)

namespace State.Cold

variable (cfg can) in
/-- A worker takes a pending id and is killed. -/
theorem exists_listed (cold : s.Cold) (hid : id ∈ s.redis.pending) :
    ∃ t, Tends cfg can s t ∧ t.Cold ∧ SetBack s t ∧ (['w'], id) ∈ t.redis.processing := by
  obtain ⟨u, hstart, hstaffed, -, hu⟩ := cold.exists_started cfg can (w := ['w']) (by rintro ⟨⟩)
  obtain ⟨v, htake, hstaffed', hdb, hlisted, -⟩ :=
    State.Staffed.exists_taken _ u rfl hstaffed (hu.pending id hid)
  obtain ⟨t, hkill, hcold, hdb', hredis⟩ := hstaffed'.exists_killed cfg can
  obtain ⟨f, hjobs, hf⟩ := hu.setBack
  exact ⟨t, (hstart.trans htake).trans hkill, hcold, ⟨f, by rw [hdb', hdb, hjobs], hf⟩,
    by rw [hredis]; exact hlisted⟩

variable (cfg can) in
/-- A worker that starts under the id of a list puts it back, with jobs that can be claimed. -/
theorem exists_relisted (cold : s.Cold) (hw : w ≠ []) (hid : (w, id) ∈ s.redis.processing)
    (hnames : Names id job) (hrow : s.db.row job = some r) (hterm : r.status.terminal = false) :
    ∃ t, Tends cfg can s t ∧ t.Cold ∧ SetBack s t ∧ id ∈ t.redis.pending ∧
      ∃ r', t.db.row job = some r' ∧ r'.status.claimable = true := by
  obtain ⟨u, hstart, hstaffed, -, hu⟩ := cold.exists_started cfg can hw
  obtain ⟨t, hkill, hcold, hdb, hredis⟩ := hstaffed.exists_killed cfg can
  obtain ⟨f, hjobs, hf⟩ := hu.setBack
  refine ⟨t, hstart.trans hkill, hcold, ⟨f, by rw [hdb, hjobs], hf⟩,
    by rw [hredis]; exact hu.moved id hid hnames.1, ?_⟩
  have hstranded : strandedRow ((s.redis.lrange w).filter isUuid) r = decide (r.status = .running) := by
    have hany : ((s.redis.lrange w).filter isUuid).any (fun id => uuidIn id = some r.id) = true := by
      refine List.any_eq_true.mpr ⟨id, List.mem_filter.mpr ⟨KeyedList.mem_get.mpr hid, hnames.1⟩, ?_⟩
      rw [Db.id_of_row hrow]
      exact decide_eq_true hnames.2
    rw [strandedRow, hany, Bool.true_and]
  have hrow' : t.db.row job = some (if decide (r.status = .running) then r.requeued else r) := by
    rw [hdb, hu.db, Db.row_update Db.keepsId_requeued, hrow, Option.map_some, hstranded]
  refine ⟨_, hrow', ?_⟩
  cases hstatus : r.status with
  | running => rfl
  | queued | retrying => simp [hstatus, JobStatus.claimable]
  | succeeded | failed | dead => rw [hstatus] at hterm; cases hterm

variable (cfg can) in
/-- A worker takes a pending id, and finds its job as it was. -/
private theorem exists_selected (cold : s.Cold) (hid : id ∈ s.redis.pending) (hnames : Names id job)
    (hrow : s.db.row job = some r) (hclaim : r.status.claimable = true) :
    ∃ t, Tends cfg can s t ∧ t.Staffed ['w'] ∧ SetBack s t ∧ ⟨['w'], id, .select⟩ ∈ t.execs ∧
      t.db.row job = some r := by
  obtain ⟨u, hstart, hstaffed, -, hu⟩ := cold.exists_started cfg can (w := ['w']) (by rintro ⟨⟩)
  obtain ⟨v, htake, hstaffed', hdb, -, hexec⟩ :=
    State.Staffed.exists_taken _ u rfl hstaffed (hu.pending id hid)
  rw [if_pos hnames.1] at hexec
  refine ⟨v, hstart.trans htake, hstaffed', hu.setBack.of_db hdb, hexec, ?_⟩
  obtain ⟨f, hjobs, hf⟩ := hu.setBack
  -- The row was not 'running', so the start has left it alone.
  have hkept : f r = r := by
    rcases hf r with h | ⟨hrun, -⟩
    · exact h
    · rw [hrun] at hclaim
      cases hclaim
  rw [hdb, Db.row_of_map (fun r => (hf r).id_eq) hjobs, hrow, Option.map_some, hkept]

end State.Cold

/-! ## Listed jobs -/

/-- The id is in `pending` or in a processing list. -/
def State.Listed (s : State) (job : Uuid) : Prop :=
  ∃ id, Names id job ∧ (id ∈ s.redis.pending ∨ ∃ w, (w, id) ∈ s.redis.processing)

/-- The job's row gets such a status; of the others, those that were 'running' may be 'queued' again. -/
def Brings (P : JobStatus → Prop) (job : Uuid) (s t : State) : Prop :=
  ∃ f, t.db.jobs = s.db.jobs.map f ∧ ∀ r, (r.id = job → (f r).id = job ∧ P (f r).status) ∧
    (r.id ≠ job → SetsBack f r)

namespace Brings

variable {P : JobStatus → Prop}

theorem row (h : Brings P job s t) {job' : Uuid} (hrow : s.db.row job' = some r) :
    ∃ r', t.db.row job' = some r' ∧ (job' = job → P r'.status) ∧
      (job' ≠ job → r.status = .queued → r'.status = .queued) := by
  obtain ⟨f, hjobs, hf⟩ := h
  have hid : Db.KeepsId f := fun r => by
    by_cases hr : r.id = job
    · rw [((hf r).1 hr).1, hr]
    · exact ((hf r).2 hr).id_eq
  refine ⟨f r, by rw [Db.row_of_map hid hjobs, hrow, Option.map_some], fun hjob => ?_, fun hjob hqueued => ?_⟩
  · exact ((hf r).1 ((Db.id_of_row hrow).trans hjob)).2
  · rcases (hf r).2 (by rwa [Db.id_of_row hrow]) with heq | ⟨hrun, -⟩
    · rw [heq, hqueued]
    · rw [hqueued] at hrun
      cases hrun

theorem of_setBack (h : SetBack s t) (h' : Brings P job t u) : Brings P job s u := by
  obtain ⟨f, hjobs, hf⟩ := h
  obtain ⟨g, hjobs', hg⟩ := h'
  refine ⟨g ∘ f, by rw [hjobs', hjobs, List.map_map], fun r => ⟨fun hr => ?_, fun hr => ?_⟩⟩
  · exact (hg (f r)).1 ((hf r).id_eq.trans hr)
  · exact (hf r).trans ((hg (f r)).2 (by rwa [(hf r).id_eq]))

theorem of_db (h : Brings P job s t) (hdb : u.db = t.db) : Brings P job s u := by
  obtain ⟨f, hjobs, hf⟩ := h
  exact ⟨f, by rw [hdb, hjobs], hf⟩

private theorem of_writes (h : Writes P job s t) : Brings P job s t := by
  obtain ⟨set, hset, hstatus, hjobs⟩ := h
  refine ⟨fun r => if r.id = job then set r else r, ?_, fun r => ⟨fun hr => ?_, fun hr => .inl (if_neg hr)⟩⟩
  · rw [hjobs, Db.updateRow, Db.update]
    simp only [decide_eq_true_eq]
  · simp only [if_pos hr]
    exact ⟨(hset r).trans hr, hstatus r⟩

end Brings

/-- The jobs that wait or run. -/
def Db.unfinished (db : Db) : Nat := db.jobs.countP fun r => r.status = .queued || r.status = .running

theorem Brings.unfinished_lt {P : JobStatus → Prop} (h : Brings P job s t)
    (hP : ∀ st, P st → st ≠ .queued ∧ st ≠ .running) (hrow : s.db.row job = some r)
    (hqueued : r.status = .queued) : t.db.unfinished < s.db.unfinished := by
  obtain ⟨f, hjobs, hf⟩ := h
  have hle (r : JobRow) : ((f r).status = .queued || (f r).status = .running) = true →
      (r.status = .queued || r.status = .running) = true := by
    by_cases hr : r.id = job
    · obtain ⟨hnot, hnot'⟩ := hP _ ((hf r).1 hr).2
      simp [hnot, hnot']
    · rcases (hf r).2 hr with heq | ⟨hrun, -⟩
      · rw [heq]
        exact id
      · simp [hrun]
  rw [Db.unfinished, Db.unfinished, hjobs, List.countP_map]
  obtain ⟨before, after, hsplit⟩ := List.append_of_mem (Db.row_mem hrow)
  obtain ⟨hnot, hnot'⟩ := hP _ ((hf r).1 (Db.id_of_row hrow)).2
  have hbefore := List.countP_mono_left (l := before) fun r _ => hle r
  have hafter := List.countP_mono_left (l := after) fun r _ => hle r
  rw [hsplit, List.countP_append, List.countP_append, List.countP_cons_of_neg (by simp [hnot, hnot']),
    List.countP_cons_of_pos (by simp [hqueued])]
  simp only [Function.comp_def] at hbefore hafter ⊢
  omega

theorem SetBack.unfinished_eq (h : SetBack s t) : t.db.unfinished = s.db.unfinished := by
  obtain ⟨f, hjobs, hf⟩ := h
  rw [Db.unfinished, Db.unfinished, hjobs, List.countP_map]
  refine List.countP_congr fun r _ => ?_
  rcases hf r with heq | ⟨hrun, heq⟩
  · rw [Function.comp, heq]
  · simp [Function.comp, heq, hrun, JobRow.requeued]

namespace State.Cold

variable (cfg can) in
/-- A job whose id is in a list comes into `pending`, and can be claimed. -/
private theorem exists_claimable (cold : s.Cold) (wf : StaffWf s) (hlisted : s.Listed job)
    (hrow : s.db.row job = some r) (hterm : r.status.terminal = false) :
    ∃ t id r', Tends cfg can s t ∧ t.Cold ∧ SetBack s t ∧ Names id job ∧ id ∈ t.redis.pending ∧
      t.db.row job = some r' ∧ r'.status.claimable = true := by
  obtain ⟨id, hnames, hin⟩ := hlisted
  -- Wherever the id is, it can be brought into a processing list, where it is set back.
  obtain ⟨u, w, hrun, hcold, hback, hlisted⟩ : ∃ u w, Tends cfg can s u ∧ u.Cold ∧ SetBack s u ∧
      (w, id) ∈ u.redis.processing := by
    rcases hin with hin | ⟨w, hin⟩
    · obtain ⟨u, hrun, hcold, hback, hlisted⟩ := cold.exists_listed cfg can hin
      exact ⟨u, _, hrun, hcold, hback, hlisted⟩
    · exact ⟨s, w, .refl, cold, .refl, hin⟩
  obtain ⟨r', hrow', hterm'⟩ := hback.row hrow
  obtain ⟨v, hrun', hcold', hback', hpending, r'', hrow'', hclaim⟩ :=
    hcold.exists_relisted cfg can ((wf.of_run hrun).listed _ hlisted) hlisted hnames hrow'
      (hterm'.trans hterm)
  exact ⟨v, id, r'', hrun.trans hrun', hcold', hback.trans hback', hnames, hpending, hrow'', hclaim⟩

variable (cfg) in
/-- A job whose id is in a list and whose handler can return succeeds after restarts. -/
theorem exists_succeeds (cold : s.Cold) (wf : StaffWf s) (hreturns : can job .returned) (hlisted : s.Listed job)
    (hrow : s.db.row job = some r) (hterm : r.status.terminal = false) :
    ∃ t, Tends cfg can s t ∧ t.Cold ∧ Brings (· = .succeeded) job s t ∧ 0 < t.db.effectsFor job := by
  obtain ⟨u, id, r', hrun, hcold, hback, hnames, hpending, hrow', hclaim⟩ :=
    cold.exists_claimable cfg can wf hlisted hrow hterm
  obtain ⟨v, hselect, hstaffed, hback', hexec, hrow''⟩ :=
    hcold.exists_selected cfg can hpending hnames hrow' hclaim
  obtain ⟨x, hdone, hstaffed', hwrites, heffects⟩ :=
    hstaffed.exists_returned cfg hreturns hexec hnames.2 hrow'' hclaim
  obtain ⟨t, hkill, hcold', hdb, -⟩ := hstaffed'.exists_killed cfg can
  have hbrings := Brings.of_setBack (hback.trans hback') (.of_writes hwrites)
  exact ⟨t, ((hrun.trans hselect).trans hdone).trans hkill, hcold', hbrings.of_db hdb, by rwa [hdb]⟩

variable (cfg) in
/-- A job whose id is in a list and whose handler can throw fails after restarts: it will be retried, or it
is dead. -/
theorem exists_fails (cold : s.Cold) (wf : StaffWf s) (hthrows : can job (.threw message random))
    (hlisted : s.Listed job)
    (hrow : s.db.row job = some r) (hterm : r.status.terminal = false) :
    ∃ t, Tends cfg can s t ∧ t.Cold ∧ Brings (fun st => st = .retrying ∨ st = .dead) job s t := by
  obtain ⟨u, id, r', hrun, hcold, hback, hnames, hpending, hrow', hclaim⟩ :=
    cold.exists_claimable cfg can wf hlisted hrow hterm
  obtain ⟨v, hselect, hstaffed, hback', hexec, hrow''⟩ :=
    hcold.exists_selected cfg can hpending hnames hrow' hclaim
  obtain ⟨x, hthrown, hstaffed', hwrites⟩ :=
    hstaffed.exists_thrown cfg hthrows hexec hnames.2 hrow'' hclaim
  obtain ⟨t, hkill, hcold', hdb, -⟩ := hstaffed'.exists_killed cfg can
  have hbrings := Brings.of_setBack (hback.trans hback') (.of_writes hwrites)
  exact ⟨t, ((hrun.trans hselect).trans hthrown).trans hkill, hcold', hbrings.of_db hdb⟩

end State.Cold

end QueueFlow
