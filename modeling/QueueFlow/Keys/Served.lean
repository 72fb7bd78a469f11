-- SUMMARY: The commands that the steps of the system send to Redis, and their service by a store that knows only keys and values.
import QueueFlow.Lib.Keyspace
import QueueFlow.Shared.Keys
import QueueFlow.Worker.Moves
import QueueFlow.Scheduler.Moves
import QueueFlow.Api.Moves
import QueueFlow.Script

/-!
# Served by keys

The system has its own words for what Redis holds. A Redis server has one table from keys to values, and says
WRONGTYPE to a command on a value of another type. Here every step of the system is written as the command it
sends, under the keys of `shared/keys.ts`, with the reply that the step goes by. Such a server follows the
system through every run: its replies are the ones that the system has, and it holds what the system has, and
nothing else.
-/

namespace QueueFlow

open Keyspace Transition

/-- What Redis holds, slot by slot. -/
def Redis.slots (r : Redis) : Store Slot Text
  | .pending => (Keyspace.Value.list r.pending).kept
  | .delayed => (Keyspace.Value.zset r.delayed).kept
  | .processing w => (Keyspace.Value.list (r.lrange w)).kept
  | .alive w => if w ∈ r.alive then some .string else none

/-! ## The commands -/

/-- The reply to `EXISTS` and to `ZREM`. -/
def yes (b : Bool) : Keyspace.Reply Text := .int (if b then 1 else 0)

/-- The reply that is an element, or nil. -/
def popped (x : Option Text) : Keyspace.Reply Text := x.elim .nil .bulk

def worksAsks (e : Exec) : Ask Slot Text :=
  match e.pc with
  | .discard | .release => some (.on (.processing e.worker) (.rem .left e.id), none)
  | .zadd h runAt => some (.on .delayed (.zadd runAt (uuidOut h.job)), none)
  | _ => none

def startAsks (s : State) (w : WorkerId) : Ask Slot Text :=
  match s.procs w with
  | .starting .checkAlive _ => some (.on (.alive w) .exists, some (yes (w ∈ s.redis.alive)))
  | .starting .readList _ => some (.on (.processing w) .range, some (.bulks (s.redis.lrange w)))
  | .starting .moveAll _ =>
      some (.move (.processing w) .pending .right, some (popped ((s.redis.lmove w).map (·.1))))
  | .starting .firstBeat _ => some (.on (.alive w) .set, none)
  | _ => none

/-- A `SCAN` comes to a key, which is there or not. -/
def scanAsks (s : State) (pick : Pick) : Ask Slot Text :=
  match pick with
  | .visit w => some (.on (.processing w) .exists, some (yes (s.redis.lrange w ≠ [])))
  | _ => none

def schedAsks (s : State) (σ : Sched) (pick : Pick) : Ask Slot Text :=
  match σ with
  | .idle =>
      match pick with
      | .next => some (.on .delayed (.zrangebyscore s.dateNow BATCH),
          some (.bulks (s.redis.zrangebyscore s.dateNow BATCH)))
      | _ => none
  | .promoting (id :: _) => some (.on .delayed (.zrem id), some (yes (s.redis.isDelayed id)))
  | .promotePush id _ => some (.on .pending (.push .left id), none)
  | .reapScan _ _ => scanAsks s pick
  | .reapCheck (key :: _) =>
      if key = [] then none else some (.on (.alive key) .exists, some (yes (key ∈ s.redis.alive)))
  | .reapPeek key _ =>
      some (.on (.processing key) .last, some (popped (KeyedList.last? s.redis.processing key)))
  | .reapDrop key id _ => some (.on (.processing key) (.rem .right id), none)
  | .reapMove key _ _ => some (.move (.processing key) .pending .right, none)
  | .sweepPending _ => some (.on .pending .range, some (.bulks s.redis.pending))
  | .sweepScan _ _ _ _ => scanAsks s pick
  | .sweepRead _ _ (key :: _) => some (.on (.processing key) .range, some (.bulks (s.redis.lrange key)))
  | .sweepPush (job :: _) held =>
      if uuidOut job ∈ held then none else some (.on .pending (.push .right (uuidOut job)), none)
  | _ => none

/-- The command of a step, and the reply if the step depends on it. -/
def asks (s : State) : Act → Ask Slot Text
  | .api (.push _ id) _ => some (.on .pending (.push .left id), none)
  | .recoverOwn w _ => startAsks s w
  | .beat w => some (.on (.alive w) .set, none)
  | .expire w => some (.on (.alive w) .del, some (yes true))
  | .take w => some (.move .pending (.processing w) .left, some (popped s.redis.pending.getLast?))
  | .exec e _ => worksAsks e
  | .execFail e took _ _ => if took then worksAsks e else none
  | .sched σ pick => schedAsks s σ pick
  | _ => none

/-! ## What the commands do to the slots -/

variable {cfg : Config} {s s' t : State} {a : Act} {r r' : Redis} {w : WorkerId} {id : Text}

namespace Redis

theorem slots_lpush : (r.lpush id).slots =
    Function.update r.slots .pending (Keyspace.Value.list (id :: r.pending)).kept := by
  funext i
  cases i <;> rfl

theorem slots_rpush :
    (r.rpush id).slots = Function.update r.slots .pending (Keyspace.Value.list (r.pending ++ [id])).kept := by
  funext i
  cases i <;> rfl

theorem slots_zadd {score : Nat} : (r.zadd score id).slots = Function.update r.slots .delayed
    (Keyspace.Value.zset ((r.delayed.filter fun m => m.1 ≠ id).orderedInsert zle (id, score))).kept := by
  funext i
  cases i <;> rfl

theorem slots_zrem : (r.zrem id).slots =
    Function.update r.slots .delayed (Keyspace.Value.zset (r.delayed.filter fun m => m.1 ≠ id)).kept := by
  funext i
  cases i <;> rfl

theorem slots_beat : (r.beat w).slots = Function.update r.slots (.alive w) (some .string) := by
  funext i
  cases i with
  | pending | delayed | processing => rfl
  | alive w' =>
      by_cases hw : w' = w
      · simp [slots, beat, hw]
      · simp [slots, beat, hw]

theorem slots_expire : (r.expire w).slots = Function.update r.slots (.alive w) none := by
  funext i
  cases i with
  | pending | delayed | processing => rfl
  | alive w' =>
      by_cases hw : w' = w
      · simp [slots, expire, hw]
      · simp [slots, expire, hw]

/-- A change to the processing list of one worker. -/
private theorem slots_processing {processing : List (WorkerId × Text)} {l : List Text}
    (hget : KeyedList.get processing w = l)
    (hother : ∀ w', w' ≠ w → KeyedList.get processing w' = r.lrange w') :
    ({ r with processing := processing } : Redis).slots =
      Function.update r.slots (.processing w) (Keyspace.Value.list l).kept := by
  funext i
  cases i with
  | pending | delayed | alive => rfl
  | processing w' =>
      by_cases hw : w' = w
      · rw [hw, Function.update_self, ← hget]
        rfl
      · rw [Function.update_of_ne (by simpa using hw), slots, slots, ← hother w' hw]
        rfl

theorem slots_lrem : (r.lrem w id).slots =
    Function.update r.slots (.processing w) (Keyspace.Value.list (Side.left.erase id (r.lrange w))).kept :=
  slots_processing KeyedList.get_removeLeft_self fun _ => KeyedList.get_removeLeft_ne

theorem slots_lremTail : (r.lremTail w id).slots =
    Function.update r.slots (.processing w) (Keyspace.Value.list (Side.right.erase id (r.lrange w))).kept :=
  slots_processing KeyedList.get_removeRight_self fun _ => KeyedList.get_removeRight_ne

/-! ## Each command is served -/

/-- A command on one slot, of which the reply is of no interest. -/
private theorem serve_on {i : Slot} {op : Op Text} {v : Option (Keyspace.Value Text)}
    (hok : (op.run zle (r.slots i)).1 ≠ .wrongtype) (hv : (op.run zle (r.slots i)).2 = v) :
    serve zle (some (.on i op, none)) r.slots = some (Function.update r.slots i v) := by
  rw [← hv]
  exact if_pos ⟨hok, by rintro _ ⟨⟩⟩

/-- A command on one slot, of which the reply is known. -/
private theorem serve_reply {i : Slot} {op : Op Text} {reply : Keyspace.Reply Text} {v : Option (Keyspace.Value Text)}
    (hok : reply ≠ .wrongtype) (hrun : op.run zle (r.slots i) = (reply, v)) :
    serve zle (some (.on i op, some reply)) r.slots = some (Function.update r.slots i v) := by
  simp only [serve, exec, hrun]
  exact if_pos ⟨hok, by rintro _ ⟨⟩; rfl⟩

/-- A command that reads a slot. -/
private theorem serve_read {i : Slot} {op : Op Text} {reply : Keyspace.Reply Text} (hok : reply ≠ .wrongtype)
    (hrun : op.run zle (r.slots i) = (reply, r.slots i)) :
    serve zle (some (.on i op, some reply)) r.slots = some r.slots := by
  rw [serve_reply hok hrun, Function.update_eq_self]

theorem serve_lpush : serve zle (some (.on .pending (.push .left id), none)) r.slots = some (r.lpush id).slots := by
  rw [slots_lpush]
  refine serve_on ?_ ?_ <;> simp [Op.run, slots, Side.push]

theorem serve_rpush : serve zle (some (.on .pending (.push .right id), none)) r.slots = some (r.rpush id).slots := by
  rw [slots_rpush]
  refine serve_on ?_ ?_ <;> simp [Op.run, slots, Side.push]

theorem serve_lrem :
    serve zle (some (.on (.processing w) (.rem .left id), none)) r.slots = some (r.lrem w id).slots := by
  rw [slots_lrem]
  refine serve_on ?_ ?_ <;> simp [Op.run, slots]

theorem serve_lremTail :
    serve zle (some (.on (.processing w) (.rem .right id), none)) r.slots = some (r.lremTail w id).slots := by
  rw [slots_lremTail]
  refine serve_on ?_ ?_ <;> simp [Op.run, slots]

theorem serve_zadd {score : Nat} :
    serve zle (some (.on .delayed (.zadd score id), none)) r.slots = some (r.zadd score id).slots := by
  rw [slots_zadd]
  refine serve_on ?_ ?_ <;> simp [Op.run, slots]

theorem serve_zrem : serve zle (some (.on .delayed (.zrem id), some (yes (r.isDelayed id)))) r.slots =
    some (r.zrem id).slots := by
  rw [slots_zrem]
  refine serve_reply (by rintro ⟨⟩) ?_
  simp only [Op.run, slots, Keyspace.Value.zset?_kept]
  rfl

theorem serve_beat : serve zle (some (.on (.alive w) .set, none)) r.slots = some (r.beat w).slots := by
  rw [slots_beat]
  exact serve_on (by rintro ⟨⟩) rfl

theorem serve_expire (hw : w ∈ r.alive) :
    serve zle (some (.on (.alive w) .del, some (yes true))) r.slots = some (r.expire w).slots := by
  rw [slots_expire]
  exact serve_reply (by rintro ⟨⟩) (by simp [Op.run, slots, yes, hw])

theorem serve_exists_alive :
    serve zle (some (.on (.alive w) .exists, some (yes (w ∈ r.alive)))) r.slots = some r.slots := by
  refine serve_read (by rintro ⟨⟩) ?_
  by_cases hw : w ∈ r.alive <;> simp [Op.run, slots, yes, hw]

theorem serve_exists_processing :
    serve zle (some (.on (.processing w) .exists, some (yes (r.lrange w ≠ [])))) r.slots = some r.slots :=
  serve_read (by rintro ⟨⟩) (by simp [Op.run, slots, yes, Option.isSome_iff_ne_none])

theorem serve_range_pending :
    serve zle (some (.on .pending .range, some (.bulks r.pending))) r.slots = some r.slots :=
  serve_read (by rintro ⟨⟩) (by simp [Op.run, slots])

theorem serve_range_processing :
    serve zle (some (.on (.processing w) .range, some (.bulks (r.lrange w)))) r.slots = some r.slots :=
  serve_read (by rintro ⟨⟩) (by simp [Op.run, slots])

theorem serve_last : serve zle
    (some (.on (.processing w) .last, some (popped (KeyedList.last? r.processing w)))) r.slots = some r.slots :=
  serve_read (by cases KeyedList.last? r.processing w <;> rintro ⟨⟩)
    (by simp [Op.run, slots, popped, KeyedList.last?, lrange])

theorem serve_zrangebyscore {max count : Nat} : serve zle
    (some (.on .delayed (.zrangebyscore max count), some (.bulks (r.zrangebyscore max count)))) r.slots =
      some r.slots :=
  serve_read (by rintro ⟨⟩) (by simp [Op.run, slots, zrangebyscore])

/-- `LMOVE processing:<w> pending RIGHT RIGHT` on a list that is not empty. -/
theorem exec_lmove (hlast : KeyedList.last? r.processing w = some id) :
    exec zle r.slots (.move (.processing w) .pending .right) = (.bulk id, Redis.slots
      { r with pending := r.pending ++ [id], processing := KeyedList.removeRight r.processing w id }) := by
  have hget : KeyedList.get (KeyedList.removeRight r.processing w id) w = (r.lrange w).dropLast := by
    rw [lrange, KeyedList.get_removeRight_last hlast, List.dropLast_concat]
  have htaken := slots_processing (r := r) hget fun _ => KeyedList.get_removeRight_ne
  have hpushed : (Redis.rpush { r with processing := KeyedList.removeRight r.processing w id } id).slots = _ :=
    slots_rpush
  rw [htaken] at hpushed
  have hlast' : (r.lrange w).getLast? = some id := hlast
  have hsrc : Keyspace.Value.list? (r.slots (.processing w)) = some (r.lrange w) := Keyspace.Value.list?_kept _
  have hdst (v : Option (Keyspace.Value Text)) :
      Keyspace.Value.list? (Function.update r.slots (.processing w) v .pending) = some r.pending := by
    rw [Function.update_of_ne (by rintro ⟨⟩)]
    exact Keyspace.Value.list?_kept _
  simp only [exec, hsrc, hlast', hdst]
  exact congrArg (Prod.mk _) hpushed.symm

theorem exec_lmove_nil (hlast : KeyedList.last? r.processing w = none) :
    exec zle r.slots (.move (.processing w) .pending .right) = (.nil, r.slots) := by
  have hlast' : (r.lrange w).getLast? = none := hlast
  simp only [exec, slots, Keyspace.Value.list?_kept, hlast']

theorem exec_blmove {rest : List Text} (hpending : r.pending = rest ++ [id]) :
    exec zle r.slots (.move .pending (.processing w) .left) = (.bulk id, Redis.slots
      { r with pending := rest, processing := KeyedList.pushLeft r.processing w id }) := by
  have htaken : ({ r with pending := rest } : Redis).slots =
      Function.update r.slots .pending (Keyspace.Value.list rest).kept := by
    funext i
    cases i <;> rfl
  have hpushed := slots_processing (r := { r with pending := rest }) (KeyedList.get_pushLeft_self (a := id))
    fun w' (hw : w' ≠ w) => KeyedList.get_pushLeft_ne hw
  rw [htaken] at hpushed
  have hsrc : Keyspace.Value.list? (r.slots .pending) = some (rest ++ [id]) := by
    rw [← hpending]
    exact Keyspace.Value.list?_kept _
  have hdst (v : Option (Keyspace.Value Text)) :
      Keyspace.Value.list? (Function.update r.slots .pending v (.processing w)) = some (r.lrange w) := by
    rw [Function.update_of_ne (by rintro ⟨⟩)]
    exact Keyspace.Value.list?_kept _
  simp only [exec, hsrc, List.getLast?_concat, List.dropLast_concat, hdst]
  exact congrArg (Prod.mk _) hpushed.symm

theorem serve_lmove (hlast : KeyedList.last? r.processing w = some id) {expected : Option (Keyspace.Reply Text)}
    (hexpected : ∀ reply ∈ expected, reply = .bulk id) :
    serve zle (some (.move (.processing w) .pending .right, expected)) r.slots = some (Redis.slots
      { r with pending := r.pending ++ [id], processing := KeyedList.removeRight r.processing w id }) := by
  simp only [serve, exec_lmove hlast]
  exact if_pos ⟨by rintro ⟨⟩, hexpected⟩

theorem serve_lmove_nil (hlast : KeyedList.last? r.processing w = none) {expected : Option (Keyspace.Reply Text)}
    (hexpected : ∀ reply ∈ expected, reply = .nil) :
    serve zle (some (.move (.processing w) .pending .right, expected)) r.slots = some r.slots := by
  simp only [serve, exec_lmove_nil hlast]
  exact if_pos ⟨by rintro ⟨⟩, hexpected⟩

end Redis

/-! ## Each step is served -/

open Redis

private theorem serve_none {redis : Redis} (h : redis = s.redis) :
    serve zle (none : Ask Slot Text) s.redis.slots = some redis.slots := by
  rw [h]
  rfl

private theorem serve_scan {pick : Pick} : serve zle (scanAsks s pick) s.redis.slots = some s.redis.slots := by
  cases pick with
  | next | recover => rfl
  | visit w => exact serve_exists_processing

private theorem zrem_of_not (h : ¬ r.isDelayed id = true) : r.zrem id = r := by
  have hall : ∀ m ∈ r.delayed, decide (m.1 ≠ id) = true := fun m hm =>
    decide_eq_true fun heq => h (List.any_eq_true.mpr ⟨m, hm, decide_eq_true heq⟩)
  rw [zrem, List.filter_eq_self.mpr hall]

variable {σ : Sched} {pick : Pick}

theorem serve_promoteDue (h : promoteDue s σ = some t) :
    serve zle (schedAsks s σ pick) s.redis.slots = some t.redis.slots := by
  unfold promoteDue at h
  split at h
  case h_1 =>
    cases h
    rfl
  case h_2 id due =>
    have hserve : serve zle (schedAsks s (.promoting (id :: due)) pick) s.redis.slots =
      some (s.redis.zrem id).slots := serve_zrem
    split at h
    · cases h
      exact hserve
    · rename_i hnot
      cases h
      rw [hserve, zrem_of_not hnot]
      rfl
  case h_3 id due =>
    refine serve_none ?_
    split at h
    · cases h
      rfl
    · split at h <;> cases h
      rfl
  case h_4 =>
    cases h
    exact serve_lpush
  case h_5 => cases h

theorem serve_reapDead (h : reapDead s σ pick = some t) :
    serve zle (schedAsks s σ pick) s.redis.slots = some t.redis.slots := by
  unfold reapDead at h
  split at h
  case h_1 todo found =>
    have hredis : t.redis = s.redis := by
      split at h
      · obtain ⟨-, -, rfl⟩ := Option.map_eq_some_iff.mp h
        rfl
      · obtain ⟨-, h⟩ := Option.ite_none_right_eq_some.mp h
        cases h
        rfl
    rw [hredis]
    exact serve_scan
  case h_2 =>
    cases h
    rfl
  case h_3 key keys =>
    by_cases hkey : key = []
    · rw [if_pos (.inl hkey)] at h
      cases h
      simp only [schedAsks, if_pos hkey]
      rfl
    · simp only [schedAsks, if_neg hkey]
      split at h <;> cases h <;> exact serve_exists_alive
  case h_4 key keys =>
    have hredis : t.redis = s.redis := by
      split at h
      · cases h
        rfl
      · split at h <;> cases h <;> rfl
    rw [hredis]
    exact serve_last
  case h_5 =>
    refine serve_none ?_
    split at h <;> cases h <;> rfl
  case h_6 =>
    cases h
    exact serve_lremTail
  case h_7 | h_8 =>
    refine serve_none ?_
    split at h
    · cases h
      rfl
    · split at h <;> cases h
      rfl
  case h_9 key id keys =>
    cases hlast : KeyedList.last? s.redis.processing key with
    | none =>
        simp only [lmove, hlast, Option.map_none] at h
        cases h
        exact serve_lmove_nil hlast (by rintro _ ⟨⟩)
    | some last =>
        simp only [lmove, hlast, Option.map_some] at h
        cases h
        exact serve_lmove hlast (by rintro _ ⟨⟩)
  case h_10 => cases h

theorem serve_sweepOrphans (h : sweepOrphans cfg s σ pick = some t) :
    serve zle (schedAsks s σ pick) s.redis.slots = some t.redis.slots := by
  unfold sweepOrphans at h
  split at h
  case h_1 =>
    refine serve_none ?_
    split at h <;> cases h <;> rfl
  case h_2 =>
    cases h
    exact serve_range_pending
  case h_3 =>
    have hredis : t.redis = s.redis := by
      split at h
      · obtain ⟨-, -, rfl⟩ := Option.map_eq_some_iff.mp h
        rfl
      · obtain ⟨-, h⟩ := Option.ite_none_right_eq_some.mp h
        cases h
        rfl
    rw [hredis]
    exact serve_scan
  case h_4 =>
    cases h
    rfl
  case h_5 =>
    cases h
    exact serve_range_processing
  case h_6 =>
    cases h
    rfl
  case h_7 job candidates held =>
    by_cases hheld : uuidOut job ∈ held
    · rw [if_pos hheld] at h
      cases h
      simp only [schedAsks, if_pos hheld]
      rfl
    · rw [if_neg hheld] at h
      cases h
      simp only [schedAsks, if_neg hheld]
      exact serve_rpush
  case h_8 => cases h

theorem serve_schedule (h : schedule cfg s σ pick = some t) :
    serve zle (schedAsks s σ pick) s.redis.slots = some t.redis.slots := by
  unfold schedule at h
  split at h
  case h_1 =>
    cases pick with
    | next =>
        cases h
        exact serve_zrangebyscore
    | recover =>
        cases h
        rfl
    | visit => cases h
  all_goals first
    | exact serve_promoteDue h
    | exact serve_reapDead h
    | exact serve_sweepOrphans h

private theorem worksAsks_finished {e : Exec} (hpc : e.pc.phase = .finished) :
    worksAsks e = some (.on (.processing e.worker) (.rem .left e.id), none) := by
  unfold worksAsks
  generalize e.pc = pc at hpc ⊢
  cases pc <;> first | rfl | cases hpc

private theorem worksAsks_taken {e : Exec} (hpc : e.pc.phase = .taken) : worksAsks e = none := by
  unfold worksAsks
  generalize e.pc = pc at hpc ⊢
  cases pc <;> first | rfl | cases hpc

private theorem worksAsks_owning {e : Exec} {hold : Holding} (hpc : e.pc.phase = .owning hold) :
    worksAsks e = none := by
  unfold worksAsks
  generalize e.pc = pc at hpc ⊢
  cases pc <;> first | rfl | cases hpc

theorem serve_processOne {e : Exec} {o : Outcome} (h : processOne cfg s e o = some t) :
    serve zle (worksAsks e) s.redis.slots = some t.redis.slots := by
  cases processOne_cases h with
  | letGo hpc =>
      rw [worksAsks_finished hpc]
      exact serve_lrem
  | zadded hold runAt hpc =>
      simp only [worksAsks, hpc]
      exact serve_zadd
  | rejected hpc | found _ _ hpc | missing _ hpc | notClaimable _ _ hpc | claimed _ _ _ hpc =>
      rw [worksAsks_taken (by rw [hpc]; rfl)]
      rfl
  | work _ _ hpc | fenced _ hpc =>
      rw [worksAsks_owning hpc]
      rfl
  | lock hold _ _ hpc | unowned hold _ hpc | insert hold _ hpc | settled hold _ hpc | buried hold _ _ hpc
  | parked hold _ _ _ hpc =>
      rw [worksAsks_owning (show e.pc.phase = .owning hold by rw [hpc]; rfl)]
      rfl

theorem serve_fails {e : Exec} {took : Bool} {message : Text} {random : Random}
    (h : fails cfg s e took message random = some t) :
    serve zle (if took then worksAsks e else none) s.redis.slots = some t.redis.slots := by
  have hquiet (hnone : worksAsks e = none) : t.redis = s.redis := by
    cases fails_cases h with
    | released _ hpc =>
        rw [worksAsks_finished (by rw [hpc]; rfl)] at hnone
        cases hnone
    | zadded hold runAt hpc =>
        simp only [worksAsks, hpc] at hnone
        cases hnone
    | lost | claimed | caught | settled | buried | parked => rfl
  cases hpc : e.pc with
  | discard =>
      simp only [fails, hpc] at h
      cases h
  | zadd hold runAt =>
      simp only [fails, hpc] at h
      simp only [worksAsks, hpc]
      cases took with
      | false =>
          cases h
          rfl
      | true =>
          cases h
          exact serve_zadd
  | release =>
      simp only [fails, hpc] at h
      simp only [worksAsks, hpc]
      cases took with
      | false =>
          cases h
          rfl
      | true =>
          cases h
          exact serve_lrem
  | _ =>
      have hnone : worksAsks e = none := by simp only [worksAsks, hpc]
      rw [hquiet hnone, hnone, ite_self]
      rfl

theorem serve_recoverOwn {deadline : Bool} (h : recoverOwnProcessing s w deadline = some t) :
    serve zle (startAsks s w) s.redis.slots = some t.redis.slots := by
  unfold recoverOwnProcessing at h
  unfold startAsks
  split at h
  case h_1 c hp =>
    rw [hp]
    have hredis : t.redis = s.redis := by
      split at h
      · split at h <;> cases h <;> rfl
      · cases h
        rfl
    rw [hredis]
    exact serve_exists_alive
  case h_2 c hp =>
    rw [hp]
    split at h <;> cases h <;> exact serve_range_processing
  case h_3 stranded c hp =>
    rw [hp]
    split at h <;> cases h
    rfl
  case h_4 c hp =>
    rw [hp]
    cases hlast : KeyedList.last? s.redis.processing w with
    | none =>
        simp only [lmove, hlast, Option.map_none] at h
        cases h
        exact serve_lmove_nil hlast (by simp [lmove, hlast, popped])
    | some last =>
        simp only [lmove, hlast, Option.map_some] at h
        cases h
        exact serve_lmove hlast (by simp [lmove, hlast, popped])
  case h_5 c hp =>
    rw [hp]
    cases h
    exact serve_beat
  case h_6 => cases h

theorem serve_handle {a : Api} {generated : Uuid} (h : handle s a generated = some t) :
    serve zle (asks s (.api a generated)) s.redis.slots = some t.redis.slots := by
  cases a with
  | push req id =>
      cases h
      exact serve_lpush
  | insert | lookup | replay | refuse =>
      refine serve_none ?_
      cases handle_cases h with
      | turned | answered | inserted | replayed => rfl
      | pushed _ _ hpc => cases hpc

theorem serve_take (h : take s w = some t) : serve zle (asks s (.take w)) s.redis.slots = some t.redis.slots := by
  obtain ⟨c, rest, id, -, hpending, rfl⟩ := take_cases h
  simp only [serve, asks, exec_blmove hpending]
  refine if_pos ⟨by rintro ⟨⟩, ?_⟩
  simp [popped, hpending]

/-- What a step asks of Redis is served as the step has it. -/
theorem serve_step (h : step cfg s a = some t) : serve zle (asks s a) s.redis.slots = some t.redis.slots := by
  cases a with
  | tick | request | startSched =>
      cases h
      rfl
  | api a generated => exact serve_handle (Option.ite_none_right_eq_some.mp h).2
  | apiCrash | schedKill =>
      obtain ⟨-, h⟩ := Option.ite_none_right_eq_some.mp h
      cases h
      rfl
  | spawn =>
      obtain ⟨-, -, rfl⟩ := spawn_cases h
      rfl
  | recoverOwn w deadline => exact serve_recoverOwn h
  | beat w =>
      obtain ⟨-, rfl⟩ := beat_cases h
      exact serve_beat
  | expire w =>
      obtain ⟨hw, h⟩ := Option.ite_none_right_eq_some.mp h
      cases h
      exact serve_expire hw
  | take w => exact serve_take h
  | exec e o => exact serve_processOne (Option.ite_none_right_eq_some.mp h).2
  | execFail e took message random => exact serve_fails (Option.ite_none_right_eq_some.mp h).2
  | kill =>
      cases kill_cases h
      rfl
  | sched σ pick => exact serve_schedule (Option.ite_none_right_eq_some.mp h).2
  | schedFail =>
      obtain ⟨-, h⟩ := Option.ite_none_right_eq_some.mp h
      obtain ⟨-, h⟩ := Option.ite_none_right_eq_some.mp h
      cases h
      rfl

/-! ## Every run is served -/

/-- The server beside the system: it carries out the command of every step, under the keys. It stops for good
at a command that it cannot carry out, or whose reply is not the one that the step goes by. -/
def Server.note (s : State) (a : Act) (_ : State) (st : Option (Store Text Text)) : Option (Store Text Text) :=
  st.bind (serve zle ((asks s a).rename Slot.key))

theorem renders_of_run {ok : State → Act → Prop} {st : Option (Store Text Text)}
    (hrun : Observed (step cfg) ok Server.note .init (some .empty) s st) :
    ∃ k, st = some k ∧ Renders Slot.key s.redis.slots k := by
  refine hrun.invariant (P := fun s st => ∃ k, st = some k ∧ Renders Slot.key s.redis.slots k) ⟨_, rfl, ?_⟩ ?_
  · have hempty : State.init.redis.slots = Store.empty := by
      funext i
      cases i <;> rfl
    rw [hempty]
    exact .empty
  · rintro u _ a v ⟨k, rfl, hk⟩ - h
    obtain ⟨k', hserve, hk'⟩ := hk.serve Slot.key_injective (serve_step h)
    exact ⟨k', hserve, hk'⟩

/-- A server that knows keys and values only follows the system through every run, and it holds at each key
what the system has there, and nothing under any other key. -/
theorem run_served {ok : State → Act → Prop} {st : Option (Store Text Text)}
    (hrun : Observed (step cfg) ok Server.note .init (some .empty) s st) :
    ∃ k, st = some k ∧ k KEYS.pending = (Keyspace.Value.list s.redis.pending).kept ∧
      k KEYS.delayed = (Keyspace.Value.zset s.redis.delayed).kept ∧
        (∀ w, k (KEYS.processing w) = (Keyspace.Value.list (s.redis.lrange w)).kept) ∧
          (∀ w, k (KEYS.alive w) = if w ∈ s.redis.alive then some .string else none) ∧
            ∀ key, k key ≠ none → ∃ slot : Slot, slot.key = key := by
  obtain ⟨k, hst, hk⟩ := renders_of_run hrun
  exact ⟨k, hst, hk.slot .pending, hk.slot .delayed, fun w => hk.slot (.processing w),
    fun w => hk.slot (.alive w), hk.only⟩

/-- A worker that holds one job, while another waits and a third is delayed. -/
theorem run_served_busy : ∃ s st,
    Observed (step Script.defaults) always Server.note .init (some Store.empty) s st ∧
      ∃ k, st = some k ∧ k "queueflow:pending".toList = some (.list [uuidOut (Script.job 3)]) ∧
        k "queueflow:processing:a".toList = some (.list [uuidOut (Script.job 2)]) ∧
          k "worker:a:alive".toList = some .string := by
  have hplay : ∃ s, Run (step Script.defaults) (fun _ _ => True) .init s ∧
      s.redis.pending = [uuidOut (Script.job 3)] ∧ s.redis.lrange ['a'] = [uuidOut (Script.job 2)] ∧
        ['a'] ∈ s.redis.alive :=
    exists_run_of_play (Script.start ['a'] ++ Script.submit (Script.job 1) ++ Script.throws ['a'] 3 ++
      Script.submit (Script.job 2) ++ Script.takes ['a'] 1 ++ Script.submit (Script.job 3)) (by decide +kernel)
  obtain ⟨s, hrun, hpending, hlist, halive⟩ := hplay
  obtain ⟨st, hst⟩ := Run.observed hrun Server.note (some Store.empty)
  obtain ⟨k, hk, hp, -, hl, ha, -⟩ := run_served hst
  rw [hpending] at hp
  have hl := hl ['a']
  rw [hlist] at hl
  have ha := ha ['a']
  rw [if_pos halive] at ha
  exact ⟨s, st, hst, k, hk, hp, hl, ha⟩

/-! ## What a scan finds -/

/-- The keys that exist. -/
def Redis.keys (r : Redis) : List Text :=
  (if r.pending = [] then [] else [KEYS.pending]) ++ ((if r.delayed = [] then [] else [KEYS.delayed]) ++
    ((KeyedList.keys r.processing).map KEYS.processing ++ r.alive.map KEYS.alive))

variable {k : Store Text Text} {key : Text}

theorem mem_keys : key ∈ r.keys ↔ ∃ i : Slot, i.key = key ∧ r.slots i ≠ none := by
  simp only [Redis.keys, List.mem_append, List.mem_map, KeyedList.mem_keys]
  constructor
  · rintro (h | h | ⟨w, hw, rfl⟩ | ⟨w, hw, rfl⟩)
    · obtain ⟨hne, h⟩ := List.mem_ite_nil_left.mp h
      exact ⟨.pending, (List.mem_singleton.mp h).symm, by simpa [Redis.slots] using hne⟩
    · obtain ⟨hne, h⟩ := List.mem_ite_nil_left.mp h
      exact ⟨.delayed, (List.mem_singleton.mp h).symm, by simpa [Redis.slots] using hne⟩
    · exact ⟨.processing w, rfl, by simpa [Redis.slots, Redis.lrange] using hw⟩
    · exact ⟨.alive w, rfl, by simp [Redis.slots, hw]⟩
  · rintro ⟨i, rfl, hi⟩
    cases i with
    | pending => exact .inl (List.mem_ite_nil_left.mpr ⟨by simpa [Redis.slots] using hi, List.mem_singleton_self _⟩)
    | delayed =>
        exact .inr (.inl (List.mem_ite_nil_left.mpr ⟨by simpa [Redis.slots] using hi, List.mem_singleton_self _⟩))
    | processing w => exact .inr (.inr (.inl ⟨w, by simpa [Redis.slots, Redis.lrange] using hi, rfl⟩))
    | alive w => exact .inr (.inr (.inr ⟨w, by simpa [Redis.slots] using hi, rfl⟩))

private theorem slot_mem_keys {i : Slot} : i.key ∈ r.keys ↔ r.slots i ≠ none := by
  rw [mem_keys]
  constructor
  · rintro ⟨j, hj, h⟩
    rwa [← Slot.key_injective hj]
  · exact fun h => ⟨i, rfl, h⟩

theorem processing_mem_keys : KEYS.processing w ∈ r.keys ↔ r.lrange w ≠ [] := by
  rw [show KEYS.processing w = (Slot.processing w).key from rfl, slot_mem_keys]
  simp [Redis.slots]

theorem alive_mem_keys : KEYS.alive w ∈ r.keys ↔ w ∈ r.alive := by
  rw [show KEYS.alive w = (Slot.alive w).key from rfl, slot_mem_keys]
  simp [Redis.slots]

/-- The keys that exist for the server. -/
theorem present_iff (hk : Renders Slot.key r.slots k) : k key ≠ none ↔ key ∈ r.keys := by
  rw [mem_keys]
  constructor
  · intro h
    obtain ⟨i, rfl⟩ := hk.only key h
    exact ⟨i, rfl, by rwa [← hk.slot]⟩
  · rintro ⟨i, rfl, h⟩
    rwa [hk.slot]

/-- A `SCAN` over the keys of the server with the pattern of the processing lists, and
`workerIdFromProcessingKey` on what it finds, give the workers whose lists hold something; the pattern of the
heartbeats and `workerIdFromAliveKey` give those whose heartbeats are there and whose ids have no line break. -/
theorem scan_finds {ok : State → Act → Prop} {st : Option (Store Text Text)}
    (hrun : Observed (step cfg) ok Server.note .init (some .empty) s st) : ∃ k, st = some k ∧
      (∀ w, (∃ key, k key ≠ none ∧ Glob.test KEYS.processingPattern key = true ∧
        workerIdFromProcessingKey key = some w) ↔ w ∈ s.processingKeys ∧ w ≠ []) ∧
      ∀ w, (∃ key, k key ≠ none ∧ Glob.test KEYS.alivePattern key = true ∧ workerIdFromAliveKey key = some w) ↔
        w ∈ s.redis.alive ∧ w ≠ [] ∧ ∀ c ∈ w, isLineTerminator c = false := by
  obtain ⟨k, hst, hk⟩ := renders_of_run hrun
  refine ⟨k, hst, fun w => ?_, fun w => ?_⟩
  · rw [State.processingKeys, KeyedList.mem_keys]
    constructor
    · rintro ⟨key, hkey, -, hid⟩
      obtain ⟨rfl, hne⟩ := workerIdFromProcessingKey_eq_some.mp hid
      exact ⟨processing_mem_keys.mp ((present_iff hk).mp hkey), hne⟩
    · rintro ⟨hlist, hne⟩
      exact ⟨_, (present_iff hk).mpr (processing_mem_keys.mpr hlist), test_processingPattern.mpr ⟨w, rfl⟩,
        workerIdFromProcessingKey_eq_some.mpr ⟨rfl, hne⟩⟩
  · constructor
    · rintro ⟨key, hkey, -, hid⟩
      obtain ⟨rfl, hdot⟩ := workerIdFromAliveKey_eq_some.mp hid
      exact ⟨alive_mem_keys.mp ((present_iff hk).mp hkey), hdot⟩
    · rintro ⟨halive, hid⟩
      exact ⟨_, (present_iff hk).mpr (alive_mem_keys.mpr halive), test_alivePattern.mpr ⟨w, rfl⟩,
        workerIdFromAliveKey_eq_some.mpr ⟨rfl, hid⟩⟩

/-- Two workers are alive, and the id of one ends with a line break: the scan finds the other. -/
theorem scan_finds_one : ∃ s st,
    Observed (step Script.defaults) always Server.note .init (some Store.empty) s st ∧
      s.redis.alive = [['a', '\n'], ['a']] ∧ ∃ k, st = some k ∧
        ∀ w, (∃ key, k key ≠ none ∧ Glob.test KEYS.alivePattern key = true ∧ workerIdFromAliveKey key = some w) ↔
          w = ['a'] := by
  have hplay : ∃ s, Run (step Script.defaults) (fun _ _ => True) .init s ∧ s.redis.alive = [['a', '\n'], ['a']] :=
    exists_run_of_play (Script.start ['a'] ++ Script.start ['a', '\n']) (by decide +kernel)
  obtain ⟨s, hrun, halive⟩ := hplay
  obtain ⟨st, hst⟩ := Run.observed hrun Server.note (some Store.empty)
  obtain ⟨k, hk, -, hscan⟩ := scan_finds hst
  refine ⟨s, st, hst, halive, k, hk, fun w => ?_⟩
  rw [hscan w, halive]
  constructor
  · rintro ⟨hw, -, hdot⟩
    rcases List.mem_cons.mp hw with rfl | hw
    · exact absurd (hdot '\n' (by decide)) (by decide)
    · exact List.mem_singleton.mp hw
  · rintro rfl
    exact ⟨by decide, by decide, by simp [isLineTerminator]⟩

end QueueFlow
