-- SUMMARY: What one command of a scheduler can do: the inversion lemma for schedule.
import QueueFlow.Scheduler.Main

/-!
# Moves of the scheduler

Commands that read, or that end a loop, are gathered under `quiet`; each command
that writes, and each read of `reapWorker`, has a case of its own.
-/

namespace QueueFlow

/-- The id that `promoteDue` has taken out of the delayed set and not yet pushed. -/
def Sched.hand : Sched → Option Text
  | .promoteUpdate id _ => some id
  | .promotePush id _ => some id
  | _ => none

/-- The lists that a reap pass still has before it. -/
def Sched.keys : Sched → List WorkerId
  | .reapScan todo found => todo ++ found
  | .reapCheck keys => keys
  | .reapPeek key keys => key :: keys
  | .reapSelect key _ keys => key :: keys
  | .reapDrop key _ keys => key :: keys
  | .reapBury key _ keys => key :: keys
  | .reapRequeue key _ keys => key :: keys
  | .reapMove key _ keys => key :: keys
  | _ => []

/-- One command of a scheduler. -/
inductive SchedMove (s : State) (σ : Sched) : State → Prop where
  | quiet (σ' : Sched) (hhand : σ.hand = none) (hhand' : σ'.hand = none)
      (hreap : σ'.reaping = none)
      (hrec : σ'.recovering = true →
        σ.recovering = true ∨ σ = .idle ∧ σ' = .reapScan s.processingKeys [])
      (hkeys : ∀ w ∈ σ'.keys, w ∈ σ.keys ∨ s.redis.lrange w ≠ []) :
      SchedMove s σ (s.setSched σ σ')
  | removed (id : Text) (due : List Text) (hpc : σ = .promoting (id :: due))
      (hdue : s.redis.isDelayed id = true) :
      SchedMove s σ ((s.withRedis (s.redis.zrem id)).setSched σ (.promoteUpdate id due))
  | promoted (id : Text) (due : List Text) (job : Uuid) (hpc : σ = .promoteUpdate id due)
      (hid : uuidIn id = some job) (hfree : s.locked job = false) :
      SchedMove s σ ((s.write job .promoted).setSched σ (.promotePush id due))
  /-- The UPDATE rejects its parameter, and the process exits. -/
  | crashed (id : Text) (due : List Text) (hpc : σ = .promoteUpdate id due)
      (hid : uuidIn id = none) : SchedMove s σ (s.endSched σ)
  | pushed (id : Text) (due : List Text) (hpc : σ = .promotePush id due) :
      SchedMove s σ ((s.withRedis (s.redis.lpush id)).setSched σ (.promoting due))
  | check (key : WorkerId) (keys : List WorkerId) (hpc : σ = .reapCheck (key :: keys))
      (halive : key ∉ s.redis.alive) : SchedMove s σ (s.setSched σ (.reapPeek key keys))
  | peek (key : WorkerId) (id : Text) (keys : List WorkerId) (hpc : σ = .reapPeek key keys)
      (hlast : KeyedList.last? s.redis.processing key = some id) (hid : isUuid id = true) :
      SchedMove s σ (s.setSched σ (.reapSelect key id keys))
  | junk (key : WorkerId) (id : Text) (keys : List WorkerId) (hpc : σ = .reapPeek key keys)
      (hlast : KeyedList.last? s.redis.processing key = some id) (hid : isUuid id = false) :
      SchedMove s σ (s.setSched σ (.reapDrop key id keys))
  | select (key : WorkerId) (id : Text) (keys : List WorkerId) (job : Uuid)
      (hpc : σ = .reapSelect key id keys) (hid : uuidIn id = some job) :
      SchedMove s σ (s.setSched σ (judge key id keys (s.db.row job)))
  | dropped (key : WorkerId) (id : Text) (keys : List WorkerId)
      (hpc : σ = .reapDrop key id keys) :
      SchedMove s σ ((s.withRedis (s.redis.lremTail key id)).setSched σ (.reapPeek key keys))
  | buried (key : WorkerId) (id : Text) (keys : List WorkerId) (job : Uuid)
      (hpc : σ = .reapBury key id keys) (hid : uuidIn id = some job)
      (hfree : s.locked job = false) :
      SchedMove s σ ((s.write job (.buried (stoppedResponding key) s.now)).setSched σ
        (.reapDrop key id keys))
  | requeued (key : WorkerId) (id : Text) (keys : List WorkerId) (job : Uuid)
      (hpc : σ = .reapRequeue key id keys) (hid : uuidIn id = some job)
      (hfree : s.locked job = false) :
      SchedMove s σ ((s.write job .requeued).setSched σ (.reapMove key id keys))
  | moved (key : WorkerId) (id last : Text) (keys : List WorkerId)
      (hpc : σ = .reapMove key id keys)
      (hlast : KeyedList.last? s.redis.processing key = some last) :
      SchedMove s σ ((s.withRedis
        { s.redis with pending := s.redis.pending ++ [last],
                       processing := KeyedList.removeRight s.redis.processing key last }).setSched σ
          (.reapPeek key keys))
  | emptied (key : WorkerId) (id : Text) (keys : List WorkerId)
      (hpc : σ = .reapMove key id keys)
      (hlast : KeyedList.last? s.redis.processing key = none) :
      SchedMove s σ (s.setSched σ (.reapPeek key keys))
  | swept (job : Uuid) (candidates : List Uuid) (held : List Text)
      (hpc : σ = .sweepPush (job :: candidates) held) (hheld : uuidOut job ∉ held) :
      SchedMove s σ ((s.withRedis (s.redis.rpush (uuidOut job))).setSched σ
        (.sweepPush candidates held))

variable {cfg : Config} {s s' : State} {σ : Sched} {pick : Pick}

private theorem scanStep_keys {s : State} {w w' : WorkerId} {todo found t f : List WorkerId}
    (h : scanStep s w todo found = some (t, f)) (hw : w' ∈ t ++ f) :
    w' ∈ todo ++ found ∨ s.redis.lrange w' ≠ [] := by
  unfold scanStep at h
  split at h
  · cases h
    rcases List.mem_append.mp hw with hw | hw
    · exact .inl (List.mem_append_left _ (List.mem_of_mem_erase hw))
    · split at hw
      · exact .inl (List.mem_append_right _ hw)
      · rename_i hne
        rcases List.mem_append.mp hw with hw | hw
        · exact .inl (List.mem_append_right _ hw)
        · rw [List.mem_singleton.mp hw]
          exact .inr hne
  · split at h
    · cases h
    · rename_i hne
      cases h
      rcases List.mem_append.mp hw with hw | hw
      · exact .inl (List.mem_append_left _ hw)
      · rcases List.mem_append.mp hw with hw | hw
        · exact .inl (List.mem_append_right _ hw)
        · rw [List.mem_singleton.mp hw]
          exact .inr hne

theorem promoteDue_cases (h : promoteDue s σ = some s') : SchedMove s σ s' := by
  unfold promoteDue at h
  split at h
  case h_1 => cases h; exact .quiet _ rfl rfl rfl nofun nofun
  case h_2 id due =>
    split at h
    · rename_i hdue
      cases h; exact .removed id due rfl hdue
    · cases h; exact .quiet _ rfl rfl rfl nofun nofun
  case h_3 id due =>
    split at h
    case h_1 hid => cases h; exact .crashed id due rfl hid
    case h_2 job hid =>
      split at h
      · cases h
      · rename_i hfree
        cases h; exact .promoted id due job rfl hid (by simpa using hfree)
  case h_4 id due => cases h; exact .pushed id due rfl
  case h_5 => cases h

theorem reapDead_cases (h : reapDead s σ pick = some s') : SchedMove s σ s' := by
  unfold reapDead at h
  split at h
  case h_1 todo found =>
    split at h
    case h_1 w =>
      obtain ⟨⟨t, f⟩, hscan, rfl⟩ := Option.map_eq_some_iff.mp h
      exact .quiet _ rfl rfl rfl (fun _ => .inl rfl) fun _ hw => scanStep_keys hscan hw
    case h_2 =>
      split at h
      · cases h
        exact .quiet _ rfl rfl rfl (fun _ => .inl rfl) fun _ hw => .inl (List.mem_append_right _ hw)
      · cases h
  case h_2 => cases h; exact .quiet _ rfl rfl rfl (fun _ => .inl rfl) nofun
  case h_3 key keys =>
    split at h
    · cases h
      exact .quiet _ rfl rfl rfl (fun _ => .inl rfl) fun _ hw => .inl (List.mem_cons_of_mem _ hw)
    · rename_i hkey
      cases h; exact .check key keys rfl fun halive => hkey (.inr halive)
  case h_4 key keys =>
    split at h
    case h_1 =>
      cases h
      exact .quiet _ rfl rfl rfl (fun _ => .inl rfl) fun _ hw => .inl (List.mem_cons_of_mem _ hw)
    case h_2 id hlast =>
      split at h
      · rename_i hid
        cases h; exact .peek key id keys rfl hlast hid
      · rename_i hid
        cases h; exact .junk key id keys rfl hlast (by simpa using hid)
  case h_5 key id keys =>
    split at h
    case h_1 => cases h; exact .quiet _ rfl rfl rfl (fun _ => .inl rfl) nofun
    case h_2 job hid => cases h; exact .select key id keys job rfl hid
  case h_6 key id keys => cases h; exact .dropped key id keys rfl
  case h_7 key id keys =>
    split at h
    case h_1 => cases h; exact .quiet _ rfl rfl rfl (fun _ => .inl rfl) nofun
    case h_2 job hid =>
      split at h
      · cases h
      · rename_i hfree
        cases h; exact .buried key id keys job rfl hid (by simpa using hfree)
  case h_8 key id keys =>
    split at h
    case h_1 => cases h; exact .quiet _ rfl rfl rfl (fun _ => .inl rfl) nofun
    case h_2 job hid =>
      split at h
      · cases h
      · rename_i hfree
        cases h; exact .requeued key id keys job rfl hid (by simpa using hfree)
  case h_9 key id keys =>
    cases hlast : KeyedList.last? s.redis.processing key with
    | none =>
        simp only [Redis.lmove, hlast, Option.map_none] at h
        cases h; exact .emptied key id keys rfl hlast
    | some last =>
        simp only [Redis.lmove, hlast, Option.map_some] at h
        cases h; exact .moved key id last keys rfl hlast
  case h_10 => cases h

theorem sweepOrphans_cases (h : sweepOrphans cfg s σ pick = some s') : SchedMove s σ s' := by
  unfold sweepOrphans at h
  split at h
  case h_1 =>
    split at h
    all_goals cases h; exact .quiet _ rfl rfl rfl (fun _ => .inl rfl) nofun
  case h_2 => cases h; exact .quiet _ rfl rfl rfl (fun _ => .inl rfl) nofun
  case h_3 =>
    split at h
    case h_1 =>
      obtain ⟨⟨t, f⟩, -, rfl⟩ := Option.map_eq_some_iff.mp h
      exact .quiet _ rfl rfl rfl (fun _ => .inl rfl) nofun
    case h_2 =>
      split at h
      · cases h; exact .quiet _ rfl rfl rfl (fun _ => .inl rfl) nofun
      · cases h
  case h_4 | h_5 => cases h; exact .quiet _ rfl rfl rfl (fun _ => .inl rfl) nofun
  case h_6 => cases h; exact .quiet _ rfl rfl rfl (fun _ => .inl rfl) nofun
  case h_7 job candidates held =>
    split at h
    · cases h; exact .quiet _ rfl rfl rfl (fun _ => .inl rfl) nofun
    · rename_i hheld
      cases h; exact .swept job candidates held rfl hheld
  case h_8 => cases h

theorem schedule_cases (h : schedule cfg s σ pick = some s') : SchedMove s σ s' := by
  unfold schedule at h
  split at h
  case h_1 =>
    split at h
    case h_1 => cases h; exact .quiet _ rfl rfl rfl nofun nofun
    case h_2 =>
      cases h
      exact .quiet _ rfl rfl rfl (fun _ => .inr ⟨rfl, rfl⟩) fun _ hw =>
        .inr (KeyedList.mem_keys.mp ((List.mem_append.mp hw).resolve_right List.not_mem_nil))
    case h_3 => cases h
  case h_2 | h_3 | h_4 => exact promoteDue_cases h
  case h_5 | h_6 | h_7 | h_8 | h_9 | h_10 | h_11 | h_12 => exact reapDead_cases h
  all_goals exact sweepOrphans_cases h

theorem abandonPass_cases (h : abandonPass s σ = some s') : SchedMove s σ s' := by
  unfold abandonPass at h
  split at h
  · rename_i hrec
    cases h
    refine .quiet _ ?_ rfl rfl nofun nofun
    cases σ <;> first | rfl | cases hrec
  · cases h

/-- A scheduler outside its recovery pass stays outside of it, unless it starts one. -/
theorem rests_of_schedule (hrest : σ.recovering = false) (h : schedule cfg s σ pick = some s')
    (hnot : σ = .idle → pick ≠ .recover) :
    s'.scheds = s.scheds.erase σ ∨ ∃ σ', s'.scheds = Bag.swap s.scheds σ σ' ∧ σ'.recovering = false := by
  unfold schedule at h
  split at h
  case h_1 =>
    split at h
    case h_1 => cases h; exact .inr ⟨_, rfl, rfl⟩
    case h_2 => exact absurd rfl (hnot rfl)
    case h_3 => cases h
  case h_2 | h_3 | h_4 =>
    unfold promoteDue at h
    repeat' split at h
    all_goals cases h
    all_goals first
      | exact .inl rfl
      | exact .inr ⟨_, rfl, rfl⟩
  all_goals cases hrest

/-! ## The verdict of `reapWorker` -/

/-- `judge` is one of three points, and says what it read. -/
theorem judge_cases (key : WorkerId) (id : Text) (keys : List WorkerId) (row : Option JobRow) :
    (judge key id keys row = .reapDrop key id keys ∧
        ∀ r, row = some r → r.status.terminal = true ∨ r.status = .retrying) ∨
      (∃ r, row = some r ∧ r.status.terminal = false ∧ r.status ≠ .retrying ∧
        (judge key id keys row = .reapBury key id keys ∧ r.attempts ≥ r.maxAttempts ∨
          judge key id keys row = .reapRequeue key id keys ∧ r.attempts < r.maxAttempts)) := by
  cases row with
  | none => exact .inl ⟨rfl, nofun⟩
  | some r =>
      by_cases hstale : (r.status.terminal || decide (r.status = .retrying)) = true
      · refine .inl ⟨by simp [judge, hstale], ?_⟩
        rintro r' ⟨⟩
        simpa using hstale
      · refine .inr ⟨r, rfl, ?_⟩
        simp only [Bool.or_eq_true, decide_eq_true_eq, not_or, Bool.not_eq_true] at hstale
        refine ⟨hstale.1, hstale.2, ?_⟩
        by_cases hbudget : r.attempts ≥ r.maxAttempts
        · exact .inl ⟨by simp [judge, hstale, hbudget], hbudget⟩
        · exact .inr ⟨by simp [judge, hstale, hbudget], by omega⟩

end QueueFlow
