-- SUMMARY: reapWorker on any list, cut short at any command and begun again: the rows and the pending list it comes to.
import QueueFlow.Frame
import QueueFlow.Recovery.Agreement

/-!
# A pass that is begun again

`Underway` compares a state with the one the work began in. It counts what is still in the list as
if it were done, so that the commands of a pass keep it wherever the pass is cut short. When the
list is empty, nothing is left of the comparison but what was to be done.
-/

namespace QueueFlow

open Transition

/-! ## The runs -/

/-- Time passes. -/
def Act.isTick : Act → Bool
  | .tick _ => true
  | _ => false

theorem Act.eq_tick {a : Act} (h : a.isTick = true) : ∃ d, a = .tick d := by
  cases a with
  | tick d => exact ⟨d, rfl⟩
  | _ => cases h

/-- `reapWorker` on the list of `w` issues its next command, or time passes. -/
def Reaping (w : WorkerId) (s : State) (a : Act) : Prop := ReaperAlone w s a ∨ ∃ d, a = .tick d

/-- As well, the only scheduler abandons its pass, is started anew, or issues commands that write
nothing. -/
def Restarting (cfg : Config) (w : WorkerId) (s : State) (a : Act) : Prop :=
  Reaping w s a ∨ (s.scheds = [] ∧ a = .startSched) ∨
    ((∃ σ ∈ s.scheds, s.scheds = [σ] ∧ a.sched? = some σ) ∧
      ∀ t ∈ step cfg s a, t.db = s.db ∧ t.redis = s.redis)

instance (w : WorkerId) (s : State) (a : Act) : Decidable (ReaperAlone w s a) :=
  decidable_of_iff (∃ σ ∈ s.scheds, s.scheds = [σ] ∧ σ.reaping = some w ∧ a = .sched σ .next)
    ⟨by rintro ⟨σ, -, h⟩; exact ⟨σ, h⟩,
      by rintro ⟨σ, h⟩; exact ⟨σ, h.1 ▸ List.mem_singleton_self σ, h⟩⟩

instance (w : WorkerId) (s : State) (a : Act) : Decidable (Reaping w s a) :=
  decidable_of_iff (ReaperAlone w s a ∨ a.isTick = true)
    ⟨Or.imp_right Act.eq_tick, Or.imp_right (by rintro ⟨d, rfl⟩; rfl)⟩

instance (cfg : Config) (w : WorkerId) (s : State) (a : Act) : Decidable (Restarting cfg w s a) :=
  inferInstanceAs (Decidable (_ ∨ _ ∨ _))

/-- `reapWorker` has returned. -/
def State.Passed (s : State) : Prop := ∃ keys, s.scheds = [.reapCheck keys]

/-! ## What a pass is for -/

/-- The entry is put back into `pending`. -/
def State.rescues (s : State) (id : Text) : Bool :=
  isUuid id && ((uuidIn id).bind s.db.row).any (·.rescuable)

/-- What `reapWorker` on the list of `w` makes of the stores of `s`. -/
structure Reaped (w : WorkerId) (s t : State) : Prop where
  list : t.redis.lrange w = []
  row : ∀ job, ∃ d, s.now ≤ d ∧ d ≤ t.now ∧ t.db.row job = (s.db.row job).map fun r =>
    if mentions (s.redis.lrange w) job then r.reaped w d else r
  pending : t.redis.pending =
    s.redis.pending ++ (s.redis.lrange w).reverse.filter s.rescues
  delayed : t.redis.delayed = s.redis.delayed

/-! ## One iteration -/

/-- The tail of the list. -/
def State.Tail (s : State) (w : WorkerId) (id : Text) : Prop :=
  KeyedList.last? s.redis.processing w = some id

/-- What `reapWorker` on the list of `w` has found out about the entry in hand. -/
def Sched.Knows (w : WorkerId) (s : State) : Sched → Prop
  | .reapSelect key id _ => key = w → s.Tail w id ∧ isUuid id = true
  | .reapDrop key id _ => key = w →
      s.Tail w id ∧ ∀ job r, Names id job → s.db.row job = some r → r.active = false
  | .reapBury key id _ => key = w → s.Tail w id ∧
      ∃ job r, Names id job ∧ s.db.row job = some r ∧ r.active = true ∧ r.exhausted = true
  | .reapRequeue key id _ => key = w → s.Tail w id ∧
      ∃ job r, Names id job ∧ s.db.row job = some r ∧ r.active = true ∧ r.exhausted = false
  | .reapMove key id _ => key = w → s.Tail w id ∧
      ∃ job r, Names id job ∧ s.db.row job = some r ∧ r.rescuable = true ∧ r.requeued = r
  | _ => True

/-- One command of `reapWorker` on the list of `w`, by the only scheduler. -/
inductive PassMove (w : WorkerId) (s : State) : Sched → State → Prop where
  | ended (keys : List WorkerId) (hlist : s.redis.lrange w = []) :
      PassMove w s (.reapPeek w keys) (s.atPoint (.reapCheck keys))
  | peeked (id : Text) (keys : List WorkerId) (htail : s.Tail w id) (huuid : isUuid id = true) :
      PassMove w s (.reapPeek w keys) (s.atPoint (.reapSelect w id keys))
  | malformed (id : Text) (keys : List WorkerId) (htail : s.Tail w id) (huuid : isUuid id = false) :
      PassMove w s (.reapPeek w keys) (s.atPoint (.reapDrop w id keys))
  | selected (id : Text) (keys : List WorkerId) (job : Uuid) (hid : Names id job) :
      PassMove w s (.reapSelect w id keys) (s.atPoint (judge w id keys (s.db.row job)))
  | dropped (id : Text) (keys : List WorkerId) :
      PassMove w s (.reapDrop w id keys)
        ((s.withRedis (s.redis.lremTail w id)).atPoint (.reapPeek w keys))
  | buried (id : Text) (keys : List WorkerId) (job : Uuid) (hid : Names id job) :
      PassMove w s (.reapBury w id keys)
        ((s.write job (.buried (stoppedResponding w) s.now)).atPoint (.reapDrop w id keys))
  | requeued (id : Text) (keys : List WorkerId) (job : Uuid) (hid : Names id job) :
      PassMove w s (.reapRequeue w id keys)
        ((s.write job .requeued).atPoint (.reapMove w id keys))
  | moved (id : Text) (keys : List WorkerId) :
      PassMove w s (.reapMove w id keys)
        ((s.withRedis { s.redis.lremTail w id with pending := s.redis.pending ++ [id] }).atPoint
          (.reapPeek w keys))

variable {cfg : Config} {w : WorkerId} {s s' : State} {σ : Sched} {pick : Pick} {keys : List WorkerId}

/-- Inside the pass the next command is enabled, and is one of `PassMove`. -/
theorem pass_moves (hσ : s.scheds = [σ]) (hreap : σ.reaping = some w) (hknows : σ.Knows w s)
    (hfree : ∀ job, s.locked job = false) (pick : Pick) :
    ∃ s', schedule cfg s σ pick = some s' ∧ PassMove w s σ s' := by
  cases σ with
  | idle | promoting | promoteUpdate | promotePush | reapScan | reapCheck | sweepSelect
  | sweepPending | sweepScan | sweepRead | sweepPush => cases hreap
  | reapPeek key keys =>
    cases hreap
    simp only [schedule, reapDead, setSched_single hσ]
    cases hlast : KeyedList.last? s.redis.processing w with
    | none => exact ⟨_, rfl, .ended keys (KeyedList.last?_eq_none.mp hlast)⟩
    | some id =>
      cases huuid : isUuid id with
      | true => exact ⟨_, if_pos huuid, .peeked id keys hlast huuid⟩
      | false => exact ⟨_, if_neg (by simp [huuid]), .malformed id keys hlast huuid⟩
  | reapSelect key id keys =>
    cases hreap
    obtain ⟨job, hid⟩ := uuidIn_of_isUuid (hknows rfl).2
    simp only [schedule, reapDead, hid, setSched_single hσ]
    exact ⟨_, rfl, .selected id keys job ⟨(hknows rfl).2, hid⟩⟩
  | reapDrop key id keys =>
    cases hreap
    exact ⟨_, congrArg some (setSched_single hσ), .dropped id keys⟩
  | reapBury key id keys =>
    cases hreap
    obtain ⟨-, job, r, hid, -⟩ := hknows rfl
    simp only [schedule, reapDead, hid.2, hfree job]
    exact ⟨_, congrArg some (setSched_single hσ), .buried id keys job hid⟩
  | reapRequeue key id keys =>
    cases hreap
    obtain ⟨-, job, r, hid, -⟩ := hknows rfl
    simp only [schedule, reapDead, hid.2, hfree job]
    exact ⟨_, congrArg some (setSched_single hσ), .requeued id keys job hid⟩
  | reapMove key id keys =>
    cases hreap
    have hmove : s.redis.lmove w = some (id, { s.redis.lremTail w id with
        pending := s.redis.pending ++ [id] }) := by
      have htail : KeyedList.last? s.redis.processing w = some id := (hknows rfl).1
      simp [Redis.lmove, htail, Redis.lremTail]
    simp only [schedule, reapDead, hmove]
    exact ⟨_, congrArg some (setSched_single hσ), .moved id keys⟩

/-! ## What is still to be done -/

/-- The row has not been judged yet, or it has. -/
def JudgedRow (w : WorkerId) (s₀ s : State) (job : Uuid) : Prop :=
  (s.db.row job = s₀.db.row job ∧
      (mentions (s₀.redis.lrange w) job = true → mentions (s.redis.lrange w) job = true)) ∨
    (mentions (s₀.redis.lrange w) job = true ∧
      ∃ d, s₀.now ≤ d ∧ d ≤ s.now ∧ s.db.row job = (s₀.db.row job).map (.reaped w d))

/-- The work on the list of `w` that began in `s₀` has come as far as `s`. -/
structure Underway (w : WorkerId) (s₀ s : State) : Prop where
  free : ∀ job, s.locked job = false
  later : s₀.now ≤ s.now
  knows : ∀ σ ∈ s.scheds, σ.Knows w s
  list : s.redis.lrange w <+: s₀.redis.lrange w
  pending : s.redis.pending ++ (s.redis.lrange w).reverse.filter s₀.rescues =
    s₀.redis.pending ++ (s₀.redis.lrange w).reverse.filter s₀.rescues
  delayed : s.redis.delayed = s₀.redis.delayed
  rows : ∀ job, JudgedRow w s₀ s job

variable {s₀ : State} {id : Text} {job : Uuid} {r : JobRow}

theorem lrange_of_tail (h : s.Tail w id) :
    s.redis.lrange w = (s.redis.lremTail w id).lrange w ++ [id] :=
  KeyedList.get_removeRight_last h

theorem Sched.Knows.of_stores (h : σ.Knows w s) (hdb : s'.db = s.db) (hredis : s'.redis = s.redis) :
    σ.Knows w s' := by
  cases σ <;> simp only [Sched.Knows, State.Tail, hdb, hredis] at h ⊢ <;> exact h

/-- Nothing is in hand outside the list of `w`, or before an entry is read. -/
theorem Sched.knows_of_reaping (h : σ.reaping ≠ some w ∨ ∃ keys, σ = .reapPeek w keys) :
    σ.Knows w s := by
  rcases h with h | ⟨keys, rfl⟩
  · cases σ <;> first | trivial | exact fun hkey => absurd (congrArg some hkey) h
  · trivial

/-- A command outside the list of `w` leads into it at the peek. -/
theorem SchedMove.reaping (h : SchedMove s σ s') (hσ : s.scheds = [σ]) (hreap : σ.reaping ≠ some w) :
    ∀ τ ∈ s'.scheds, τ.reaping ≠ some w ∨ ∃ keys, τ = .reapPeek w keys := by
  have hmem {σ' τ : Sched} (hτ : τ ∈ Bag.swap s.scheds σ σ') : τ = σ' := by
    simpa [hσ, Bag.swap] using hτ
  cases h with
  | quiet σ' _ _ hnone =>
    intro τ hτ
    obtain rfl := hmem hτ
    exact .inl (by rw [hnone]; rintro ⟨⟩)
  | crashed => simp [hσ]
  | removed | promoted | pushed | swept =>
    intro τ hτ
    obtain rfl := hmem hτ
    exact .inl (by rintro ⟨⟩)
  | check key keys =>
    intro τ hτ
    obtain rfl := hmem hτ
    by_cases hkey : key = w
    · exact .inr ⟨keys, hkey ▸ rfl⟩
    · exact .inl fun heq => hkey (Option.some.inj heq)
  | peek key id keys hpc | junk key id keys hpc | dropped key id keys hpc | buried key id keys job hpc
  | requeued key id keys job hpc | moved key id last keys hpc | emptied key id keys hpc =>
    intro τ hτ
    obtain rfl := hmem hτ
    subst hpc
    exact .inl hreap
  | select key id keys job hpc =>
    intro τ hτ
    obtain rfl := hmem hτ
    subst hpc
    rcases judge_cases key id keys (s.db.row job) with
      ⟨hjudge, -⟩ | ⟨r, -, -, -, ⟨hjudge, -⟩ | ⟨hjudge, -⟩⟩
    all_goals rw [hjudge]; exact .inl hreap

theorem mentions_of_names (h : Names id job) {ids : List Text} (hmem : id ∈ ids) :
    mentions ids job = true :=
  List.any_eq_true.mpr ⟨id, hmem, by simp [h.1, h.2]⟩

theorem names_of_mentions (h : mentions [id] job = true) : Names id job := by
  rw [mentions_singleton, Bool.and_eq_true, decide_eq_true_eq] at h
  exact h

theorem rescues_of_names (h : Names id job) : s.rescues id = (s.db.row job).any (·.rescuable) := by
  rw [State.rescues, h.1, h.2]
  rfl

namespace Underway

theorem begin (hfree : ∀ job, s.locked job = false) (hσ : s.scheds = [.reapPeek w keys]) :
    Underway w s s where
  free := hfree
  later := le_rfl
  knows σ hmem := by
    rw [hσ] at hmem
    cases List.mem_singleton.mp hmem
    trivial
  list := List.prefix_rfl
  pending := rfl
  delayed := rfl
  rows _ := .inl ⟨rfl, fun hm => hm⟩

/-- Judging a row does not change whether its job is rescued. -/
theorem rescues_eq (h : Underway w s₀ s) (id : Text) : s.rescues id = s₀.rescues id := by
  unfold State.rescues
  cases uuidIn id with
  | none => rfl
  | some job =>
    rcases h.rows job with ⟨hrow, -⟩ | ⟨-, d, -, -, hrow⟩
    · simp only [Option.bind_some, hrow]
    · simp only [Option.bind_some, hrow]
      cases s₀.db.row job with
      | none => rfl
      | some r => simp only [Option.map_some, Option.any_some, JobRow.rescuable_reaped]

theorem mem_of_tail (h : Underway w s₀ s) (htail : s.Tail w id) : id ∈ s₀.redis.lrange w := by
  refine h.list.subset ?_
  rw [lrange_of_tail htail]
  exact List.mem_append_right _ (List.mem_singleton_self id)

/-- Only the scheduler and the clock have moved. -/
theorem idle (h : Underway w s₀ s) (hdb : s'.db = s.db) (hredis : s'.redis = s.redis)
    (hexecs : s'.execs = s.execs) (hnow : s.now ≤ s'.now) (hknows : ∀ σ ∈ s'.scheds, σ.Knows w s') :
    Underway w s₀ s' where
  free job := by
    rw [State.locked, hexecs]
    exact h.free job
  later := h.later.trans hnow
  knows := hknows
  list := hredis ▸ h.list
  pending := hredis ▸ h.pending
  delayed := hredis ▸ h.delayed
  rows job := by
    unfold JudgedRow
    rw [hdb, hredis]
    rcases h.rows job with hsame | ⟨hm, d, hfrom, hto, hrow⟩
    · exact .inl hsame
    · exact .inr ⟨hm, d, hfrom, hto.trans hnow, hrow⟩

/-- The UPDATE of the job in hand. -/
theorem write (h : Underway w s₀ s) (htail : s.Tail w id) (hid : Names id job)
    (hrow : s.db.row job = some r) {set : JobRow → JobRow} (hset : Db.KeepsId set)
    (hjudged : r.reaped w s.now = set r) (hknows : σ.Knows w ((s.write job set).atPoint σ)) :
    Underway w s₀ ((s.write job set).atPoint σ) where
  free := h.free
  later := h.later
  knows τ hmem := by
    cases List.mem_singleton.mp hmem
    exact hknows
  list := h.list
  pending := h.pending
  delayed := h.delayed
  rows job' := by
    have hrow' : ((s.write job set).atPoint σ).db.row job' =
        if job' = job then (s.db.row job').map set else s.db.row job' := Db.row_updateRow hset
    unfold JudgedRow
    rw [hrow']
    by_cases hjob : job' = job
    · subst hjob
      have hm := mentions_of_names hid (h.mem_of_tail htail)
      have hset' : (s.db.row job').map set = (s.db.row job').map (.reaped w s.now) := by
        rw [hrow, Option.map_some, Option.map_some, hjudged]
      rw [if_pos rfl, hset']
      refine .inr ⟨hm, ?_⟩
      rcases h.rows job' with ⟨hsame, -⟩ | ⟨-, d, hfrom, hto, hdone⟩
      · exact ⟨s.now, h.later, le_rfl, by rw [hsame]⟩
      · refine ⟨d, hfrom, hto, ?_⟩
        rw [hdone, Option.map_map]
        exact congrArg (Option.map · _) (funext fun r => JobRow.reaped_reaped w d s.now r)
    · rw [if_neg hjob]
      exact h.rows job'

/-- The entry in hand leaves the list, for `pending` where its job is rescued. -/
theorem pop (h : Underway w s₀ s) (htail : s.Tail w id) {pending : List Text}
    (hpending : pending = s.redis.pending ++ [id].filter s.rescues)
    (hsettled : ∀ job r, Names id job → s.db.row job = some r → r.reaped w s.now = r) :
    Underway w s₀ ((s.withRedis { s.redis.lremTail w id with pending }).atPoint
      (.reapPeek w keys)) where
  free := h.free
  later := h.later
  knows τ hmem := by
    cases List.mem_singleton.mp hmem
    trivial
  list := by
    have hlist := h.list
    rw [lrange_of_tail htail] at hlist
    exact (List.prefix_append _ _).trans hlist
  pending := by
    have hlist := h.pending
    rw [lrange_of_tail htail, List.reverse_append, List.reverse_singleton, List.filter_append,
      ← List.append_assoc] at hlist
    have hrescues : [id].filter s.rescues = [id].filter s₀.rescues :=
      List.filter_congr fun id _ => h.rescues_eq id
    rw [← hlist, ← hrescues, ← hpending]
    rfl
  delayed := h.delayed
  rows job := by
    rcases h.rows job with ⟨hsame, hm⟩ | hjudged
    · rw [lrange_of_tail htail, mentions_append, Bool.or_eq_true] at hm
      by_cases hlast : mentions [id] job = true ∧ mentions (s₀.redis.lrange w) job = true
      · -- The row need not change for the entry that goes.
        refine .inr ⟨hlast.2, s.now, h.later, le_rfl, ?_⟩
        change s.db.row job = _
        rw [← hsame]
        cases hrow : s.db.row job with
        | none => rfl
        | some r => exact congrArg some (hsettled job r (names_of_mentions hlast.1) hrow).symm
      · exact .inl ⟨hsame, fun hm₀ => (hm hm₀).resolve_right fun hm' => hlast ⟨hm', hm₀⟩⟩
    · exact .inr hjudged

theorem pass (h : Underway w s₀ s) (hknows : σ.Knows w s) (hmove : PassMove w s σ s') :
    Underway w s₀ s' := by
  cases hmove with
  | ended keys => exact h.idle rfl rfl rfl le_rfl (List.forall_mem_singleton.mpr trivial)
  | peeked id keys htail huuid =>
    exact h.idle rfl rfl rfl le_rfl (List.forall_mem_singleton.mpr fun _ => ⟨htail, huuid⟩)
  | malformed id keys htail huuid =>
    refine h.idle rfl rfl rfl le_rfl (List.forall_mem_singleton.mpr fun _ => ⟨htail, ?_⟩)
    rintro job r ⟨hid, -⟩
    rw [huuid] at hid
    cases hid
  | selected id keys job hid =>
    obtain ⟨htail, -⟩ := hknows rfl
    refine h.idle rfl rfl rfl le_rfl (List.forall_mem_singleton.mpr ?_)
    rcases judge_cases w id keys (s.db.row job) with
      ⟨hjudge, hstale⟩ | ⟨r, hrow, hterminal, hretrying, ⟨hjudge, hbudget⟩ | ⟨hjudge, hbudget⟩⟩
    all_goals rw [hjudge]; intro _; refine ⟨htail, ?_⟩
    · rintro job' r hid' hrow
      obtain rfl : job' = job := Option.some.inj (hid'.2.symm.trans hid.2)
      rcases hstale r hrow with hstale | hstale
      · simp [JobRow.active, hstale]
      · simp [JobRow.active, hstale]
    · exact ⟨job, r, hid, hrow, by simp [JobRow.active, hterminal, hretrying],
        decide_eq_true hbudget⟩
    · exact ⟨job, r, hid, hrow, by simp [JobRow.active, hterminal, hretrying],
        decide_eq_false (Nat.not_le.mpr hbudget)⟩
  | dropped id keys =>
    obtain ⟨htail, hstale⟩ := hknows rfl
    have hno : s.rescues id = false := by
      cases huuid : isUuid id with
      | false => rw [State.rescues, huuid, Bool.false_and]
      | true =>
        obtain ⟨job, hid⟩ := uuidIn_of_isUuid huuid
        rw [rescues_of_names ⟨huuid, hid⟩]
        cases hrow : s.db.row job with
        | none => rfl
        | some r => simp [JobRow.rescuable, hstale job r ⟨huuid, hid⟩ hrow]
    have hpending : s.redis.pending = s.redis.pending ++ [id].filter s.rescues := by simp [hno]
    refine h.pop htail hpending fun job r hid hrow => ?_
    simp [JobRow.reaped, hstale job r hid hrow]
  | buried id keys job hid =>
    obtain ⟨htail, job', r, hid', hrow, hactive, hexhausted⟩ := hknows rfl
    obtain rfl : job' = job := Option.some.inj (hid'.2.symm.trans hid.2)
    refine h.write htail hid hrow (Db.keepsId_buried _ _) ?_ fun _ => ⟨htail, ?_⟩
    · simp [JobRow.reaped, hactive, hexhausted]
    · intro job r' hid'' hrow'
      obtain rfl : job = job' := Option.some.inj (hid''.2.symm.trans hid.2)
      have hburied := Db.row_updateRow_self (Db.keepsId_buried (stoppedResponding w) s.now) hrow
      obtain rfl := Option.some.inj (hrow'.symm.trans hburied)
      rfl
  | requeued id keys job hid =>
    obtain ⟨htail, job', r, hid', hrow, hactive, hexhausted⟩ := hknows rfl
    obtain rfl : job' = job := Option.some.inj (hid'.2.symm.trans hid.2)
    have hrequeued := Db.row_updateRow_self Db.keepsId_requeued hrow
    refine h.write htail hid hrow Db.keepsId_requeued ?_ fun _ =>
      ⟨htail, job', _, hid, hrequeued, ?_, rfl⟩
    · simp [JobRow.reaped, hactive, hexhausted]
    · have hsame : r.requeued.exhausted = r.exhausted := rfl
      have hqueued : r.requeued.active = true := rfl
      rw [JobRow.rescuable, hqueued, hsame, hexhausted]
      rfl
  | moved id keys =>
    obtain ⟨htail, job, r, hid, hrow, hrescuable, hqueued⟩ := hknows rfl
    have hyes : s.rescues id = true := by
      rw [rescues_of_names hid, hrow]
      exact hrescuable
    refine h.pop htail ?_ fun job' r' hid' hrow' => ?_
    · simp [hyes]
    · obtain rfl : job' = job := Option.some.inj (hid'.2.symm.trans hid.2)
      obtain rfl := Option.some.inj (hrow'.symm.trans hrow)
      rw [JobRow.rescuable, Bool.and_eq_true, Bool.not_eq_true'] at hrescuable
      simp [JobRow.reaped, hrescuable.1, hrescuable.2, hqueued]

theorem sched (h : Underway w s₀ s) (hσ : s.scheds = [σ])
    (hquiet : σ.reaping = some w ∨ s'.db = s.db ∧ s'.redis = s.redis)
    (hstep : schedule cfg s σ pick = some s') : Underway w s₀ s' := by
  by_cases hreap : σ.reaping = some w
  · have hknows := h.knows σ (hσ ▸ List.mem_singleton_self σ)
    obtain ⟨t, ht, hmove⟩ := @pass_moves cfg w s σ hσ hreap hknows h.free pick
    obtain rfl := Option.some.inj (hstep.symm.trans ht)
    exact h.pass hknows hmove
  · have hmove := schedule_cases hstep
    obtain ⟨hdb, hredis⟩ := hquiet.resolve_left hreap
    refine h.idle hdb hredis ?_ ?_ fun τ hτ => Sched.knows_of_reaping (hmove.reaping hσ hreap τ hτ)
    · cases hmove <;> rfl
    · cases hmove <;> exact le_rfl

theorem step {a : Act} (h : Underway w s₀ s) (hok : Restarting cfg w s a)
    (hstep : QueueFlow.step cfg s a = some s') : Underway w s₀ s' := by
  rcases hok with (⟨σ, hσ, hreap, rfl⟩ | ⟨d, rfl⟩) | ⟨hnone, rfl⟩ | ⟨⟨σ, -, hσ, ha⟩, hquiet⟩
  · obtain ⟨-, hstep⟩ := Option.ite_none_right_eq_some.mp hstep
    exact h.sched hσ (.inl hreap) hstep
  · cases hstep
    exact h.idle rfl rfl rfl (Nat.le_add_right _ _) fun σ hσ => (h.knows σ hσ).of_stores rfl rfl
  · cases hstep
    refine h.idle rfl rfl rfl le_rfl ?_
    rw [State.addSched_scheds, hnone]
    exact List.forall_mem_singleton.mpr trivial
  · have hwrites := hquiet s' hstep
    cases a with
    | sched τ pick =>
      cases ha
      obtain ⟨-, hstep⟩ := Option.ite_none_right_eq_some.mp hstep
      exact h.sched hσ (.inr hwrites) hstep
    | schedFail τ =>
      cases ha
      obtain ⟨-, hstep⟩ := Option.ite_none_right_eq_some.mp hstep
      obtain ⟨-, hstep⟩ := Option.ite_none_right_eq_some.mp hstep
      cases hstep
      refine h.idle rfl rfl rfl le_rfl ?_
      rw [setSched_single hσ]
      exact List.forall_mem_singleton.mpr trivial
    | schedKill τ =>
      cases ha
      obtain ⟨-, hstep⟩ := Option.ite_none_right_eq_some.mp hstep
      cases hstep
      refine h.idle rfl rfl rfl le_rfl ?_
      rw [State.endSched_scheds, hσ]
      simp
    | _ => cases ha

theorem run (h : Underway w s₀ s) (hrun : Run (QueueFlow.step cfg) (Restarting cfg w) s s') :
    Underway w s₀ s' :=
  hrun.invariant h fun _ _ _ h hok hstep => h.step hok hstep

/-- With the list empty, what was to be done is done. -/
theorem reaped (h : Underway w s₀ s) (hlist : s.redis.lrange w = []) : Reaped w s₀ s where
  list := hlist
  row job := by
    rcases h.rows job with ⟨hrow, hm⟩ | ⟨hm, d, hfrom, hto, hrow⟩
    · rw [hlist] at hm
      have hno : mentions (s₀.redis.lrange w) job = false := Bool.eq_false_iff.mpr fun h => by
        cases hm h
      exact ⟨s₀.now, le_rfl, h.later, by simp [hrow, hno]⟩
    · exact ⟨d, hfrom, hto, by simp [hrow, hm]⟩
  pending := by
    have hpending := h.pending
    rw [hlist] at hpending
    simpa using hpending
  delayed := h.delayed

end Underway

/-! ## The end of a pass -/

/-- How many commands the pass may still issue. -/
def State.commandsLeft (w : WorkerId) (s : State) : Sched → Nat
  | .reapPeek _ _ => 4 * (s.redis.lrange w).length + 1
  | .reapSelect _ _ _ => 4 * (s.redis.lrange w).length
  | .reapBury _ _ _ | .reapRequeue _ _ _ => 4 * (s.redis.lrange w).length - 1
  | .reapDrop _ _ _ | .reapMove _ _ _ => 4 * (s.redis.lrange w).length - 2
  | _ => 0

/-- The scheduler's commands are counted. -/
def countCommands (_ : State) (a : Act) (_ : State) (n : Nat) : Nat :=
  if a.sched?.isSome then n + 1 else n

/-- The pass is at work on the list of `w`, or it has returned and the list is empty. -/
def State.AtWork (w : WorkerId) (s : State) (σ : Sched) : Prop :=
  s.scheds = [σ] ∧ (σ.reaping = some w ∨ (∃ keys, σ = .reapCheck keys) ∧ s.redis.lrange w = [])

theorem length_of_tail (h : s.Tail w id) :
    (s.redis.lrange w).length = ((s.redis.lremTail w id).lrange w).length + 1 := by
  rw [lrange_of_tail h, List.length_append, List.length_singleton]

/-- Every command brings the pass closer to its end. -/
theorem PassMove.progress (hmove : PassMove w s σ s') (hknows : σ.Knows w s) :
    ∃ σ', s'.AtWork w σ' ∧ s'.commandsLeft w σ' < s.commandsLeft w σ := by
  cases hmove with
  | ended keys hlist =>
    exact ⟨_, ⟨rfl, .inr ⟨⟨keys, rfl⟩, hlist⟩⟩, Nat.succ_pos _⟩
  | peeked id keys htail => exact ⟨_, ⟨rfl, .inl rfl⟩, Nat.lt_succ_self _⟩
  | malformed id keys htail =>
    refine ⟨_, ⟨rfl, .inl rfl⟩, ?_⟩
    change 4 * (s.redis.lrange w).length - 2 < 4 * (s.redis.lrange w).length + 1
    omega
  | selected id keys job hid =>
    have hlength := length_of_tail (hknows rfl).1
    have hleft (n : Nat) (hn : 0 < n) : 4 * (s.redis.lrange w).length - n <
        4 * (s.redis.lrange w).length := by omega
    rcases judge_cases w id keys (s.db.row job) with
      ⟨hjudge, -⟩ | ⟨r, -, -, -, ⟨hjudge, -⟩ | ⟨hjudge, -⟩⟩
    all_goals rw [hjudge]
    · exact ⟨_, ⟨rfl, .inl rfl⟩, hleft 2 (by decide)⟩
    · exact ⟨_, ⟨rfl, .inl rfl⟩, hleft 1 (by decide)⟩
    · exact ⟨_, ⟨rfl, .inl rfl⟩, hleft 1 (by decide)⟩
  | dropped id keys =>
    have hlength := length_of_tail (hknows rfl).1
    refine ⟨_, ⟨rfl, .inl rfl⟩, ?_⟩
    change 4 * ((s.redis.lremTail w id).lrange w).length + 1 < 4 * (s.redis.lrange w).length - 2
    omega
  | buried id keys job hid =>
    have hlength := length_of_tail (hknows rfl).1
    refine ⟨_, ⟨rfl, .inl rfl⟩, ?_⟩
    change 4 * (s.redis.lrange w).length - 2 < 4 * (s.redis.lrange w).length - 1
    omega
  | requeued id keys job hid =>
    have hlength := length_of_tail (hknows rfl).1
    refine ⟨_, ⟨rfl, .inl rfl⟩, ?_⟩
    change 4 * (s.redis.lrange w).length - 2 < 4 * (s.redis.lrange w).length - 1
    omega
  | moved id keys =>
    have hlength := length_of_tail (hknows rfl).1
    refine ⟨_, ⟨rfl, .inl rfl⟩, ?_⟩
    change 4 * ((s.redis.lremTail w id).lrange w).length + 1 < 4 * (s.redis.lrange w).length - 2
    omega

/-- A pass that is at work has a next command, and a returned one issues none. -/
theorem progress_of_step {a : Act} {n m : Nat} (h : Underway w s₀ s) (hwork : s.AtWork w σ)
    (hn : n + s.commandsLeft w σ ≤ m) (hok : Reaping w s a) (hstep : step cfg s a = some s') :
    ∃ σ', s'.AtWork w σ' ∧ countCommands s a s' n + s'.commandsLeft w σ' ≤ m := by
  obtain ⟨hσ, hwork⟩ := hwork
  rcases hok with ⟨τ, hτ, hreap, rfl⟩ | ⟨d, rfl⟩
  · obtain rfl : σ = τ := List.singleton_inj.mp (hσ.symm.trans hτ)
    have hknows := h.knows σ (hσ ▸ List.mem_singleton_self σ)
    obtain ⟨-, hstep⟩ := Option.ite_none_right_eq_some.mp hstep
    obtain ⟨t, ht, hmove⟩ := @pass_moves cfg w s σ hσ hreap hknows h.free .next
    obtain rfl := Option.some.inj (hstep.symm.trans ht)
    obtain ⟨σ', hwork', hless⟩ := hmove.progress hknows
    refine ⟨σ', hwork', ?_⟩
    have hcount : countCommands s (.sched σ .next) s' n = n + 1 := rfl
    omega
  · cases hstep
    exact ⟨σ, ⟨hσ, hwork⟩, hn⟩

theorem progress_of_run {u v : State} {n : Nat} (h : Underway w s₀ u)
    (hu : u.scheds = [.reapPeek w keys])
    (hv : Observed (step cfg) (Reaping w) countCommands u 0 v n) :
    Underway w s₀ v ∧ ∃ σ, v.AtWork w σ ∧
      n + v.commandsLeft w σ ≤ 4 * (u.redis.lrange w).length + 1 := by
  refine hv.invariant (P := fun v n => Underway w s₀ v ∧ ∃ σ, v.AtWork w σ ∧
    n + v.commandsLeft w σ ≤ 4 * (u.redis.lrange w).length + 1)
    ⟨h, _, ⟨hu, .inl rfl⟩, (Nat.zero_add _).le⟩ ?_
  rintro s n a s' ⟨h, σ, hwork, hn⟩ hok hstep
  exact ⟨h.step (.inl hok) hstep, progress_of_step h hwork hn hok hstep⟩

/-- The row, less the time at which it was ended. -/
def JobRow.undated (r : JobRow) : JobRow := { r with completedAt := none }

/-- The same rows up to the times at which they ended, the same pending list and delayed set. -/
structure SameButDates (s t : State) : Prop where
  row : ∀ job, (s.db.row job).map JobRow.undated = (t.db.row job).map JobRow.undated
  pending : s.redis.pending = t.redis.pending
  delayed : s.redis.delayed = t.redis.delayed

theorem JobRow.undated_reaped (w : WorkerId) (now now' : Nat) (r : JobRow) :
    (r.reaped w now).undated = (r.reaped w now').undated := by
  unfold JobRow.reaped
  split
  · split
    · rfl
    · rfl
  · rfl

theorem Reaped.same {t t' : State} (h : Reaped w s t) (h' : Reaped w s t') : SameButDates t t' where
  row job := by
    obtain ⟨d, -, -, hrow⟩ := h.row job
    obtain ⟨d', -, -, hrow'⟩ := h'.row job
    rw [hrow, hrow', Option.map_map, Option.map_map]
    refine congrArg (Option.map · _) (funext fun r => ?_)
    simp only [Function.comp_apply]
    split
    · exact JobRow.undated_reaped w d d' r
    · rfl
  pending := h.pending.trans h'.pending.symm
  delayed := h.delayed.trans h'.delayed.symm

theorem reaped_of_passed {u t : State} (h : Underway w s₀ u) (hu : u.scheds = [.reapPeek w keys])
    (ht : Run (step cfg) (Reaping w) u t) (hpassed : t.Passed) : Reaped w s₀ t := by
  obtain ⟨n, hobserved⟩ := ht.observed countCommands 0
  obtain ⟨h, σ, ⟨hσ, hwork⟩, -⟩ := progress_of_run h hu hobserved
  obtain ⟨keys', hkeys⟩ := hpassed
  obtain rfl : σ = .reapCheck keys' := List.singleton_inj.mp (hσ.symm.trans hkeys)
  rcases hwork with hwork | ⟨-, hlist⟩
  · cases hwork
  · exact h.reaped hlist

/-- However often the pass on the list of `w` was cut short, run again it ends after at most four
commands for each entry and one more, and it comes to what one uninterrupted pass comes to. -/
theorem reapWorker_restartable {u : State} {keys' : List WorkerId}
    (hσ : s.scheds = [.reapPeek w keys]) (hfree : ∀ job, s.locked job = false)
    (hcut : Run (step cfg) (Restarting cfg w) s u) (hu : u.scheds = [.reapPeek w keys']) :
    (∀ v n, Observed (step cfg) (Reaping w) countCommands u 0 v n →
      n ≤ 4 * (u.redis.lrange w).length + 1 ∧
        (v.Passed ∨ ∃ a v', ReaperAlone w v a ∧ step cfg v a = some v')) ∧
      ∀ t, Run (step cfg) (Reaping w) u t → t.Passed → Reaped w s t ∧
        ∀ t₀, Run (step cfg) (Reaping w) s t₀ → t₀.Passed → SameButDates t t₀ := by
  have hbegin : Underway w s s := .begin hfree hσ
  have h : Underway w s u := hbegin.run hcut
  refine ⟨fun v n hv => ?_, fun t ht hpassed => ?_⟩
  · obtain ⟨h, σ, ⟨hσ, hwork⟩, hn⟩ := progress_of_run h hu hv
    refine ⟨(Nat.le_add_right _ _).trans hn, ?_⟩
    rcases hwork with hreap | ⟨⟨keys, rfl⟩, -⟩
    · obtain ⟨v', hv', -⟩ := @pass_moves cfg w v σ hσ hreap
        (h.knows σ (hσ ▸ List.mem_singleton_self σ)) h.free .next
      refine .inr ⟨.sched σ .next, v', ⟨σ, hσ, hreap, rfl⟩, ?_⟩
      simp [step, hσ, hv']
    · exact .inl ⟨keys, hσ⟩
  · have hreaped := reaped_of_passed h hu ht hpassed
    exact ⟨hreaped, fun t₀ ht₀ hpassed₀ => hreaped.same (reaped_of_passed hbegin hσ ht₀ hpassed₀)⟩

open Script in
/-- One job is in hand and its row is reset, when a command fails; the next pass finds the list
again. -/
theorem reapWorker_restartable_cut : ∃ u,
    Run (step defaults) (Restarting defaults ['a']) (leftBehind .running 1 []) u ∧
      ∀ t, Run (step defaults) (Reaping ['a']) u t → t.Passed →
        Reaped ['a'] (leftBehind .running 1 []) t := by
  have hrun : ∃ u, Run (step defaults) (Restarting defaults ['a']) (leftBehind .running 1 []) u ∧
      u.scheds = [.reapPeek ['a'] []] :=
    exists_run_of_play ([.sched .next, .sched .next, .sched .next,
      .act (.schedFail (.reapMove ['a'] (uuidOut (job 1)) [])), .sched .recover, .sched (.visit ['a']),
      .sched .next, .sched .next]) (by decide +kernel)
  obtain ⟨u, hcut, hu⟩ := hrun
  have hrestarted := reapWorker_restartable rfl (fun _ => rfl) hcut hu
  exact ⟨u, hcut, fun t ht hpassed => (hrestarted.2 t ht hpassed).1⟩

end QueueFlow
