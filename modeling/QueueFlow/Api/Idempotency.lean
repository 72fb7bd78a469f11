-- SUMMARY: Submissions with one Idempotency-Key make one row, which every response to them names and which is pushed once.
import QueueFlow.Frame
import QueueFlow.Script
import QueueFlow.Lib.Bag

/-!
# Idempotent submission

The INSERT decides which of several submissions with one key makes the row. The others
read the row that is there, whatever has become of it since. An observer notes who
inserts and what the pending list gains: what it notes of the inserts are the rows of the
table, and the pushes that are made or still to be made are at most as many.
-/

namespace QueueFlow

open Transition

/-- What the submissions have done, newest first. -/
structure SubmitLog where
  /-- The key and the id of every row that was inserted. -/
  inserts : List (Option Text × Uuid)
  /-- The key and the text of every id that has come onto the pending list. -/
  pushes : List (Option Text × Text)

/-- What a command of a submission with this key has put on the left of the pending list. -/
def State.lpushed (s s' : State) (key : Option Text) : List (Option Text × Text) :=
  (s'.redis.pending.take (s'.redis.pending.length - s.redis.pending.length)).map fun id => (key, id)

/-- Notes what the commands of submissions insert and push. -/
def submissions (s : State) (a : Act) (s' : State) (log : SubmitLog) : SubmitLog :=
  match a with
  | .api (.insert key) generated =>
      { inserts := if (s.keyRow key).isNone then (key, generated) :: log.inserts else log.inserts
        pushes := s.lpushed s' key ++ log.pushes }
  | .api (.lookup key) _ => { log with pushes := s.lpushed s' key ++ log.pushes }
  | .api (.push (.submit key) _) _ => { log with pushes := s.lpushed s' key ++ log.pushes }
  | _ => log

theorem State.lpushed_same {s s' : State} {key : Option Text} (h : s'.redis.pending = s.redis.pending) :
    s.lpushed s' key = [] := by
  rw [lpushed, h, Nat.sub_self, List.take_zero, List.map_nil]

theorem State.lpushed_lpush {s s' : State} {key : Option Text} {id : Text}
    (h : s'.redis.pending = id :: s.redis.pending) : s.lpushed s' key = [(key, id)] := by
  rw [lpushed, h, List.length_cons, Nat.add_sub_cancel_left]
  rfl

/-- A submission that has its row and is about to push the id. -/
def Api.pushes (k : Text) : Api → Bool
  | .push (.submit key) _ => key = some k
  | _ => false

/-- What no UPDATE changes in a row. -/
def JobRow.identity (r : JobRow) : Option Text × Uuid := (r.idempotencyKey, r.id)

/-- The keys and ids of all rows, oldest first. -/
def State.identities (s : State) : List (Option Text × Uuid) := s.db.jobs.map JobRow.identity

/-- The response names the job that the submission made or found. -/
def Response.Names (res : Response) (job : Uuid) : Prop :=
  (res.code = 202 ∧ res.body = .queued (uuidOut job)) ∨
    (res.code = 200 ∧ ∃ status, res.body = .deduplicated (uuidOut job) status)

/-- How the table, the requests under way and the responses fit together. -/
structure SubmitWf (s : State) (log : SubmitLog) : Prop where
  inserts : log.inserts = s.identities.reverse
  keys : ∀ k, s.identities.countP (·.1 = some k) ≤ 1
  pushes : ∀ k, s.apis.countP (Api.pushes k) + log.pushes.countP (·.1 = some k) ≤
    s.identities.countP (·.1 = some k)
  pushing : ∀ key id, .push (.submit key) id ∈ s.apis →
    ∃ job, (key, job) ∈ s.identities ∧ id = uuidOut job
  pushed : ∀ p ∈ log.pushes, ∃ job, (p.1, job) ∈ s.identities ∧ p.2 = uuidOut job
  looking : ∀ key, .lookup key ∈ s.apis → key.isSome = true ∧ ∃ job, (key, job) ∈ s.identities
  responses : ∀ res ∈ s.responses, ∀ key, res.request = .submit key →
    ∃ job, (key, job) ∈ s.identities ∧ res.Names job

variable {cfg : Config} {s s' : State} {a : Act} {log : SubmitLog}

/-! ## The table -/

private theorem identities_update {db : Db} {whr : JobRow → Bool} {set : JobRow → JobRow}
    (hset : ∀ r, (set r).identity = r.identity) :
    (db.update whr set).jobs.map JobRow.identity = db.jobs.map JobRow.identity := by
  simp only [Db.update, List.map_map]
  refine List.map_congr_left fun r _ => ?_
  simp only [Function.comp]
  split
  · exact hset r
  · rfl

/-- Rows keep their key and id, and only an insert adds one. -/
theorem identities_of_step (hstep : step cfg s a = some s') :
    s'.identities = s.identities ∨ ∃ key g, a = .api (.insert key) g := by
  have hdb := db_cases hstep
  unfold State.identities
  generalize s'.db = db at hdb ⊢
  generalize s'.claims = claims at hdb
  cases hdb with
  | same => exact .inl rfl
  | inserted key g generated ha => exact .inr ⟨key, g, ha⟩
  | replayed | claimed | settled | buried | parked | promoted | reapBuried | reapRequeued | reset =>
      exact .inl (identities_update fun _ => rfl)

/-! ## Lookups by key -/

theorem identity_of_keyRow {key : Option Text} {r : JobRow} (h : s.keyRow key = some r) :
    key.isSome = true ∧ (key, r.id) ∈ s.identities := by
  have hr := List.find?_some h
  simp only [Bool.and_eq_true, decide_eq_true_eq] at hr
  exact ⟨hr.1, List.mem_map.mpr ⟨r, List.mem_of_find?_eq_some h, by rw [JobRow.identity, hr.2]⟩⟩

theorem identity_ne_of_keyRow {key : Option Text} (h : s.keyRow key = none)
    (hkey : key.isSome = true) (job : Uuid) : (key, job) ∉ s.identities := by
  intro hmem
  obtain ⟨r, hr, heq⟩ := List.mem_map.mp hmem
  have hnot := List.find?_eq_none.mp h r hr
  have hr' : r.idempotencyKey = key := (Prod.ext_iff.mp heq).1
  exact hnot (by simp [hkey, hr'])

/-! ## Steps -/

namespace SubmitWf

theorem init : SubmitWf .init ⟨[], []⟩ :=
  ⟨rfl, fun _ => Nat.zero_le _, fun _ => Nat.zero_le _, nofun, nofun, nofun, nofun⟩

/-- The table keeps its keys and ids, and the requests that come about are accounted for. -/
theorem congr (wf : SubmitWf s log) (hids : s'.identities = s.identities)
    (hpushes : ∀ k, s'.apis.countP (Api.pushes k) ≤ s.apis.countP (Api.pushes k))
    (hapis : ∀ x ∈ s'.apis, x ∈ s.apis ∨ (∀ req id, x ≠ .push (.submit req) id) ∧
      ∀ key, x = .lookup key → key.isSome = true ∧ ∃ job, (key, job) ∈ s.identities)
    (hresponses : ∀ res ∈ s'.responses, res ∈ s.responses ∨ ∀ key, res.request = .submit key →
      ∃ job, (key, job) ∈ s.identities ∧ res.Names job) : SubmitWf s' log where
  inserts := hids ▸ wf.inserts
  keys := hids ▸ wf.keys
  pushes k := by
    have h1 := wf.pushes k
    have h2 := hpushes k
    rw [hids]
    omega
  pushing key id hx := by
    rw [hids]
    rcases hapis _ hx with hx | ⟨hne, -⟩
    · exact wf.pushing key id hx
    · exact absurd rfl (hne key id)
  pushed := hids ▸ wf.pushed
  looking key hx := by
    rw [hids]
    rcases hapis _ hx with hx | ⟨-, hlook⟩
    · exact wf.looking key hx
    · exact hlook key rfl
  responses res hres key hreq := by
    rw [hids]
    rcases hresponses res hres with hres | hnew
    · exact wf.responses res hres key hreq
    · exact hnew key hreq

/-- A request goes on to a point that is no push of a submission. -/
theorem setApi (wf : SubmitWf s log) {x x' : Api} (hids : s'.identities = s.identities)
    (hx : x ∈ s.apis) (hapis : s'.apis = Bag.swap s.apis x x') (hresp : s'.responses = s.responses)
    (hpush : ∀ k, x'.pushes k = false) (hne : ∀ req id, x' ≠ .push (.submit req) id)
    (hlook : ∀ key, x' = .lookup key → key.isSome = true ∧ ∃ job, (key, job) ∈ s.identities) :
    SubmitWf s' log := by
  refine wf.congr hids (fun k => ?_) (fun y hy => ?_) fun res hres => .inl (hresp ▸ hres)
  · have := Bag.countP_swap (p := Api.pushes k) (b := x') hx
    rw [hapis]
    simp only [Bag.unit, hpush, Bool.false_eq_true, if_false] at this
    omega
  · rw [hapis] at hy
    rcases Bag.mem_of_mem_swap hy with rfl | hy
    · exact .inr ⟨hne, hlook⟩
    · exact .inl hy

/-- A request is answered; a submission with the id of its job. -/
theorem respond (wf : SubmitWf s log) {x : Api} {req : Request} {code : Nat} {body : Body}
    (hanswer : ∀ key, req = .submit key →
      ∃ job, (key, job) ∈ s.identities ∧ (⟨req, code, body⟩ : Response).Names job) :
    SubmitWf (s.respond x req code body) log := by
  refine wf.congr rfl (fun k => ?_) (fun y hy => .inl (List.mem_of_mem_erase hy)) fun res hres => ?_
  · exact List.Sublist.countP_le List.erase_sublist
  · rcases List.mem_cons.mp hres with rfl | hres
    · exact .inr hanswer
    · exact .inl hres

/-- `INSERT` makes the row. -/
theorem insert (wf : SubmitWf s log) {key : Option Text} {g : Uuid} (hx : .insert key ∈ s.apis)
    (hkey : s.keyRow key = none) (hids : s'.identities = s.identities ++ [(key, g)])
    (hapis : s'.apis = Bag.swap s.apis (.insert key) (.push (.submit key) (uuidOut g)))
    (hresp : s'.responses = s.responses) :
    SubmitWf s' { log with inserts := (key, g) :: log.inserts } := by
  have hcount (k : Text) : s'.identities.countP (·.1 = some k) =
      s.identities.countP (·.1 = some k) + if key = some k then 1 else 0 := by
    simp [hids, List.countP_append]
  have hzero (k : Text) (hk : key = some k) : s.identities.countP (·.1 = some k) = 0 := by
    subst hk
    refine Bag.countP_eq_zero_of_forall fun ⟨key, job⟩ hp => ?_
    simp only [decide_eq_false_iff_not]
    rintro rfl
    exact identity_ne_of_keyRow hkey rfl job hp
  have hmem {p : Option Text × Uuid} (hp : p ∈ s.identities) : p ∈ s'.identities :=
    hids ▸ List.mem_append_left _ hp
  refine ⟨?_, ?_, ?_, ?_, ?_, ?_, ?_⟩
  · rw [wf.inserts, hids, List.reverse_append]
    rfl
  · intro k
    rw [hcount]
    split
    · rename_i hk
      rw [hzero k hk]
    · exact wf.keys k
  · intro k
    have hswap := Bag.countP_swap (p := Api.pushes k) (b := .push (.submit key) (uuidOut g)) hx
    have hle := wf.pushes k
    simp only [Bag.unit, Api.pushes, decide_eq_true_eq, Bool.false_eq_true, if_false] at hswap
    rw [hcount, hapis]
    change _ + log.pushes.countP _ ≤ _
    omega
  · intro key' id hy
    rw [hapis] at hy
    rcases Bag.mem_of_mem_swap hy with heq | hy
    · cases heq
      exact ⟨g, hids ▸ List.mem_append_right _ List.mem_cons_self, rfl⟩
    · obtain ⟨job, hjob, hid⟩ := wf.pushing key' id hy
      exact ⟨job, hmem hjob, hid⟩
  · intro p hp
    obtain ⟨job, hjob, hid⟩ := wf.pushed p hp
    exact ⟨job, hmem hjob, hid⟩
  · intro key' hy
    rw [hapis] at hy
    rcases Bag.mem_of_mem_swap hy with heq | hy
    · cases heq
    · obtain ⟨hsome, job, hjob⟩ := wf.looking key' hy
      exact ⟨hsome, job, hmem hjob⟩
  · intro res hres key' hreq
    obtain ⟨job, hjob, hnames⟩ := wf.responses res (hresp ▸ hres) key' hreq
    exact ⟨job, hmem hjob, hnames⟩

/-- `LPUSH`, and the response. -/
theorem push (wf : SubmitWf s log) {key : Option Text} {id : Text}
    (hx : .push (.submit key) id ∈ s.apis) :
    SubmitWf ((s.withRedis (s.redis.lpush id)).respond (.push (.submit key) id) (.submit key) 202
      (.queued id)) { log with pushes := (key, id) :: log.pushes } := by
  obtain ⟨job, hjob, hid⟩ := wf.pushing key id hx
  have hanswered : SubmitWf ((s.withRedis (s.redis.lpush id)).respond (.push (.submit key) id)
      (.submit key) 202 (.queued id)) log := by
    have hpushed : SubmitWf (s.withRedis (s.redis.lpush id)) log :=
      wf.congr rfl (fun _ => Nat.le_refl _) (fun _ h => .inl h) fun _ h => .inl h
    refine hpushed.respond ?_
    rintro _ ⟨⟩
    exact ⟨job, hjob, .inl ⟨rfl, by rw [hid]⟩⟩
  refine { hanswered with
    pushes := fun k => ?_
    pushed := fun p hp => ?_ }
  · have herase := Bag.countP_erase_add (p := Api.pushes k) hx
    have hle := wf.pushes k
    simp only [Bag.unit, Api.pushes, decide_eq_true_eq] at herase
    simp only [State.respond_apis, State.withRedis_apis, List.countP_cons, decide_eq_true_eq]
    exact le_of_eq_of_le (by omega) hle
  · rcases List.mem_cons.mp hp with rfl | hp
    · exact ⟨job, hjob, hid⟩
    · exact wf.pushed p hp

/-- A command of the API. -/
theorem handle (wf : SubmitWf s log) {x : Api} {g : Uuid} (hx : x ∈ s.apis)
    (h : QueueFlow.handle s x g = some s') : SubmitWf s' (submissions s (.api x g) s' log) := by
  unfold QueueFlow.handle at h
  split at h
  case h_1 key =>
    split at h
    · split at h
      case h_1 r hkey =>
        cases h
        simp only [submissions, hkey, Option.isNone_some, Bool.false_eq_true, if_false, State.lpushed_same,
          State.setApi_redis, List.nil_append]
        obtain ⟨hsome, hmem⟩ := identity_of_keyRow hkey
        refine wf.setApi rfl hx rfl rfl (fun _ => rfl) ?_ ?_
        · rintro _ _ ⟨⟩
        rintro _ ⟨⟩
        exact ⟨hsome, r.id, hmem⟩
      case h_2 hkey =>
        cases h
        simp only [submissions, hkey, Option.isNone_none, if_true, State.lpushed_same, State.setApi_redis,
          State.withDb_redis, List.nil_append]
        refine wf.insert hx hkey ?_ rfl rfl
        simp [State.identities, Db.insertJob, JobRow.identity, JobRow.inserted]
    · cases h
  case h_2 key =>
    obtain ⟨hsome, job, hjob⟩ := wf.looking key hx
    split at h
    case h_1 hkey => exact absurd hjob (identity_ne_of_keyRow hkey hsome job)
    case h_2 r hkey =>
      cases h
      simp only [submissions, State.lpushed_same, State.respond_redis, List.nil_append]
      refine wf.respond ?_
      rintro _ ⟨⟩
      exact ⟨r.id, (identity_of_keyRow hkey).2, .inr ⟨rfl, r.status, rfl⟩⟩
  case h_3 id =>
    split at h
    case h_1 => cases h; exact wf.respond (by rintro _ ⟨⟩)
    case h_2 job hid =>
      split at h
      · cases h
      · split at h
        case h_1 =>
          cases h
          refine wf.setApi rfl hx rfl rfl (fun _ => rfl) ?_ ?_
          · rintro _ _ ⟨⟩
          · rintro _ ⟨⟩
        case h_2 r hrow =>
          cases h
          refine wf.setApi (identities_update fun _ => rfl) hx rfl rfl (fun _ => rfl) ?_ ?_
          · rintro _ _ ⟨⟩
          · rintro _ ⟨⟩
  case h_4 id =>
    split at h
    all_goals cases h; exact wf.respond (by rintro _ ⟨⟩)
  case h_5 req id =>
    cases h
    cases req with
    | submit key =>
        have hpushed : s.lpushed ((s.withRedis (s.redis.lpush id)).respond (.push (.submit key) id)
            (.submit key) 202 (.queued id)) key = [(key, id)] := State.lpushed_lpush rfl
        simp only [submissions, hpushed]
        exact wf.push hx
    | replay id' =>
        have hpushed : SubmitWf (s.withRedis (s.redis.lpush id)) log :=
          wf.congr rfl (fun _ => Nat.le_refl _) (fun _ h => .inl h) fun _ h => .inl h
        exact hpushed.respond (by rintro _ ⟨⟩)

/-- Every step keeps the submissions in order. -/
theorem step (wf : SubmitWf s log) (hstep : QueueFlow.step cfg s a = some s') :
    SubmitWf s' (submissions s a s' log) := by
  rcases apis_of_step hstep with ⟨hne, hapis, hresp⟩ | ⟨req, rfl, rfl⟩ | ⟨x, rfl, rfl⟩ |
    ⟨x, g, rfl, hx, h⟩
  · have hids : s'.identities = s.identities := (identities_of_step hstep).resolve_right
      fun ⟨key, g, ha⟩ => hne _ _ ha
    have hlog : submissions s a s' log = log := by
      cases a <;> first | rfl | exact absurd rfl (hne _ _)
    rw [hlog]
    exact wf.congr hids (fun k => by rw [hapis]) (fun x hx => .inl (hapis ▸ hx))
      fun res hres => .inl (hresp ▸ hres)
  · refine wf.congr rfl (fun k => ?_) (fun y hy => ?_) fun _ h => .inl h
    · cases req <;> simp [State.addApi, Request.start, Api.pushes]
    · rcases List.mem_cons.mp hy with rfl | hy
      · cases req <;> exact .inr ⟨nofun, nofun⟩
      · exact .inl hy
  · exact wf.congr rfl (fun k => List.Sublist.countP_le List.erase_sublist)
      (fun y hy => .inl (List.mem_of_mem_erase hy)) fun _ h => .inl h
  · exact wf.handle hx h

end SubmitWf

/-! ## Runs -/

/-- For every Idempotency-Key there is at most one row; it was inserted by exactly one request, its
id is pushed at most once, and every submission with the key is answered with this id, by 202 or
200 and never by 409. -/
theorem submission_idempotent (hrun : Observed (step cfg) always submissions .init ⟨[], []⟩ s log)
    (k : Text) :
    s.db.jobs.countP (fun r => r.idempotencyKey = some k) ≤ 1 ∧
    log.inserts.countP (fun p => p.1 = some k) =
      s.db.jobs.countP (fun r => r.idempotencyKey = some k) ∧
    log.pushes.countP (fun p => p.1 = some k) ≤ 1 ∧
    (∀ id, (some k, id) ∈ log.pushes → ∃ r ∈ s.db.jobs, r.idempotencyKey = some k ∧
      id = uuidOut r.id) ∧
    ∀ res ∈ s.responses, res.request = .submit (some k) →
      ∃ r ∈ s.db.jobs, r.idempotencyKey = some k ∧ res.Names r.id := by
  have wf : SubmitWf s log := hrun.invariant .init fun _ _ _ _ wf _ hstep => wf.step hstep
  have hcount : s.identities.countP (fun p => p.1 = some k) =
      s.db.jobs.countP (fun r => r.idempotencyKey = some k) := List.countP_map
  have hrow {job : Uuid} (hjob : (some k, job) ∈ s.identities) :
      ∃ r ∈ s.db.jobs, r.idempotencyKey = some k ∧ r.id = job := by
    obtain ⟨r, hr, heq⟩ := List.mem_map.mp hjob
    exact ⟨r, hr, (Prod.ext_iff.mp heq).1, (Prod.ext_iff.mp heq).2⟩
  refine ⟨hcount ▸ wf.keys k, ?_, ?_, ?_, ?_⟩
  · rw [wf.inserts, List.countP_reverse, hcount]
  · have h1 := wf.pushes k
    have h2 := wf.keys k
    omega
  · intro id hid
    obtain ⟨job, hjob, rfl⟩ := wf.pushed (some k, id) hid
    obtain ⟨r, hr, hkey, rfl⟩ := hrow hjob
    exact ⟨r, hr, hkey, rfl⟩
  · intro res hres hreq
    obtain ⟨job, hjob, hnames⟩ := wf.responses res hres (some k) hreq
    obtain ⟨r, hr, hkey, rfl⟩ := hrow hjob
    exact ⟨r, hr, hkey, hnames⟩

open Script in
/-- Two submissions with one key race. The loser is answered first, while the winner's row has no
entry in Redis yet. -/
theorem submission_idempotent_race : ∃ s log,
    Observed (step defaults) always submissions .init ⟨[], []⟩ s log ∧ s.responses.length = 2 ∧
      ∀ res ∈ s.responses, ∃ r ∈ s.db.jobs, res.Names r.id := by
  have hrun : ∃ s, Reaches defaults always s ∧ s.responses.length = 2 ∧
      ∀ res ∈ s.responses, res.request = .submit (some ['k']) :=
    exists_run_of_play
      [.act (.request (.submit (some ['k']))), .act (.request (.submit (some ['k']))), .api (job 1),
        .act (.api (.insert (some ['k'])) (job 2)), .api (job 2), .api (job 1)]
      (by decide +kernel)
  obtain ⟨s, hs, htwo, hkeys⟩ := hrun
  obtain ⟨log, hlog⟩ := hs.observed submissions ⟨[], []⟩
  refine ⟨s, log, hlog, htwo, fun res hres => ?_⟩
  obtain ⟨r, hr, -, hnames⟩ := (submission_idempotent hlog ['k']).2.2.2.2 res hres (hkeys res hres)
  exact ⟨r, hr, hnames⟩

end QueueFlow
