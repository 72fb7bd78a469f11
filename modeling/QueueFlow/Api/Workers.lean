-- SUMMARY: GET /workers of api/index.ts while the rest of the system goes on: two scans of the keys, then a TTL and a list for every id found.
import QueueFlow.Keys.Served
import QueueFlow.Lib.Json

/-!
# The list of workers

The handler of `GET /workers` scans the keys for heartbeats, then for processing lists, and then asks for the
TTL and for the list of every worker that it found. All the while the system goes on, so that the answer is no
snapshot: each row is true of moments of the request, which an observer writes down, and a worker that is there
throughout has a row.
-/

namespace QueueFlow

open Transition Keyspace

structure WorkerRow where
  id : WorkerId
  alive : Bool
  expiresInSeconds : Option Nat
  holding : Nat
  jobs : List Text
  deriving DecidableEq, Repr

/-- What is known of a worker. -/
inductive Asked where
  | nothing
  /-- The reply to `TTL`: the seconds that are left, rounded, or -2 where there is no key. -/
  | ttl (ttl : Int)
  | row (row : WorkerRow)
  deriving DecidableEq, Repr

/-- Where the handler is. -/
inductive Listing where
  /-- `scanKeys(redis, KEYS.alivePattern)`: the keys still to visit and those found. -/
  | scanAlive (todo found : List Text)
  /-- `scanKeys(redis, KEYS.processingPattern)`. -/
  | scanProcessing (ids : List WorkerId) (todo found : List Text)
  /-- `Promise.all` -/
  | asking (entries : List (WorkerId × Asked))
  | answered (workers : List WorkerRow)
  deriving DecidableEq, Repr

inductive Look where
  /-- The rest of the system takes a step, or time passes. -/
  | other (a : Act)
  /-- The `SCAN` comes to a key. -/
  | visit (key : Text)
  /-- The `SCAN` is complete, or every worker has been asked. -/
  | next
  /-- `TTL`, where so many seconds are left if the key exists. -/
  | ttl (id : WorkerId) (seconds : Nat)
  | lrange (id : WorkerId)
  deriving DecidableEq

/-- The order of `sort()`, which compares code units. -/
def unitsLe (x y : Text) : Prop := x.flatMap Bytes.units ≤ y.flatMap Bytes.units

instance : DecidableRel unitsLe := fun x y =>
  inferInstanceAs (Decidable (x.flatMap Bytes.units ≤ y.flatMap Bytes.units))

/-- The keys that exist and match, when a `SCAN` starts. -/
def Redis.matching (r : Redis) (pattern : Text) : List Text := r.keys.filter fun key => Glob.test pattern key

/-- A `SCAN` comes to a key: it reports every key that it finds there and that matches. A key that was there
when it started is come to; others may be, and any may be come to again. -/
def scanVisit (r : Redis) (pattern key : Text) (todo found : List Text) : Option (List Text × List Text) :=
  if key ∈ r.keys ∧ Glob.test pattern key = true then some (todo.erase key, found ++ [key])
  else if key ∈ todo then some (todo.erase key, found)
  else none

/-- `[...ids].sort()`. -/
def sortIds (ids : List WorkerId) : List WorkerId := ids.dedup.insertionSort unitsLe

/-- The answer about one worker. -/
def workerRow (id : WorkerId) (ttl : Int) (holding : List Text) : WorkerRow where
  id := id
  alive := ttl > 0
  expiresInSeconds := if ttl > 0 then some ttl.toNat else none
  holding := holding.length
  jobs := holding

def setAsked (entries : List (WorkerId × Asked)) (id : WorkerId) (asked : Asked) : List (WorkerId × Asked) :=
  entries.map fun e => if e.1 = id then (id, asked) else e

def Asked.row? : Asked → Option WorkerRow
  | .row r => some r
  | _ => none

@[simp] theorem Asked.row?_row (r : WorkerRow) : (Asked.row r).row? = some r := rfl

namespace Listing

variable (cfg : Config)

/-- A request arrives, and the first `SCAN` starts. -/
def start (s : State) : Listing := .scanAlive (s.redis.matching KEYS.alivePattern) []

/-- One step of the handler. -/
def run (s : State) (l : Listing) (look : Look) : Option Listing :=
  match l, look with
  | .scanAlive todo found, .visit key =>
      (scanVisit s.redis KEYS.alivePattern key todo found).map fun (t, f) => .scanAlive t f
  | .scanAlive todo found, .next =>
      if todo = [] then
        some (.scanProcessing (found.filterMap workerIdFromAliveKey) (s.redis.matching KEYS.processingPattern) [])
      else none
  | .scanProcessing ids todo found, .visit key =>
      (scanVisit s.redis KEYS.processingPattern key todo found).map fun (t, f) => .scanProcessing ids t f
  | .scanProcessing ids todo found, .next =>
      if todo = [] then
        some (.asking ((sortIds (ids ++ found.filterMap workerIdFromProcessingKey)).map fun id => (id, .nothing)))
      else none
  | .asking entries, .ttl id seconds =>
      if (id, .nothing) ∈ entries then
        some (.asking (setAsked entries id (.ttl (if id ∈ s.redis.alive then seconds else -2))))
      else none
  | .asking entries, .lrange id =>
      (entries.find? fun e => e.1 = id).bind fun e =>
        match e.2 with
        | .ttl ttl => some (.asking (setAsked entries id (.row (workerRow id ttl (s.redis.lrange id)))))
        | _ => none
  | .asking entries, .next =>
      if entries.all fun e => e.2.row?.isSome then some (.answered (entries.filterMap fun e => e.2.row?)) else none
  | _, _ => none

def step (q : State × Listing) (look : Look) : Option (State × Listing) :=
  match look with
  | .other a => (QueueFlow.step cfg q.1 a).map fun t => (t, q.2)
  | look => (run q.1 q.2 look).map fun l => (q.1, l)

variable {cfg} {s t : State} {l l' : Listing} {r : Redis} {w : WorkerId} {key pattern : Text} {todo found : List Text}
  {look : Look} {q q' : State × Listing}

/-! ## What a step of the handler can do -/

/-- One step of the handler. -/
inductive Move (s : State) : Listing → Listing → Prop where
  | visitsAlive (key : Text) (todo found t f : List Text)
      (h : scanVisit s.redis KEYS.alivePattern key todo found = some (t, f)) :
      Move s (.scanAlive todo found) (.scanAlive t f)
  | scansProcessing (found : List Text) :
      Move s (.scanAlive [] found) (.scanProcessing (found.filterMap workerIdFromAliveKey)
        (s.redis.matching KEYS.processingPattern) [])
  | visitsProcessing (ids : List WorkerId) (key : Text) (todo found t f : List Text)
      (h : scanVisit s.redis KEYS.processingPattern key todo found = some (t, f)) :
      Move s (.scanProcessing ids todo found) (.scanProcessing ids t f)
  | asks (ids : List WorkerId) (found : List Text) :
      Move s (.scanProcessing ids [] found)
        (.asking ((sortIds (ids ++ found.filterMap workerIdFromProcessingKey)).map fun id => (id, .nothing)))
  | ttl (entries : List (WorkerId × Asked)) (id : WorkerId) (seconds : Nat) (h : (id, .nothing) ∈ entries) :
      Move s (.asking entries) (.asking (setAsked entries id (.ttl (if id ∈ s.redis.alive then seconds else -2))))
  | lrange (entries : List (WorkerId × Asked)) (id : WorkerId) (ttl : Int) (h : (id, .ttl ttl) ∈ entries) :
      Move s (.asking entries) (.asking (setAsked entries id (.row (workerRow id ttl (s.redis.lrange id)))))
  | answers (entries : List (WorkerId × Asked)) (h : ∀ e ∈ entries, e.2.row?.isSome = true) :
      Move s (.asking entries) (.answered (entries.filterMap fun e => e.2.row?))

theorem run_cases (h : run s l look = some l') : Move s l l' := by
  unfold run at h
  split at h
  case h_1 todo found key =>
    obtain ⟨⟨t, f⟩, hvisit, rfl⟩ := Option.map_eq_some_iff.mp h
    exact .visitsAlive key todo found t f hvisit
  case h_2 todo found =>
    obtain ⟨rfl, h⟩ := Option.ite_none_right_eq_some.mp h
    cases h
    exact .scansProcessing found
  case h_3 ids todo found key =>
    obtain ⟨⟨t, f⟩, hvisit, rfl⟩ := Option.map_eq_some_iff.mp h
    exact .visitsProcessing ids key todo found t f hvisit
  case h_4 ids todo found =>
    obtain ⟨rfl, h⟩ := Option.ite_none_right_eq_some.mp h
    cases h
    exact .asks ids found
  case h_5 entries id seconds =>
    obtain ⟨hmem, h⟩ := Option.ite_none_right_eq_some.mp h
    cases h
    exact .ttl entries id seconds hmem
  case h_6 entries id =>
    obtain ⟨⟨id', asked⟩, hfind, h⟩ := Option.bind_eq_some_iff.mp h
    obtain rfl : id' = id := by simpa using List.find?_some hfind
    cases asked with
    | ttl ttl =>
        cases h
        exact .lrange entries id' ttl (List.mem_of_find?_eq_some hfind)
    | nothing | row => cases h
  case h_7 entries =>
    obtain ⟨hall, h⟩ := Option.ite_none_right_eq_some.mp h
    cases h
    exact .answers entries (List.all_eq_true.mp hall)
  case h_8 => cases h

/-- The handler takes a step, or the rest of the system does. -/
theorem step_cases (h : step cfg q look = some q') : (∃ a, look = .other a ∧ q'.2 = q.2) ∨
    q'.1 = q.1 ∧ Move q.1 q.2 q'.2 := by
  unfold step at h
  split at h
  case h_1 a =>
    obtain ⟨t, -, rfl⟩ := Option.map_eq_some_iff.mp h
    exact .inl ⟨a, rfl, rfl⟩
  case h_2 =>
    obtain ⟨l, hrun, rfl⟩ := Option.map_eq_some_iff.mp h
    exact .inr ⟨rfl, run_cases hrun⟩

theorem scanVisit_of_mem {t f : List Text} (h : scanVisit r pattern key todo found = some (t, f)) {k : Text}
    (hk : k ∈ r.keys) (hmatch : Glob.test pattern k = true) (hmem : k ∈ todo ∨ k ∈ found) : k ∈ t ∨ k ∈ f := by
  unfold scanVisit at h
  split at h
  · cases h
    by_cases heq : k = key
    · exact .inr (by simp [heq])
    · rcases hmem with hmem | hmem
      · exact .inl ((List.mem_erase_of_ne heq).mpr hmem)
      · exact .inr (List.mem_append_left _ hmem)
  · rename_i hnot
    obtain ⟨-, h⟩ := Option.ite_none_right_eq_some.mp h
    cases h
    have hne : k ≠ key := fun heq => hnot (heq ▸ ⟨hk, hmatch⟩)
    exact hmem.imp_left (List.mem_erase_of_ne hne).mpr

theorem mem_scanVisit {t f : List Text} (h : scanVisit r pattern key todo found = some (t, f)) {k : Text}
    (hk : k ∈ f) : k ∈ found ∨ k ∈ r.keys ∧ Glob.test pattern k = true := by
  unfold scanVisit at h
  split at h
  · rename_i hhere
    cases h
    rcases List.mem_append.mp hk with hk | hk
    · exact .inl hk
    · obtain rfl := List.mem_singleton.mp hk
      exact .inr hhere
  · obtain ⟨-, h⟩ := Option.ite_none_right_eq_some.mp h
    cases h
    exact .inl hk

theorem setAsked_fst (entries : List (WorkerId × Asked)) (id : WorkerId) (asked : Asked) :
    (setAsked entries id asked).map (·.1) = entries.map (·.1) := by
  rw [setAsked, List.map_map]
  refine List.map_congr_left fun e _ => ?_
  by_cases he : e.1 = id <;> simp [he]

theorem mem_setAsked {entries : List (WorkerId × Asked)} {id : WorkerId} {asked : Asked} {e : WorkerId × Asked}
    (he : e ∈ setAsked entries id asked) : e = (id, asked) ∨ e ∈ entries := by
  obtain ⟨e', he', rfl⟩ := List.mem_map.mp he
  split
  · exact .inl rfl
  · exact .inr he'

theorem sortIds_sorted (ids : List WorkerId) : (sortIds ids).Nodup ∧ (sortIds ids).Pairwise unitsLe := by
  have htotal : Std.Total unitsLe := ⟨fun x y => Std.Total.total (x.flatMap Bytes.units) (y.flatMap Bytes.units)⟩
  have htrans : IsTrans Text unitsLe := ⟨fun _ _ _ => le_trans⟩
  exact ⟨(List.perm_insertionSort _ _).nodup_iff.mpr (List.nodup_dedup ids), List.pairwise_insertionSort _ _⟩

theorem mem_sortIds {ids : List WorkerId} : w ∈ sortIds ids ↔ w ∈ ids := by
  rw [sortIds, List.mem_insertionSort, List.mem_dedup]

/-- The answer has the rows of the entries, in the same order. -/
theorem answered_ids {entries : List (WorkerId × Asked)} (hall : ∀ e ∈ entries, e.2.row?.isSome = true)
    (hids : ∀ e ∈ entries, ∀ row, e.2 = .row row → row.id = e.1) :
    (entries.filterMap fun e => e.2.row?).map (·.id) = entries.map (·.1) := by
  induction entries with
  | nil => rfl
  | cons e entries ih =>
      have ih := ih (fun e' he' => hall e' (List.mem_cons_of_mem e he')) fun e' he' =>
        hids e' (List.mem_cons_of_mem e he')
      have he := hall e List.mem_cons_self
      obtain ⟨id, asked⟩ := e
      cases asked with
      | nothing | ttl => cases he
      | row row =>
          simp only [List.filterMap_cons, Asked.row?_row, List.map_cons]
          rw [ih, hids (id, .row row) List.mem_cons_self row rfl]

/-! ## Each row is true of a moment -/

/-- The worker has a heartbeat or holds something. -/
def Present (id : WorkerId) (s : State) : Prop := id ∈ s.redis.alive ∨ s.redis.lrange id ≠ []

/-- What a row says was so at moments of which `once` tells. -/
structure RowSound (once : (State → Prop) → Prop) (row : WorkerRow) : Prop where
  present : once (Present row.id)
  jobs : once fun s => s.redis.lrange row.id = row.jobs
  holding : row.holding = row.jobs.length
  alive : row.alive = true → once fun s => row.id ∈ s.redis.alive
  expires : row.expiresInSeconds.isSome = row.alive

def AskedSound (once : (State → Prop) → Prop) (id : WorkerId) : Asked → Prop
  | .nothing => True
  | .ttl ttl => 0 < ttl → once fun s => id ∈ s.redis.alive
  | .row row => row.id = id ∧ RowSound once row

def Sound (once : (State → Prop) → Prop) : Listing → Prop
  | .scanAlive _ found => ∀ key ∈ found, once fun s => key ∈ s.redis.keys
  | .scanProcessing ids _ found =>
      (∀ id ∈ ids, once (Present id)) ∧ ∀ key ∈ found, once fun s => key ∈ s.redis.keys
  | .asking entries => (entries.map (·.1)).Nodup ∧ (entries.map (·.1)).Pairwise unitsLe ∧
      ∀ e ∈ entries, once (Present e.1) ∧ AskedSound once e.1 e.2
  | .answered workers => (workers.map (·.id)).Nodup ∧ (workers.map (·.id)).Pairwise unitsLe ∧
      ∀ row ∈ workers, RowSound once row

variable {once once' : (State → Prop) → Prop}

theorem RowSound.mono (h : ∀ P, once P → once' P) {row : WorkerRow} (sound : RowSound once row) :
    RowSound once' row where
  present := h _ sound.present
  jobs := h _ sound.jobs
  holding := sound.holding
  alive halive := h _ (sound.alive halive)
  expires := sound.expires

theorem AskedSound.mono (h : ∀ P, once P → once' P) {id : WorkerId} {asked : Asked}
    (sound : AskedSound once id asked) : AskedSound once' id asked := by
  cases asked with
  | nothing => trivial
  | ttl ttl => exact fun hpos => h _ (sound hpos)
  | row row => exact ⟨sound.1, sound.2.mono h⟩

theorem Sound.mono (h : ∀ P, once P → once' P) (sound : Sound once l) : Sound once' l := by
  cases l with
  | scanAlive todo found => exact fun key hkey => h _ (sound key hkey)
  | scanProcessing ids todo found =>
      exact ⟨fun id hid => h _ (sound.1 id hid), fun key hkey => h _ (sound.2 key hkey)⟩
  | asking entries =>
      exact ⟨sound.1, sound.2.1, fun e he => ⟨h _ (sound.2.2 e he).1, (sound.2.2 e he).2.mono h⟩⟩
  | answered workers => exact ⟨sound.1, sound.2.1, fun row hrow => (sound.2.2 row hrow).mono h⟩

/-- Every row is filed under its own id. -/
private theorem Sound.row_id {entries : List (WorkerId × Asked)} (sound : Sound once (.asking entries)) :
    ∀ e ∈ entries, ∀ row, e.2 = .row row → row.id = e.1 := by
  intro e he row hrow
  have hasked := (sound.2.2 e he).2
  rw [hrow] at hasked
  exact hasked.1

/-- An entry is changed, and the new one is sound. -/
private theorem Sound.setAsked {entries : List (WorkerId × Asked)} (sound : Sound once (.asking entries))
    {id : WorkerId} {old asked : Asked} (hmem : (id, old) ∈ entries) (hasked : AskedSound once id asked) :
    Sound once (.asking (setAsked entries id asked)) := by
  refine ⟨by rw [setAsked_fst]; exact sound.1, by rw [setAsked_fst]; exact sound.2.1, fun e he => ?_⟩
  rcases mem_setAsked he with rfl | he
  · exact ⟨(sound.2.2 _ hmem).1, hasked⟩
  · exact sound.2.2 e he

theorem Sound.move (hnow : ∀ P : State → Prop, P s → once P)
    (himp : ∀ P Q : State → Prop, (∀ u, P u → Q u) → once P → once Q) (sound : Sound once l) (h : Move s l l') :
    Sound once l' := by
  cases h with
  | visitsAlive key todo found t f hvisit =>
      intro k hk
      rcases mem_scanVisit hvisit hk with hk | ⟨hk, -⟩
      · exact sound k hk
      · exact hnow _ hk
  | scansProcessing found =>
      refine ⟨fun id hid => ?_, by rintro _ ⟨⟩⟩
      obtain ⟨key, hkey, hid⟩ := List.mem_filterMap.mp hid
      obtain ⟨rfl, -⟩ := workerIdFromAliveKey_eq_some.mp hid
      exact himp _ _ (fun u hu => .inl (alive_mem_keys.mp hu)) (sound _ hkey)
  | visitsProcessing ids key todo found t f hvisit =>
      refine ⟨sound.1, fun k hk => ?_⟩
      rcases mem_scanVisit hvisit hk with hk | ⟨hk, -⟩
      · exact sound.2 k hk
      · exact hnow _ hk
  | asks ids found =>
      have hfst : ((sortIds (ids ++ found.filterMap workerIdFromProcessingKey)).map
          fun id => (id, Asked.nothing)).map (·.1) = sortIds (ids ++ found.filterMap workerIdFromProcessingKey) := by
        rw [List.map_map]
        exact List.map_id _
      refine ⟨by rw [hfst]; exact (sortIds_sorted _).1, by rw [hfst]; exact (sortIds_sorted _).2, fun e he => ?_⟩
      obtain ⟨id, hid, rfl⟩ := List.mem_map.mp he
      refine ⟨?_, trivial⟩
      rcases List.mem_append.mp (mem_sortIds.mp hid) with hid | hid
      · exact sound.1 id hid
      · obtain ⟨key, hkey, hid⟩ := List.mem_filterMap.mp hid
        obtain ⟨rfl, -⟩ := workerIdFromProcessingKey_eq_some.mp hid
        exact himp _ _ (fun u hu => .inr (processing_mem_keys.mp hu)) (sound.2 _ hkey)
  | ttl entries id seconds hmem =>
      refine sound.setAsked hmem fun hpos => ?_
      by_cases halive : id ∈ s.redis.alive
      · exact hnow _ halive
      · rw [if_neg halive] at hpos
        exact absurd hpos (by decide)
  | lrange entries id ttl hmem =>
      obtain ⟨hpresent, hasked⟩ := sound.2.2 _ hmem
      refine sound.setAsked hmem ⟨rfl, hpresent, hnow _ rfl, rfl, fun halive => hasked (of_decide_eq_true halive), ?_⟩
      simp only [workerRow]
      split <;> simp_all
  | answers entries hall =>
      have hids := answered_ids hall sound.row_id
      refine ⟨by rw [hids]; exact sound.1, by rw [hids]; exact sound.2.1, fun row hrow => ?_⟩
      obtain ⟨⟨id, asked⟩, he, hrow⟩ := List.mem_filterMap.mp hrow
      have hasked := (sound.2.2 _ he).2
      cases asked with
      | nothing | ttl => cases hrow
      | row row' =>
          cases hrow
          exact hasked.2

/-- In a state of the log the system had the property. -/
def Once (log : List State) (P : State → Prop) : Prop := ∃ u ∈ log, P u

variable {log : List State}

theorem Once.cons {P : State → Prop} (u : State) (h : Once log P) : Once (u :: log) P := by
  obtain ⟨v, hv, hP⟩ := h
  exact ⟨v, List.mem_cons_of_mem u hv, hP⟩

/-- The state of now is in the log, and what the handler has is true of moments in it. -/
theorem sound_of_observed (h : Observed (step cfg) always (logging Prod.fst) (s, start s) [s] q log) :
    q.1 ∈ log ∧ Sound (Once log) q.2 := by
  refine Observed.invariant (P := fun q log => q.1 ∈ log ∧ Sound (Once log) q.2) h
    ⟨List.mem_singleton_self s, by rintro _ ⟨⟩⟩ ?_
  rintro q log look q' ⟨hnow, ih⟩ - hstep
  refine ⟨List.mem_cons_self, Sound.mono (fun _ => Once.cons q'.1) ?_⟩
  rcases step_cases hstep with ⟨a, -, heq⟩ | ⟨-, hmove⟩
  · rw [heq]
    exact ih
  · refine ih.move (fun P hP => ⟨q.1, hnow, hP⟩) (fun P Q hPQ => ?_) hmove
    rintro ⟨u, hu, hP⟩
    exact ⟨u, hu, hPQ u hP⟩

/-- The answer lists every worker once, in the order of `sort()`, and each row is true of states that the system
was in during this request: its worker was there in one of them, held those jobs in one of them, and had a
heartbeat in one of them if it is said to be alive. -/
theorem rows_sound {workers : List WorkerRow}
    (h : Observed (step cfg) always (logging Prod.fst) (s, start s) [s] (t, .answered workers) log) :
    (workers.map (·.id)).Nodup ∧ (workers.map (·.id)).Pairwise unitsLe ∧
      ∀ row ∈ workers, RowSound (Once log) row :=
  (sound_of_observed h).2

/-! ## Whoever is there throughout has a row -/

/-- The heartbeat has been found, or the scan will come to it. -/
def CoversAlive (w : WorkerId) : Listing → Prop
  | .scanAlive todo found => KEYS.alive w ∈ todo ∨ KEYS.alive w ∈ found
  | .scanProcessing ids _ _ => w ∈ ids
  | .asking entries => w ∈ entries.map (·.1)
  | .answered workers => w ∈ workers.map (·.id)

/-- The processing list has been found, or the scan will come to it. -/
def CoversProcessing (w : WorkerId) : Listing → Prop
  | .scanAlive _ _ => True
  | .scanProcessing _ todo found => KEYS.processing w ∈ todo ∨ KEYS.processing w ∈ found
  | .asking entries => w ∈ entries.map (·.1)
  | .answered workers => w ∈ workers.map (·.id)

private theorem asks_fst {ids : List WorkerId} (hw : w ∈ ids) :
    w ∈ ((sortIds ids).map fun id => (id, Asked.nothing)).map (·.1) := by
  rw [List.map_map]
  exact List.mem_map.mpr ⟨w, mem_sortIds.mpr hw, rfl⟩

theorem CoversAlive.move (hid : workerIdFromAliveKey (KEYS.alive w) = some w) (halive : w ∈ s.redis.alive)
    (sound : Sound once l) (covers : CoversAlive w l) (h : Move s l l') : CoversAlive w l' := by
  cases h with
  | visitsAlive key todo found t f hvisit =>
      exact scanVisit_of_mem hvisit (alive_mem_keys.mpr halive) (test_alivePattern.mpr ⟨w, rfl⟩) covers
  | scansProcessing found =>
      exact List.mem_filterMap.mpr ⟨_, covers.resolve_left (by rintro ⟨⟩), hid⟩
  | visitsProcessing => exact covers
  | asks ids found => exact asks_fst (List.mem_append_left _ covers)
  | ttl | lrange =>
      simp only [CoversAlive, setAsked_fst]
      exact covers
  | answers entries hall =>
      simp only [CoversAlive, answered_ids hall sound.row_id]
      exact covers

theorem CoversProcessing.move (hw : w ≠ []) (hlist : s.redis.lrange w ≠ []) (sound : Sound once l)
    (covers : CoversProcessing w l) (h : Move s l l') : CoversProcessing w l' := by
  have hkey : KEYS.processing w ∈ s.redis.keys := processing_mem_keys.mpr hlist
  have hmatch : Glob.test KEYS.processingPattern (KEYS.processing w) = true := test_processingPattern.mpr ⟨w, rfl⟩
  cases h with
  | visitsAlive => trivial
  | scansProcessing found => exact .inl (List.mem_filter.mpr ⟨hkey, hmatch⟩)
  | visitsProcessing ids key todo found t f hvisit => exact scanVisit_of_mem hvisit hkey hmatch covers
  | asks ids found =>
      exact asks_fst (List.mem_append_right _ (List.mem_filterMap.mpr
        ⟨_, covers.resolve_left (by rintro ⟨⟩), workerIdFromProcessingKey_eq_some.mpr ⟨rfl, hw⟩⟩))
  | ttl | lrange =>
      simp only [CoversProcessing, setAsked_fst]
      exact covers
  | answers entries hall =>
      simp only [CoversProcessing, answered_ids hall sound.row_id]
      exact covers

/-- What the state has at every step of a request, and every step of the handler preserves. -/
private theorem covers_of_run {P : State → Prop} {C : Listing → Prop} (hstart : P s → C (start s))
    (hmove : ∀ {once u l l'}, P u → Sound once l → C l → Move u l l' → C l') {workers : List WorkerRow}
    (h : Run (step cfg) (fun q _ => P q.1) (s, start s) (t, .answered workers)) : C (.answered workers) := by
  have hs : C (start s) := by
    rcases h.head_cases with heq | ⟨-, -, hP, -⟩
    · cases congrArg Prod.snd heq
    · exact hstart hP
  have hcovers : ∀ q, Run (step cfg) (fun q _ => P q.1) (s, start s) q → C q.2 := by
    intro q hrun
    induction hrun with
    | refl => exact hs
    | @tail q q' look hrun hP hstep ih =>
        rcases step_cases hstep with ⟨a, -, heq⟩ | ⟨-, hmove'⟩
        · rw [heq]
          exact ih
        · have hrun' : Run (step cfg) always (s, start s) q := hrun.mono fun _ _ _ => trivial
          obtain ⟨log, hobs⟩ := hrun'.observed (logging Prod.fst) [s]
          exact hmove hP (sound_of_observed hobs).2 ih hmove'
  exact hcovers _ h

/-- A worker whose heartbeat is there throughout the request has a row, if its id has no line break, and so has
a worker that holds something throughout. -/
theorem row_of_throughout {workers : List WorkerRow} (hw : w ≠ [])
    (h : (∀ c ∈ w, isLineTerminator c = false) ∧
        Run (step cfg) (fun q _ => w ∈ q.1.redis.alive) (s, start s) (t, .answered workers) ∨
      Run (step cfg) (fun q _ => q.1.redis.lrange w ≠ []) (s, start s) (t, .answered workers)) :
    ∃ row ∈ workers, row.id = w := by
  refine List.mem_map.mp ?_
  rcases h with ⟨hdot, h⟩ | h
  · refine covers_of_run (P := fun u => w ∈ u.redis.alive) (C := CoversAlive w) (fun halive => ?_)
      (fun halive sound covers hmove => ?_) h
    · exact .inl (List.mem_filter.mpr ⟨alive_mem_keys.mpr halive, test_alivePattern.mpr ⟨w, rfl⟩⟩)
    · exact covers.move (workerIdFromAliveKey_eq_some.mpr ⟨rfl, hw, hdot⟩) halive sound hmove
  · exact covers_of_run (P := fun u => u.redis.lrange w ≠ []) (C := CoversProcessing w) (fun _ => trivial)
      (fun hlist sound covers hmove => covers.move hw hlist sound hmove) h

/-! ## Concrete requests -/

/-- A cue for the rest of the system, or a step of the handler. -/
private def resolveLook (q : State × Listing) (c : Cue ⊕ Look) : Option Look :=
  c.elim (fun cue => (resolve q.1 cue).map .other) some

/-- A worker takes a job while the handler is between its scans, and its heartbeat ends before it is asked for. -/
private def visits : List (Cue ⊕ Look) :=
  (Script.start ['b'] ++ Script.submit (Script.job 1)).map .inl ++ [.inr (.visit (KEYS.alive ['b'])), .inr .next] ++
    (Script.takes ['b'] 1).map .inl ++ [.inr (.visit (KEYS.processing ['b'])), .inr .next] ++
      [.inl (.act (.expire ['b'])), .inr (.ttl ['b'] 9), .inr (.lrange ['b']), .inr .next]

theorem rows_sound_expired : ∃ t workers log,
    Observed (step Script.defaults) always (logging Prod.fst) (State.init, start .init) [State.init]
      (t, .answered workers) log ∧
      workers = [⟨['b'], false, none, 1, [uuidOut (Script.job 1)]⟩] ∧ ∀ row ∈ workers, RowSound (Once log) row := by
  have hplay : ∃ q, Run (step Script.defaults) (fun _ _ => True) (State.init, start .init) q ∧
      q.2 = .answered [⟨['b'], false, none, 1, [uuidOut (Script.job 1)]⟩] :=
    exists_run_of_perform (f := resolveLook) visits (by decide +kernel)
  obtain ⟨⟨t, l⟩, hrun, hl⟩ := hplay
  obtain rfl : l = .answered _ := hl
  obtain ⟨log, hobs⟩ := hrun.observed (logging Prod.fst) [State.init]
  exact ⟨t, _, log, hobs, rfl, (rows_sound hobs).2.2⟩

/-- A worker is gone, and its list holds a job. -/
private def dead : State :=
  State.init.withRedis { Redis.empty with processing := [(['b'], uuidOut (Script.job 1))] }

/-- A dead worker holds a job, and a scheduler begins to look for it. -/
theorem row_of_throughout_dead : ∃ s t workers,
    Run (step Script.defaults) (fun q _ => q.1.redis.lrange ['b'] ≠ []) (s, start s) (t, .answered workers) ∧
      ∃ row ∈ workers, row.id = ['b'] := by
  have hplay : ∃ q, Run (step Script.defaults) (fun q _ => q.1.redis.lrange ['b'] ≠ []) (dead, start dead) q ∧
      q.2 = .answered [⟨['b'], false, none, 1, [uuidOut (Script.job 1)]⟩] :=
    exists_run_of_perform (f := resolveLook)
      ([.inr .next, .inl (.act .startSched), .inl (.sched .recover), .inr (.visit (KEYS.processing ['b']))] ++
        [.inl (.sched (.visit ['b'])), .inr .next, .inr (.ttl ['b'] 9), .inr (.lrange ['b']), .inr .next])
      (by decide +kernel)
  obtain ⟨⟨t, l⟩, hrun, hl⟩ := hplay
  obtain rfl : l = .answered _ := hl
  exact ⟨_, t, _, hrun, row_of_throughout (by decide) (.inr hrun)⟩

end Listing

end QueueFlow
