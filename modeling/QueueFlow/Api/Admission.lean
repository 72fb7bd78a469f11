-- SUMMARY: The writing routes with their checks next to the rest of the system: what a handler runs was accepted from somebody who may write.
import QueueFlow.Api.Auth
import QueueFlow.Payload.Targets
import QueueFlow.Rows.Holdings
import QueueFlow.Script
import QueueFlow.Worker.Handlers

/-!
# Admission

`POST /jobs` and the replay route write only for somebody who may write, and a job is inserted only with a type and a
payload that pass the check. The system lets submissions and replays arrive as they like. Here they arrive as HTTP
requests, and the columns `type` and `payload`, which no later statement sets, are kept for each row: whatever is
claimed, retried, recovered or replayed afterwards, a handler reads what was accepted at the door.
-/

namespace QueueFlow

open Transition

/-- The environment of the API processes, with what their checks call. -/
structure Router where
  env : Env
  /-- `ALLOW_PRIVATE_WEBHOOK_TARGETS`. -/
  allowPrivate : Option Text
  crypto : Crypto
  rt : Runtime
  /-- `new URL(text)`, unless it throws. -/
  newURL : Text → Option Url

/-- Who asks, and when. -/
structure Caller where
  /-- What the process that serves the request drew at startup. -/
  randomBytes : Digest
  now : Now
  headers : HttpRequest

def Router.requireWrite (ro : Router) (x : Caller) : Access :=
  (⟨ro.env, x.randomBytes⟩ : ApiProcess).requireWrite ro.crypto ro.rt x.now x.headers

/-- A request to `POST /jobs`. -/
structure Submission where
  caller : Caller
  idempotencyKey : Option Text
  body : Value

/-- The answer of `POST /jobs` to a request that comes to no INSERT. -/
inductive Refusal where
  /-- 401. -/
  | unauthorized (message : Text)
  /-- 500. -/
  | internal
  /-- 400, `unknown job type`. -/
  | unknownType (type : Option Value)
  /-- 400. -/
  | invalid (message : Text)

/-- A submission whose handler is at its INSERT. -/
structure Admitted where
  submission : Submission
  type : JobType
  payload : Value

/-- `POST /jobs` up to its INSERT. -/
def Router.post (ro : Router) (x : Submission) : Except Refusal Admitted :=
  match ro.requireWrite x.caller with
  | .unauthorized message => .error (.unauthorized message)
  | .throws => .error .internal
  | .next =>
      match isJobType (x.body.field? "type".toList) with
      | none => .error (.unknownType (x.body.field? "type".toList))
      | some type =>
          match validatePayload ro.allowPrivate ro.newURL type (x.body.field? "payload".toList) with
          | some message => .error (.invalid message)
          | none => .ok ⟨x, type, (x.body.field? "payload".toList).getD .null⟩

structure Front where
  /-- The submissions that are at their INSERT. -/
  waiting : List Admitted
  /-- The columns `type` and `payload` of each row, with the request that made it. -/
  rows : Uuid → Option Admitted
  /-- History: the submissions that came to their INSERT. -/
  admitted : List Submission
  /-- History: the others, with their answers. -/
  refused : List (Submission × Refusal)

inductive FrontAct where
  | post (x : Submission)
  | replay (x : Caller) (id : Text)
  /-- The INSERT of a submission. -/
  | insert (i : Nat) (generated : Uuid)
  /-- The API process of a submission crashes before its INSERT, or the INSERT fails. -/
  | crash (i : Nat)
  /-- Anything else. -/
  | other (a : Act)

/-- The steps that belong to the routes before their first statement. -/
def Act.isFront : Act → Bool
  | .request _ | .api (.insert _) _ | .apiCrash (.insert _) => true
  | _ => false

namespace Front

def start : Front := ⟨[], fun _ => none, [], []⟩

def accept (f : Front) (y : Admitted) : Front :=
  { f with waiting := y :: f.waiting, admitted := y.submission :: f.admitted }

def refuse (f : Front) (x : Submission) (answer : Refusal) : Front := { f with refused := (x, answer) :: f.refused }

def drop (f : Front) (i : Nat) : Front := { f with waiting := f.waiting.eraseIdx i }

/-- The INSERT, which makes a row unless one has its key. -/
def insert (f : Front) (i : Nat) (y : Admitted) (generated : Uuid) (conflict : Option JobRow) : Front :=
  { f.drop i with rows := if conflict.isSome then f.rows else Function.update f.rows generated (some y) }

section

variable (ro : Router) (cfg : Config)

def step (q : State × Front) : FrontAct → Option (State × Front)
  | .post x =>
      match ro.post x with
      | .error answer => some (q.1, q.2.refuse x answer)
      | .ok y => (QueueFlow.step cfg q.1 (.request (.submit x.idempotencyKey))).map fun t => (t, q.2.accept y)
  | .replay x id =>
      if ro.requireWrite x = .next then
        (QueueFlow.step cfg q.1 (.request (.replay id))).map fun t => (t, q.2)
      else some q
  | .insert i generated => q.2.waiting[i]?.bind fun y =>
      (QueueFlow.step cfg q.1 (.api (.insert y.submission.idempotencyKey) generated)).map fun t =>
        (t, q.2.insert i y generated (q.1.keyRow y.submission.idempotencyKey))
  | .crash i => q.2.waiting[i]?.bind fun y =>
      (QueueFlow.step cfg q.1 (.apiCrash (.insert y.submission.idempotencyKey))).map fun t => (t, q.2.drop i)
  | .other a => if a.isFront then none else (QueueFlow.step cfg q.1 a).map fun t => (t, q.2)

end

end Front

/-- What a handler relies on in the payload that it reads. -/
def Fit (ro : Router) (payload : Value) : JobType → Prop
  | .sleep => ∃ q, payload.field? "ms".toList = some (.number (.finite q)) ∧ 0 ≤ q
  | .always_fail => True
  | .deliver_webhook => ∃ url u, payload.field? "url".toList = some (.string url) ∧ ro.newURL url = some u ∧
      (u.protocol = "http:".toList ∨ u.protocol = "https:".toList) ∧ blockedTarget ro.allowPrivate u.hostname = none

variable {ro : Router} {cfg : Config} {s s' : State} {f : Front} {a : Act} {x : Submission} {y : Admitted} {r : JobRow}
  {job : Uuid} {q q' : State × Front} {act : FrontAct}

/-! ## What is admitted -/

theorem Router.post_eq_ok (hpost : ro.post x = .ok y) :
    y.submission = x ∧ ro.requireWrite x.caller = .next ∧
      isJobType (x.body.field? "type".toList) = some y.type ∧ x.body.field? "payload".toList = some y.payload ∧
        validatePayload ro.allowPrivate ro.newURL y.type (some y.payload) = none := by
  unfold Router.post at hpost
  split at hpost
  · cases hpost
  · cases hpost
  · rename_i hwrite
    split at hpost
    · cases hpost
    · rename_i type htype
      split at hpost
      · cases hpost
      · rename_i hvalid
        cases hpost
        cases hpayload : x.body.field? "payload".toList with
        | none =>
            rw [hpayload] at hvalid
            cases hvalid
        | some payload =>
            rw [hpayload] at hvalid
            exact ⟨rfl, hwrite, htype, rfl, hvalid⟩

/-- The check is made on the payload as it is posted; the handler reads it as it is stored. -/
theorem fit_of_validatePayload {type : JobType} {payload : Value}
    (hvalid : validatePayload ro.allowPrivate ro.newURL type (some payload) = none) : Fit ro payload.stored type := by
  cases type with
  | sleep =>
      obtain ⟨q, hms, hq⟩ := validatePayload_sleep.mp hvalid
      refine ⟨q, ?_, hq⟩
      rw [field?_stored, hms]
      rfl
  | always_fail => trivial
  | deliver_webhook =>
      obtain ⟨url, u, hurl, hu, hweb, hblocked, -⟩ := validatePayload_webhook.mp hvalid
      refine ⟨url, u, ?_, hu, hweb, hblocked⟩
      rw [field?_stored, hurl]
      rfl

/-! ## The invariant -/

theorem RowMove.idempotencyKey {r' : JobRow} (h : RowMove cfg s a job r r') : r'.idempotencyKey = r.idempotencyKey := by
  cases h <;> rfl

structure FrontWf (ro : Router) (cfg : Config) (s : State) (f : Front) : Prop where
  lease : LeaseWf cfg s
  holding : HoldingWf s
  waiting : ∀ y ∈ f.waiting, ro.post y.submission = .ok y ∧ y.submission ∈ f.admitted
  /-- Each row was made by a submission that was admitted, with its key. -/
  made : ∀ job r, s.db.row job = some r → ∃ y, f.rows job = some y ∧ ro.post y.submission = .ok y ∧
    y.submission ∈ f.admitted ∧ r.idempotencyKey = y.submission.idempotencyKey
  /-- And each submission made at most one. -/
  few : s.db.jobs.length + f.waiting.length ≤ f.admitted.length

private theorem length_jobs (h : QueueFlow.step cfg s a = some s') (hins : ∀ key g, a ≠ .api (.insert key) g) :
    s'.db.jobs.length = s.db.jobs.length := by
  have hdb := db_cases h
  generalize s'.db = db at hdb
  generalize s'.claims = claims at hdb
  cases hdb with
  | same => rfl
  | inserted key g generated ha => exact absurd ha (hins key g)
  | claimed | settled | buried | parked | replayed | promoted | reapBuried | reapRequeued | reset =>
      exact List.length_map _

namespace FrontWf

theorem init : FrontWf ro cfg .init .start where
  lease := .init
  holding := .init
  waiting y hy := by cases hy
  made job r hrow := by cases hrow
  few := Nat.le_refl _

/-- A step that inserts no row. -/
theorem other (wf : FrontWf ro cfg s f) (h : QueueFlow.step cfg s a = some s')
    (hins : ∀ key g, a ≠ .api (.insert key) g) : FrontWf ro cfg s' f where
  lease := wf.lease.step h
  holding := wf.holding.step wf.lease h
  waiting := wf.waiting
  made job r hrow := by
    rcases row_cases wf.lease h hrow with ⟨key, g, ha, -, -⟩ | ⟨r₀, hrow₀, hmove⟩
    · exact absurd ha (hins key g)
    · rw [hmove.idempotencyKey]
      exact wf.made job r₀ hrow₀
  few := by
    rw [length_jobs h hins]
    exact wf.few

theorem accept (wf : FrontWf ro cfg s f) (hpost : ro.post x = .ok y) : FrontWf ro cfg s (f.accept y) where
  lease := wf.lease
  holding := wf.holding
  waiting z hz := by
    rcases List.mem_cons.mp hz with rfl | hz
    · obtain ⟨rfl, -⟩ := Router.post_eq_ok hpost
      exact ⟨hpost, List.mem_cons_self⟩
    · exact (wf.waiting z hz).imp_right (List.mem_cons_of_mem _)
  made job r hrow := by
    obtain ⟨z, hz, hpost, hmem, hkey⟩ := wf.made job r hrow
    exact ⟨z, hz, hpost, List.mem_cons_of_mem _ hmem, hkey⟩
  few := Nat.succ_le_succ wf.few

theorem refuse (wf : FrontWf ro cfg s f) (answer : Refusal) : FrontWf ro cfg s (f.refuse x answer) :=
  ⟨wf.lease, wf.holding, wf.waiting, wf.made, wf.few⟩

theorem drop {i : Nat} (wf : FrontWf ro cfg s f) : FrontWf ro cfg s (f.drop i) where
  lease := wf.lease
  holding := wf.holding
  waiting z hz := wf.waiting z (List.mem_of_mem_eraseIdx hz)
  made := wf.made
  few := (Nat.add_le_add_left (List.length_eraseIdx_le _ i) _).trans wf.few

theorem insert {i : Nat} {generated : Uuid} (wf : FrontWf ro cfg s f) (hy : f.waiting[i]? = some y)
    (h : QueueFlow.step cfg s (.api (.insert y.submission.idempotencyKey) generated) = some s') :
    FrontWf ro cfg s' (f.insert i y generated (s.keyRow y.submission.idempotencyKey)) := by
  have hlease := wf.lease.step h
  have hholding := wf.holding.step wf.lease h
  have hwaiting : ∀ z ∈ f.waiting.eraseIdx i, ro.post z.submission = .ok z ∧ z.submission ∈ f.admitted :=
    fun z hz => wf.waiting z (List.mem_of_mem_eraseIdx hz)
  obtain ⟨hi, hget⟩ := List.getElem?_eq_some_iff.mp hy
  have hlength := List.length_eraseIdx_of_lt hi
  obtain ⟨hpost, hmem⟩ := wf.waiting y (hget ▸ List.getElem_mem hi)
  have hfew := wf.few
  obtain ⟨-, h⟩ := Option.ite_none_right_eq_some.mp h
  simp only [handle] at h
  obtain ⟨⟨-, hnew⟩, h⟩ := Option.ite_none_right_eq_some.mp h
  split at h
  · rename_i r hkey
    cases h
    refine ⟨hlease, hholding, hwaiting, ?_, ?_⟩
    · rw [hkey]
      exact wf.made
    · simp only [Front.insert, Front.drop, hlength]
      exact (Nat.add_le_add_left (Nat.sub_le _ _) _).trans hfew
  · rename_i hkey
    cases h
    refine ⟨hlease, hholding, hwaiting, fun job r hrow => ?_, ?_⟩
    · have hrow : (s.db.insertJob (.inserted generated y.submission.idempotencyKey s.now)).row job = some r := hrow
      rw [Db.row_insertJob hnew] at hrow
      simp only [Front.insert, hkey]
      split at hrow
      · rename_i hjob
        cases hrow
        obtain rfl : job = generated := hjob
        exact ⟨y, Function.update_self _ _ _, hpost, hmem, rfl⟩
      · rename_i hjob
        obtain ⟨z, hz, hz'⟩ := wf.made job r hrow
        exact ⟨z, (Function.update_of_ne hjob _ _).trans hz, hz'⟩
    · show (s.db.jobs ++ [_]).length + (f.waiting.eraseIdx i).length ≤ f.admitted.length
      rw [List.length_append, hlength, List.length_singleton]
      omega

theorem step (wf : FrontWf ro cfg q.1 q.2) (h : Front.step ro cfg q act = some q') : FrontWf ro cfg q'.1 q'.2 := by
  cases act with
  | post x =>
      simp only [Front.step] at h
      split at h
      · rename_i answer _
        cases h
        exact wf.refuse answer
      · rename_i y hpost
        obtain ⟨t, ht, rfl⟩ := Option.map_eq_some_iff.mp h
        exact (wf.accept hpost).other ht (by rintro _ _ ⟨⟩)
  | replay x id =>
      simp only [Front.step] at h
      split at h
      · obtain ⟨t, ht, rfl⟩ := Option.map_eq_some_iff.mp h
        exact wf.other ht (by rintro _ _ ⟨⟩)
      · cases h
        exact wf
  | insert i generated =>
      obtain ⟨y, hy, h⟩ := Option.bind_eq_some_iff.mp h
      obtain ⟨t, ht, rfl⟩ := Option.map_eq_some_iff.mp h
      exact wf.insert hy ht
  | crash i =>
      obtain ⟨y, hy, h⟩ := Option.bind_eq_some_iff.mp h
      obtain ⟨t, ht, rfl⟩ := Option.map_eq_some_iff.mp h
      exact wf.drop.other ht (by rintro _ _ ⟨⟩)
  | other a =>
      obtain ⟨hfront, h⟩ := Option.ite_none_left_eq_some.mp h
      obtain ⟨t, ht, rfl⟩ := Option.map_eq_some_iff.mp h
      refine wf.other ht ?_
      rintro key g rfl
      exact hfront rfl

end FrontWf

namespace Front

/-- In every run every execution that holds a claim, whatever its attempt and after whatever deaths, recoveries and
replays, runs a job that one submission made: it came from somebody who may write, it carried the job's
Idempotency-Key, and its payload passed the check, so that the handler finds what it relies on in what it reads; a
delivery goes to a target that is not blocked. There are no more rows than such submissions. -/
theorem runs_what_was_admitted {ok : State × Front → FrontAct → Prop}
    (hrun : Run (step ro cfg) ok (.init, start) (s, f)) :
    s.db.jobs.length ≤ f.admitted.length ∧
      ∀ e ∈ s.execs, ∀ h, e.pc.holding? = some h → ∃ r y, s.db.row h.job = some r ∧ f.rows h.job = some y ∧
        y.submission ∈ f.admitted ∧ y.submission.idempotencyKey = r.idempotencyKey ∧
        ro.requireWrite y.submission.caller = .next ∧
        isJobType (y.submission.body.field? "type".toList) = some y.type ∧
        y.submission.body.field? "payload".toList = some y.payload ∧ Fit ro y.payload.stored y.type := by
  have wf : FrontWf ro cfg s f := hrun.invariant (P := fun q => FrontWf ro cfg q.1 q.2) .init
    fun _ _ _ wf _ h => wf.step h
  refine ⟨(Nat.le_add_right _ _).trans wf.few, fun e he h hh => ?_⟩
  obtain ⟨r, hrow, -⟩ := (wf.holding.knows e he).held h hh
  obtain ⟨y, hy, hpost, hmem, hkey⟩ := wf.made h.job r hrow
  obtain ⟨-, hwrite, htype, hpayload, hvalid⟩ := Router.post_eq_ok hpost
  exact ⟨r, y, hrow, hy, hmem, hkey.symm, hwrite, htype, hpayload, fit_of_validatePayload hvalid⟩

/-- One key may write; the parser knows one URL. -/
private def oneKey : Router where
  env := ⟨some "key".toList, none, none⟩
  allowPrivate := none
  crypto := lengthCrypto
  rt := ⟨fun _ => .nan, fun _ => false, fun _ => none⟩
  newURL := parses "https://example.com/".toList
    (httpsUrl (.domain ⟨"example.com".toList, by decide, by simp, by decide⟩))

/-- A delivery, posted with such an Authorization header. -/
private def posted (authorization : Text) : Submission where
  caller := ⟨lengthCrypto.sha256 [], ⟨20, by decide⟩, ⟨some authorization, none⟩⟩
  idempotencyKey := none
  body := .object [("type".toList, .string "deliver_webhook".toList),
    ("payload".toList, delivery "https://example.com/".toList)]

private def resolveFront (q : State × Front) : Cue ⊕ FrontAct → Option FrontAct
  | .inl cue => (resolve q.1 cue).map .other
  | .inr act => some act

/-- One request has a wrong key, and one the right one; its worker dies, and another one takes the job. -/
private def door : List (Cue ⊕ FrontAct) :=
  [.inr (.post (posted "Bearer k".toList)), .inr (.post (posted "Bearer key".toList)),
    .inr (.insert 0 (Script.job 1))] ++
    (.api (Script.job 2) :: Script.start ['a'] ++ Script.takes ['a'] 2 ++ Script.dies ['a'] ++
      .act .startSched :: Script.reaps ['a'] 6 ++ Script.start ['b'] ++ Script.takes ['b'] 2).map .inl

theorem runs_what_was_admitted_recovered : ∃ s f, Run (step oneKey Script.defaults) always (.init, start) (s, f) ∧
    f.refused.length = 1 ∧ s.db.jobs.length ≤ f.admitted.length ∧ ∃ e ∈ s.execs, ∃ h y, e.pc.holding? = some h ∧
      f.rows h.job = some y ∧ Fit oneKey y.payload.stored y.type := by
  have hplay : ∃ q, Run (step oneKey Script.defaults) (fun _ _ => True) (.init, start) q ∧
      q.2.refused.length = 1 ∧ (q.1.execs.any fun e => e.pc.holding?.isSome) = true :=
    exists_run_of_perform (f := resolveFront) door (by decide +kernel)
  obtain ⟨⟨s, f⟩, hrun, hrefused, hany⟩ := hplay
  obtain ⟨e, he, hh⟩ := List.any_eq_true.mp hany
  obtain ⟨h, hh⟩ := Option.isSome_iff_exists.mp hh
  obtain ⟨hfew, hadmitted⟩ := runs_what_was_admitted hrun
  obtain ⟨r, y, -, hy, -, -, -, -, -, hfit⟩ := hadmitted e he h hh
  exact ⟨s, f, hrun, hrefused, hfew, e, he, h, y, hh, hy, hfit⟩

end Front

end QueueFlow
