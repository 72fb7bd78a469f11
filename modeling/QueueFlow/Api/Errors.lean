-- SUMMARY: The answers of the routes that read text of a client: they are client errors or successes just when Postgres can read the text.
import QueueFlow.Api.Walk
import QueueFlow.Frame
import QueueFlow.Script

/-!
# Malformed input

`GET /jobs`, `GET /jobs/:id` and `POST /jobs/:id/replay` hand text of the client to Postgres. What
Postgres cannot read ends in the error middleware, which answers 500 to everything that is no
`BadRequest`. `Readable` says of a call that Postgres can read what the parsers let through.
-/

namespace QueueFlow

open Transition Keyset IsoTime

/-! ## The routes -/

inductive JobResponse where
  | job (r : JobRow)
  /-- 404, `{ error }`. -/
  | notFound (message : Text)
  /-- 500, `{ error: "internal error" }`. -/
  | internalError

/-- `GET /jobs/:id`. -/
def getJob (table : JobsTable) (id : Text) : JobResponse :=
  match uuidIn id with
  | none => .internalError
  | some job =>
      match table.rows.find? fun r => r.id = job with
      | none => .notFound "no such job".toList
      | some r => .job r

def JobResponse.code : JobResponse → Nat
  | .job _ => 200
  | .notFound _ => 404
  | .internalError => 500

def ListResponse.code : ListResponse → Nat
  | .page _ _ => 200
  | .badRequest _ => 400
  | .internalError => 500

inductive ClientCall where
  | list (status limit cursor : QueryValue)
  | get (id : Text)
  | replay (id : Text)
  deriving DecidableEq, Repr

/-- Every row was inserted at an instant that a `Date` can hold. -/
def JobsTable.Dated (table : JobsTable) : Prop :=
  ∀ r ∈ table.rows, (toISOString (r.createdAt / 1000)).isSome = true

/-- The call is answered with this code. A replay takes more than one statement, and is answered in a
run of the system. -/
inductive Answered (cfg : Config) (rt : Runtime) : ClientCall → Nat → Prop where
  | list (table : JobsTable) (hdated : table.Dated) (status limit cursor : QueryValue) :
      Answered cfg rt (.list status limit cursor) (listJobs rt table status limit cursor).code
  | get (table : JobsTable) (id : Text) : Answered cfg rt (.get id) (getJob table id).code
  | replay (s : State) (res : Response) (id : Text) (hs : Reaches cfg always s)
      (hres : res ∈ s.responses) (hreq : res.request = .replay id) :
      Answered cfg rt (.replay id) res.code

/-- 2xx, 400, 404 or 409. -/
def ClientAnswer (code : Nat) : Prop :=
  (200 ≤ code ∧ code < 300) ∨ code = 400 ∨ code = 404 ∨ code = 409

theorem clientAnswer_ok : ClientAnswer 200 := .inl (by decide)

theorem clientAnswer_accepted : ClientAnswer 202 := .inl (by decide)

theorem not_clientAnswer_internal : ¬ ClientAnswer 500 := by
  unfold ClientAnswer
  decide

/-- Postgres reads the operands that the call hands it. -/
def ClientCall.Readable (rt : Runtime) : ClientCall → Prop
  | .list status limit cursor => ∀ s n c, parseStatus status = .ok s →
      parseLimit rt limit 20 100 = .ok n → decodeCursor rt cursor = .ok (some c) →
        (rt.timestamptz c.t).isSome = true ∧ (uuidIn c.id).isSome = true
  | .get id => (uuidIn id).isSome = true
  | .replay id => (uuidIn id).isSome = true

/-! ## GET /jobs -/

variable {cfg : Config} {rt : Runtime} {table : JobsTable} {status : Option JobStatus}
  {cursor : Option RowKey} {limit : Nat} {r : JobRow} {id : Text} {c : Option Cursor}

theorem mem_rows_of_mem_selectJobs (h : r ∈ selectJobs table status cursor limit) :
    r ∈ table.rows :=
  List.mem_of_mem_filter ((orderJobs_perm _).mem_iff.mp (List.mem_of_mem_take h))

theorem code_listPage (hdated : table.Dated) :
    (listPage rt table status limit c).code = if (bindCursor rt c).isSome then 200 else 500 := by
  unfold listPage
  cases hbind : bindCursor rt c with
  | none => rfl
  | some key =>
    dsimp only
    split
    · split
      · rfl
      · rename_i last hlast
        have hmem : last ∈ table.rows :=
          mem_rows_of_mem_selectJobs (List.mem_of_mem_take (List.mem_of_getLast? hlast))
        obtain ⟨t, ht⟩ := Option.isSome_iff_exists.mp (hdated last hmem)
        rw [ht]
        rfl
    · rfl

theorem isSome_bindCursor (c : Cursor) : (bindCursor rt (some c)).isSome = true ↔
    (rt.timestamptz c.t).isSome = true ∧ (uuidIn c.id).isSome = true := by
  cases ht : rt.timestamptz c.t <;> cases hid : uuidIn c.id <;> simp [bindCursor, ht, hid]

theorem clientAnswer_listPage (hdated : table.Dated) :
    ClientAnswer (listPage rt table status limit c).code ↔
      ∀ cursor, c = some cursor →
        (rt.timestamptz cursor.t).isSome = true ∧ (uuidIn cursor.id).isSome = true := by
  rw [code_listPage hdated]
  cases c with
  | none => exact iff_of_true clientAnswer_ok (by rintro _ ⟨⟩)
  | some cursor =>
    simp only [Option.some.injEq, forall_eq', ← isSome_bindCursor]
    cases (bindCursor rt (some cursor)).isSome with
    | true => exact iff_of_true clientAnswer_ok rfl
    | false => exact iff_of_false not_clientAnswer_internal Bool.false_ne_true

theorem clientAnswer_listJobs (hdated : table.Dated) (status limit cursor : QueryValue) :
    ClientAnswer (listJobs rt table status limit cursor).code ↔
      (ClientCall.list status limit cursor).Readable rt := by
  simp only [listJobs, ClientCall.Readable]
  cases hstatus : parseStatus status with
  | error => exact iff_of_true (.inr (.inl rfl)) (by rintro _ _ _ ⟨⟩)
  | ok s =>
    cases hlimit : parseLimit rt limit 20 100 with
    | error => exact iff_of_true (.inr (.inl rfl)) (by rintro _ _ _ _ ⟨⟩)
    | ok n =>
      cases hcursor : decodeCursor rt cursor with
      | error => exact iff_of_true (.inr (.inl rfl)) (by rintro _ _ _ _ _ ⟨⟩)
      | ok c =>
        rw [clientAnswer_listPage hdated]
        constructor
        · rintro h _ _ cursor ⟨⟩ ⟨⟩ ⟨⟩
          exact h cursor rfl
        · rintro h cursor rfl
          exact h s n cursor rfl rfl rfl

/-! ## GET /jobs/:id -/

theorem clientAnswer_getJob : ClientAnswer (getJob table id).code ↔ (uuidIn id).isSome = true := by
  unfold getJob
  cases uuidIn id with
  | none => exact iff_of_false not_clientAnswer_internal Bool.false_ne_true
  | some job =>
    dsimp only
    split
    · exact iff_of_true (.inr (.inr (.inl rfl))) rfl
    · exact iff_of_true clientAnswer_ok rfl

/-! ## POST /jobs/:id/replay -/

/-- A replay that is past its UPDATE names a job. -/
def Api.Named : Api → Prop
  | .refuse id => (uuidIn id).isSome = true
  | .push (.replay id) _ => (uuidIn id).isSome = true
  | _ => True

/-- A replay was answered as its id deserves. -/
def Response.Deserved (res : Response) : Prop :=
  ∀ id, res.request = .replay id → (ClientAnswer res.code ↔ (uuidIn id).isSome = true)

structure AnswersWf (s : State) : Prop where
  apis : ∀ x ∈ s.apis, x.Named
  responses : ∀ res ∈ s.responses, res.Deserved

namespace AnswersWf

variable {s s' : State} {a : Act} {x x' : Api}

theorem setApi (wf : AnswersWf s) (hnamed : x'.Named) (hapis : s'.apis = Bag.swap s.apis x x')
    (hresponses : s'.responses = s.responses) : AnswersWf s' where
  apis y hy := by
    rw [hapis] at hy
    rcases Bag.mem_of_mem_swap hy with rfl | hy
    · exact hnamed
    · exact wf.apis y hy
  responses := hresponses ▸ wf.responses

theorem respond (wf : AnswersWf s) {req : Request} {code : Nat} {body : Body}
    (hdeserved : (⟨req, code, body⟩ : Response).Deserved) : AnswersWf (s.respond x req code body) where
  apis y hy := wf.apis y (List.mem_of_mem_erase hy)
  responses res hres := by
    rcases List.mem_cons.mp hres with rfl | hres
    · exact hdeserved
    · exact wf.responses res hres

theorem handle (wf : AnswersWf s) {g : Uuid} (hx : x ∈ s.apis) (h : QueueFlow.handle s x g = some s') :
    AnswersWf s' := by
  have hnamed := wf.apis x hx
  unfold QueueFlow.handle at h
  split at h
  case h_1 =>
    split at h
    · split at h
      all_goals
        cases h
        refine wf.setApi ?_ rfl rfl
        trivial
    · cases h
  case h_2 =>
    split at h
    all_goals cases h; exact wf.respond (by rintro _ ⟨⟩)
  case h_3 id =>
    split at h
    case h_1 hid =>
      cases h
      refine wf.respond ?_
      rintro _ ⟨⟩
      exact iff_of_false not_clientAnswer_internal (by rw [hid]; decide)
    case h_2 job hid =>
      have hsome : (uuidIn id).isSome = true := by rw [hid]; rfl
      split at h
      · cases h
      split at h
      all_goals
        cases h
        refine wf.setApi ?_ rfl rfl
        exact hsome
  case h_4 id =>
    split at h
    case h_1 =>
      cases h
      refine wf.respond ?_
      rintro _ ⟨⟩
      exact iff_of_true (.inr (.inr (.inl rfl))) hnamed
    case h_2 =>
      cases h
      refine wf.respond ?_
      rintro _ ⟨⟩
      exact iff_of_true (.inr (.inr (.inr rfl))) hnamed
  case h_5 req id =>
    cases h
    have hpushed : AnswersWf (s.withRedis (s.redis.lpush id)) := ⟨wf.apis, wf.responses⟩
    refine hpushed.respond ?_
    rintro _ rfl
    exact iff_of_true clientAnswer_accepted hnamed

theorem step (wf : AnswersWf s) (h : QueueFlow.step cfg s a = some s') : AnswersWf s' := by
  rcases apis_of_step h with ⟨-, hapis, hresponses⟩ | ⟨req, -, rfl⟩ | ⟨x, -, rfl⟩ |
    ⟨x, g, -, hx, hhandle⟩
  · exact ⟨hapis ▸ wf.apis, hresponses ▸ wf.responses⟩
  · refine ⟨fun y hy => ?_, wf.responses⟩
    rcases List.mem_cons.mp hy with rfl | hy
    · cases req with
      | submit => trivial
      | replay => trivial
    · exact wf.apis y hy
  · exact ⟨fun y hy => wf.apis y (List.mem_of_mem_erase hy), wf.responses⟩
  · exact wf.handle hx hhandle

theorem run (hs : Reaches cfg always s) : AnswersWf s :=
  hs.invariant ⟨by rintro _ ⟨⟩, by rintro _ ⟨⟩⟩ fun _ _ _ wf _ hstep => wf.step hstep

end AnswersWf

/-! ## All routes -/

/-- Every answer to the three routes is 2xx, 400, 404 or 409 just when Postgres can read what the
parsers let through. -/
theorem client_answer_iff {call : ClientCall} {code : Nat} (h : Answered cfg rt call code) :
    ClientAnswer code ↔ call.Readable rt := by
  cases h with
  | list table hdated status limit cursor => exact clientAnswer_listJobs hdated status limit cursor
  | get table id => exact clientAnswer_getJob
  | replay s res id hs hres hreq => exact (AnswersWf.run hs).responses res hres id hreq

open Script

/-- The replay of an id that no row has. -/
theorem client_answer_no_such_job :
    Answered defaults plainRuntime (.replay (uuidOut (job 1))) 404 ∧
      (ClientAnswer 404 ↔ (ClientCall.replay (uuidOut (job 1))).Readable plainRuntime) := by
  have hrun : ∃ s, Reaches defaults always s ∧
      s.responses = [⟨.replay (uuidOut (job 1)), 404, .error "no such job".toList⟩] :=
    exists_run_of_play (replay (uuidOut (job 1)) (job 2)) (by decide +kernel)
  obtain ⟨s, hs, hresponses⟩ := hrun
  have hanswered : Answered defaults plainRuntime (.replay (uuidOut (job 1))) 404 :=
    .replay s _ _ hs (hresponses ▸ List.mem_singleton_self _) rfl
  exact ⟨hanswered, client_answer_iff hanswered⟩

private def noJobs : JobsTable := ⟨[], .nil⟩

/-- A cursor with the text of an instant, and with an id that is none. -/
private def wordCursor : Text := encodeCursor ⟨"1970-01-01T00:00:00.000Z".toList, "abc".toList⟩

/-- `GET /jobs?cursor=`, `GET /jobs/abc` and `POST /jobs/abc/replay` are answered 500. -/
theorem malformed_answered_internal :
    Answered defaults plainRuntime (.list .undefined .undefined (.single wordCursor)) 500 ∧
      Answered defaults plainRuntime (.get "abc".toList) 500 ∧
      Answered defaults plainRuntime (.replay "abc".toList) 500 ∧ ¬ ClientAnswer 500 := by
  refine ⟨?_, .get noJobs "abc".toList, ?_, not_clientAnswer_internal⟩
  · have hcode : (listJobs plainRuntime noJobs .undefined .undefined (.single wordCursor)).code =
        500 := by
      simp only [listJobs, parseStatus, parseLimit, wordCursor]
      rw [decodeCursor_encodeCursor (by decide +kernel)]
      rfl
    exact hcode ▸ .list noJobs (by rintro _ ⟨⟩) .undefined .undefined (.single wordCursor)
  · have hrun : ∃ s, Reaches defaults always s ∧
        s.responses = [⟨.replay "abc".toList, 500, .error "internal error".toList⟩] :=
      exists_run_of_play [.act (.request (.replay "abc".toList)), .api (job 1)] (by decide +kernel)
    obtain ⟨s, hs, hresponses⟩ := hrun
    exact .replay s _ _ hs (hresponses ▸ List.mem_singleton_self _) rfl

end QueueFlow
