-- SUMMARY: The handlers sleep and deliverWebhook of worker/handlers.ts, run on a payload as it is read back, and which accepted payloads they carry out as stated.
import QueueFlow.Shared.Payload

/-!
# Handlers

A payload is checked when it is posted, stored as JSON, and read back by the worker. The timers and
`fetch` of the runtime follow its documentation; a timer may fire late, never early.
-/

namespace QueueFlow

/-! ## `POST /jobs` -/

/-- The type and payload of a body that is accepted. -/
def acceptBody (env : Option Text) (newURL : Text → Option Url) (body : Value) :
    Option (JobType × Value) := do
  let type ← isJobType (body.field? "type".toList)
  let payload ← body.field? "payload".toList
  if validatePayload env newURL type (some payload) = none then some (type, payload) else none

mutual

/-- The value that is read back: `JSON.stringify` writes `null` for a number that is not finite. -/
def Value.stored : Value → Value
  | .number (.finite q) => .number (.finite q)
  | .number _ => .null
  | .array items => .array (storedItems items)
  | .object fields => .object (storedFields fields)
  | .null => .null
  | .bool b => .bool b
  | .string s => .string s

def storedItems : List Value → List Value
  | [] => []
  | v :: vs => v.stored :: storedItems vs

def storedFields : List (Text × Value) → List (Text × Value)
  | [] => []
  | (key, v) :: fields => (key, v.stored) :: storedFields fields

end

/-! ## Timers -/

/-- `TIMEOUT_MAX` -/
def timeoutMax : Nat := 2 ^ 31 - 1

/-- The delay that `setTimeout` uses: a fraction is cut off, and what is out of range becomes 1. -/
def timerDelay : JsNumber → Nat
  | .finite q => if 1 ≤ q ∧ q ≤ timeoutMax then ⌊q⌋₊ else 1
  | _ => 1

/-- The delay of `AbortSignal.timeout`, which throws unless its argument is a 32-bit integer. -/
def abortDelay : Value → Option Nat
  | .number (.finite q) => if q.den = 1 ∧ 0 ≤ q ∧ q ≤ 2 ^ 32 - 1 then some (timerDelay (.finite q)) else none
  | _ => none

/-! ## `sleep` -/

/-- The time after which `sleep` returns, if its timer is late by so much. -/
def sleep (ms : JsNumber) (late : ℚ≥0) : ℚ := timerDelay ms + late

/-! ## `deliverWebhook` -/

/-- What the receiver would answer: its status, how long it takes it to accept the connection, and
how long from then on to answer the request. -/
structure Answer where
  status : Nat
  connect : ℚ≥0
  time : ℚ≥0

/-- The least time that `fetch` itself gives the connection and, once it is made, the answer. -/
structure FetchLimits where
  connect : Nat
  headers : Nat

/-- How late the timers of one delivery fire. -/
structure Lateness where
  abort : ℚ≥0
  connect : ℚ≥0
  headers : ℚ≥0

inductive Delivery where
  /-- An error before or while the request was made. -/
  | unreachable
  | timedOut
  | responded (status : Nat)
  deriving DecidableEq

/-- `fetch` throws on such a URL before it sends anything. -/
def Url.refused (blockedPorts : List Nat) (u : Url) : Bool :=
  !u.username.isEmpty || !u.password.isEmpty || u.port.any (blockedPorts.contains ·)

/-- A request that `fetch` takes. The signal ends it at `abortAt`; a limit of `fetch` itself ends it
only if it comes before that, with an error of another name. -/
def request (limits : FetchLimits) (late : Lateness) (abortAt : ℚ≥0) (answer : Answer) : Delivery :=
  let connectAt : ℚ≥0 := limits.connect + late.connect
  let headersAt : ℚ≥0 := limits.headers + late.headers
  if connectAt < answer.connect ∧ connectAt < abortAt then .unreachable
  else if headersAt < answer.time ∧ answer.connect + headersAt < abortAt then .unreachable
  else if abortAt < answer.connect + answer.time then .timedOut
  else .responded answer.status

def deliverWebhook (newURL : Text → Option Url) (blockedPorts : List Nat) (limits : FetchLimits)
    (payload : Value) (late : Lateness) (answer : Answer) : Delivery :=
  match payload.field? "url".toList with
  | some (.string url) =>
      -- the default stands in for `undefined` only, not for `null`
      match abortDelay ((payload.field? "timeoutMs".toList).getD (.number (.finite 10000))) with
      | none => .unreachable
      | some delay =>
          match newURL url with
          | none => .unreachable
          | some u =>
              if u.refused blockedPorts then .unreachable
              else request limits late (delay + late.abort) answer
  | _ => .unreachable

/-- `response.ok` -/
def Delivery.isOk : Delivery → Bool
  | .responded status => 200 ≤ status && status ≤ 299
  | _ => false

/-! ## What a payload states -/

/-- `n < t` -/
def JsNumber.isBelow (t : ℚ) : JsNumber → Bool
  | .nan => false
  | .infinite negative => negative
  | .finite q => q < t

/-- The receiver answers before the timeout that the client asked for, or the default, is over. -/
def Within (t : ℚ≥0) : Option Value → Prop
  | none => t ≤ 10000
  | some (.number n) => n.isBelow t = false
  | some _ => False

/-- However late its timer is, a sleep does not return before `payload.ms` milliseconds are over. -/
def SleepsAsStated (payload : Value) : Prop :=
  ∃ q ms, payload.field? "ms".toList = some (.number (.finite q)) ∧
    payload.stored.field? "ms".toList = some (.number ms) ∧ ∀ late, q ≤ sleep ms late

/-- A receiver that takes so long to accept the connection, and would answer in time with a 2xx status,
gets the request, and its answer counts. -/
def DeliversAsStated (newURL : Text → Option Url) (blockedPorts : List Nat) (limits : FetchLimits)
    (connect : ℚ≥0) (payload : Value) : Prop :=
  ∀ late answer, answer.connect = connect → 200 ≤ answer.status → answer.status ≤ 299 →
    Within (connect + answer.time) (payload.field? "timeoutMs".toList) →
      (deliverWebhook newURL blockedPorts limits payload.stored late answer).isOk = true

/-- The payload is carried out as it states. -/
def AsStated (newURL : Text → Option Url) (blockedPorts : List Nat) (limits : FetchLimits)
    (connect : ℚ≥0) (payload : Value) : JobType → Prop
  | .sleep => SleepsAsStated payload
  | .always_fail => True
  | .deliver_webhook => DeliversAsStated newURL blockedPorts limits connect payload

/-! ## What the timers and `fetch` take -/

/-- A sleep of at most one millisecond, or of a whole number of them that a timer can wait. -/
def Sleepable (payload : Value) : Prop :=
  ∃ q, payload.field? "ms".toList = some (.number (.finite q)) ∧ (q ≤ 1 ∨ q.den = 1 ∧ q ≤ timeoutMax)

/-- A timeout, or the default, that is such a whole number and not over the time that `fetch` itself
leaves to a receiver that takes so long to accept the connection. -/
def Timeable (limits : FetchLimits) (connect : ℚ≥0) : Option Value → Prop
  | none => 10000 ≤ connect + limits.headers
  | some v => ∃ q, v = .number (.finite q) ∧ q.den = 1 ∧ q ≤ timeoutMax ∧ q ≤ connect + limits.headers

/-- A delivery to a URL that `fetch` takes, with such a timeout, whose connection `fetch` waits for;
or one whose timeout is over before the connection is made, to which nobody answers in time. -/
def Deliverable (newURL : Text → Option Url) (blockedPorts : List Nat) (limits : FetchLimits)
    (connect : ℚ≥0) (payload : Value) : Prop :=
  Within connect (payload.field? "timeoutMs".toList) →
    connect ≤ limits.connect ∧ Timeable limits connect (payload.field? "timeoutMs".toList) ∧
      ∃ url u, payload.field? "url".toList = some (.string url) ∧ newURL url = some u ∧
        u.refused blockedPorts = false

def Feasible (newURL : Text → Option Url) (blockedPorts : List Nat) (limits : FetchLimits)
    (connect : ℚ≥0) (payload : Value) : JobType → Prop
  | .sleep => Sleepable payload
  | .always_fail => True
  | .deliver_webhook => Deliverable newURL blockedPorts limits connect payload

/-! ## Reading back -/

variable {env : Option Text} {newURL : Text → Option Url} {blockedPorts : List Nat}
  {limits : FetchLimits} {connect : ℚ≥0} {body payload : Value} {type : JobType} {q : ℚ} {key : Text}

theorem storedFields_eq (fields : List (Text × Value)) :
    storedFields fields = fields.map fun f => (f.1, f.2.stored) := by
  induction fields with
  | nil => rfl
  | cons f fields ih =>
      obtain ⟨key, v⟩ := f
      rw [storedFields, ih, List.map_cons]

theorem field?_stored : payload.stored.field? key = (payload.field? key).map Value.stored := by
  cases payload with
  | object fields =>
      rw [Value.stored, storedFields_eq]
      simp only [Value.field?, ← List.map_reverse, List.find?_map, Option.map_map]
      rfl
  | number n => cases n <;> rfl
  | _ => rfl

/-! ## Delays -/

/-- A timer waits as long as it is told to only for these numbers. -/
theorem le_timerDelay_iff (hq : 0 ≤ q) :
    q ≤ timerDelay (.finite q) ↔ q ≤ 1 ∨ q.den = 1 ∧ q ≤ timeoutMax := by
  rw [timerDelay]
  split
  · rename_i hrange
    have hfloor : (⌊q⌋₊ : ℚ) ≤ q := Nat.floor_le hq
    constructor
    · intro hle
      have heq : q = ⌊q⌋₊ := le_antisymm hle hfloor
      exact .inr ⟨by rw [heq]; exact Rat.den_natCast _, hrange.2⟩
    · rintro (hone | ⟨hden, -⟩)
      · obtain rfl : q = 1 := le_antisymm hone hrange.1
        simp
      · have hnum : (q.num : ℚ) = q := (Rat.den_eq_one_iff q).mp hden
        have hnonneg : 0 ≤ q.num := Rat.num_nonneg.mpr hq
        rw [← hnum, ← Int.toNat_of_nonneg hnonneg, Int.cast_natCast, Nat.floor_natCast]
  · rename_i hrange
    rw [Nat.cast_one]
    refine ⟨.inl, ?_⟩
    rintro (hone | ⟨-, hmax⟩)
    · exact hone
    · exact le_of_not_ge fun hge => hrange ⟨hge, hmax⟩

/-- What `AbortSignal.timeout` takes, and the delay it then waits. -/
theorem abortDelay_eq_some {delay : Nat} : abortDelay (.number (.finite q)) = some delay ↔
    (q.den = 1 ∧ 0 ≤ q ∧ q ≤ 2 ^ 32 - 1) ∧ timerDelay (.finite q) = delay := by
  rw [abortDelay]
  split
  · rename_i h
    simp [h]
  · rename_i h
    simp [h]

private theorem number_inj {v : Option Value} {m n : JsNumber} (hm : v = some (.number m))
    (hn : v = some (.number n)) : m = n :=
  Value.number.inj (Option.some.inj (hm.symm.trans hn))

theorem acceptBody_eq_some (h : acceptBody env newURL body = some (type, payload)) :
    validatePayload env newURL type (some payload) = none := by
  simp only [acceptBody, Option.bind_eq_bind, Option.bind_eq_some_iff] at h
  obtain ⟨type', -, payload', -, h⟩ := h
  split at h
  · rename_i hvalid
    cases h
    exact hvalid
  · cases h

/-! ## Payloads that are carried out -/

/-- A sleep returns when its timer fires, so that it is the timer's delay that counts. -/
theorem sleepsAsStated_iff (h : validatePayload env newURL .sleep (some payload) = none) :
    SleepsAsStated payload ↔ Sleepable payload := by
  obtain ⟨q, hms, hq⟩ := validatePayload_sleep.mp h
  have hread : payload.stored.field? "ms".toList = some (.number (.finite q)) := by
    rw [field?_stored, hms]
    rfl
  constructor
  · rintro ⟨q', ms, hms', hread', hlate⟩
    obtain rfl : q' = q := JsNumber.finite.inj (number_inj hms' hms)
    obtain rfl : ms = .finite q' := number_inj hread' hread
    have hle : q' ≤ timerDelay (.finite q') := by simpa [sleep] using hlate 0
    exact ⟨q', hms, (le_timerDelay_iff hq).mp hle⟩
  · rintro ⟨q', hms', hfits⟩
    obtain rfl : q' = q := JsNumber.finite.inj (number_inj hms' hms)
    have hle := (le_timerDelay_iff hq).mpr hfits
    exact ⟨q', .finite q', hms, hread, fun late => hle.trans (le_add_of_nonneg_right late.2)⟩

/-- The delay of the timeout that a delivery is run with, as `fetch` gets it. -/
def deliveryDelay (timeoutMs : Option Value) : Option Nat :=
  abortDelay ((timeoutMs.map Value.stored).getD (.number (.finite 10000)))

theorem deliverWebhook_eq {url : Text} {u : Url} {late : Lateness} {answer : Answer}
    (hurl : payload.field? "url".toList = some (.string url)) (hnew : newURL url = some u) :
    deliverWebhook newURL blockedPorts limits payload.stored late answer =
      match deliveryDelay (payload.field? "timeoutMs".toList) with
      | none => .unreachable
      | some delay =>
          if u.refused blockedPorts then .unreachable
          else request limits late (delay + late.abort) answer := by
  simp only [deliverWebhook, deliveryDelay, field?_stored, hurl, Option.map_some, Value.stored, hnew]

/-- An answer is taken if neither the signal nor a limit of `fetch` comes before it. -/
theorem request_isOk_iff {late : Lateness} {abortAt : ℚ≥0} {answer : Answer}
    (hlow : 200 ≤ answer.status) (hhigh : answer.status ≤ 299) :
    (request limits late abortAt answer).isOk = true ↔
      answer.connect ≤ limits.connect + late.connect ∧ answer.time ≤ limits.headers + late.headers ∧
        answer.connect + answer.time ≤ abortAt := by
  have hconnect : answer.connect ≤ answer.connect + answer.time := le_add_of_nonneg_right answer.time.2
  simp only [request]
  split
  · rename_i hunmade
    exact iff_of_false Bool.false_ne_true fun hall => hall.1.not_gt hunmade.1
  rename_i hunmade
  split
  · rename_i hunanswered
    exact iff_of_false Bool.false_ne_true fun hall => hall.2.1.not_gt hunanswered.1
  rename_i hunanswered
  split
  · rename_i haborted
    exact iff_of_false Bool.false_ne_true fun hall => hall.2.2.not_gt haborted
  · rename_i haborted
    have hintime : answer.connect + answer.time ≤ abortAt := not_lt.mp haborted
    refine iff_of_true (by simp [Delivery.isOk, hlow, hhigh]) ⟨?_, ?_, hintime⟩
    · exact not_lt.mp fun hlt => hunmade ⟨hlt, hlt.trans_le (hconnect.trans hintime)⟩
    · exact not_lt.mp fun hlt => hunanswered ⟨hlt, (add_lt_add_right hlt _).trans_le hintime⟩

/-! ## Answers in time -/

theorem Within.mono {t t' : ℚ≥0} {timeoutMs : Option Value} (h : Within t' timeoutMs) (hle : t ≤ t') :
    Within t timeoutMs := by
  have hle' : (t : ℚ) ≤ t' := by exact_mod_cast hle
  cases timeoutMs with
  | none => exact hle.trans h
  | some v =>
      cases v with
      | number n =>
          cases n with
          | finite q => exact decide_eq_false (hle'.trans (not_lt.mp (of_decide_eq_false h))).not_gt
          | _ => exact h
      | _ => exact h

theorem within_finite {t bound : ℚ≥0} :
    Within t (some (.number (.finite (bound : ℚ)))) ↔ t ≤ bound :=
  decide_eq_false_iff_not.trans (not_lt.trans NNRat.cast_le)

/-- The signal and the limit on the answer leave time for whatever is in time, if the timeout is one
that they can keep. -/
theorem exists_deliveryDelay_iff {timeoutMs : Option Value} (h : validateTimeout timeoutMs = none)
    (hconnect : Within connect timeoutMs) :
    (∃ delay, deliveryDelay timeoutMs = some delay ∧
      ∀ time, Within (connect + time) timeoutMs → connect + time ≤ delay ∧ time ≤ limits.headers) ↔
        Timeable limits connect timeoutMs := by
  rcases validateTimeout_eq_none.mp h with rfl | ⟨n, rfl, hpositive⟩
  · have hdelay : deliveryDelay none = some 10000 := by
      refine abortDelay_eq_some.mpr ⟨⟨rfl, by norm_num, by norm_num⟩, ?_⟩
      rw [timerDelay, if_pos (by norm_num [timeoutMax])]
      exact Nat.floor_ofNat 10000
    obtain ⟨rest, hrest⟩ := exists_add_of_le (show connect ≤ 10000 from hconnect)
    constructor
    · rintro ⟨delay, -, hlong⟩
      exact hrest.le.trans (add_le_add_right (hlong rest hrest.ge).2 connect)
    · intro hlimit
      refine ⟨10000, hdelay, fun time htime => ⟨htime, ?_⟩⟩
      exact le_of_add_le_add_left ((show connect + time ≤ 10000 from htime).trans hlimit)
  cases n with
  | finite q =>
      obtain ⟨bound, rfl⟩ : ∃ bound : ℚ≥0, (bound : ℚ) = q :=
        ⟨⟨q, (not_le.mp (of_decide_eq_false hpositive)).le⟩, rfl⟩
      obtain ⟨rest, hrest⟩ := exists_add_of_le (within_finite.mp hconnect)
      simp only [deliveryDelay, Option.map_some, Option.getD_some, Value.stored, abortDelay_eq_some]
      constructor
      · rintro ⟨delay, ⟨⟨hden, -, -⟩, rfl⟩, hlong⟩
        obtain ⟨hle, hheaders⟩ := hlong rest (within_finite.mpr hrest.ge)
        rw [← hrest] at hle
        refine ⟨bound, rfl, hden, ?_, ?_⟩
        · rcases (le_timerDelay_iff bound.2).mp (by exact_mod_cast hle) with hone | ⟨-, hmax⟩
          · exact hone.trans (by norm_num [timeoutMax])
          · exact hmax
        · exact_mod_cast hrest.le.trans (add_le_add_right hheaders connect)
      · rintro ⟨q, hq, hden, hmax, hlimit⟩
        obtain rfl : (bound : ℚ) = q := JsNumber.finite.inj (Value.number.inj hq)
        refine ⟨_, ⟨⟨hden, bound.2, hmax.trans (by norm_num [timeoutMax])⟩, rfl⟩, fun time htime => ?_⟩
        have hle : connect + time ≤ bound := within_finite.mp htime
        have hdelay : bound ≤ timerDelay (.finite bound) := by
          exact_mod_cast (le_timerDelay_iff bound.2).mpr (.inr ⟨hden, hmax⟩)
        have hheaders : bound ≤ connect + limits.headers := by exact_mod_cast hlimit
        exact ⟨hle.trans hdelay, le_of_add_le_add_left (hle.trans hheaders)⟩
  | _ =>
      -- the number is read back as `null`
      refine iff_of_false ?_ ?_
      · rintro ⟨delay, hdelay, -⟩
        cases hdelay
      · rintro ⟨q, hq, -⟩
        cases hq

/-- A delivery is judged by its timeout and by what `fetch` takes and waits for. -/
theorem deliversAsStated_iff (h : validatePayload env newURL .deliver_webhook (some payload) = none) :
    DeliversAsStated newURL blockedPorts limits connect payload ↔
      Deliverable newURL blockedPorts limits connect payload := by
  obtain ⟨url, u, hurl, hnew, -, -, htimeout⟩ := validatePayload_webhook.mp h
  have hfetch : (∃ url u, payload.field? "url".toList = some (.string url) ∧ newURL url = some u ∧
      u.refused blockedPorts = false) ↔ u.refused blockedPorts = false := by
    constructor
    · rintro ⟨url', u', hurl', hnew', hfetch⟩
      obtain rfl : url' = url := Value.string.inj (Option.some.inj (hurl'.symm.trans hurl))
      rwa [Option.some.inj (hnew.symm.trans hnew')]
    · exact fun hfetch => ⟨url, u, hurl, hnew, hfetch⟩
  rw [Deliverable, hfetch]
  constructor
  · intro hstated hconnect
    -- the timers that are on time decide what every receiver gets
    have hok (time : ℚ≥0) (ht : Within (connect + time) (payload.field? "timeoutMs".toList)) :
        ∃ delay, deliveryDelay (payload.field? "timeoutMs".toList) = some delay ∧
          u.refused blockedPorts = false ∧ connect ≤ limits.connect ∧ time ≤ limits.headers ∧
            connect + time ≤ delay := by
      have h := hstated ⟨0, 0, 0⟩ ⟨200, connect, time⟩ rfl le_rfl (Nat.le_add_right 200 99) ht
      rw [deliverWebhook_eq hurl hnew] at h
      split at h
      · cases h
      rename_i delay hdelay
      split at h
      · cases h
      rename_i hfetch
      rw [request_isOk_iff le_rfl (Nat.le_add_right 200 99)] at h
      simp only [add_zero] at h
      exact ⟨delay, hdelay, Bool.eq_false_iff.mpr hfetch, h⟩
    obtain ⟨delay, hdelay, hfetch, hmade, -⟩ := hok 0 (by rwa [add_zero])
    refine ⟨hmade, (exists_deliveryDelay_iff htimeout hconnect).mp ⟨delay, hdelay, fun time ht => ?_⟩, hfetch⟩
    obtain ⟨delay', hdelay', -, -, hheaders, hle⟩ := hok time ht
    rw [Option.some.inj (hdelay.symm.trans hdelay')]
    exact ⟨hle, hheaders⟩
  · rintro hfits late answer rfl hlow hhigh hwithin
    have hconnect := hwithin.mono (le_add_of_nonneg_right answer.time.2)
    obtain ⟨hmade, htimeable, hfetch⟩ := hfits hconnect
    obtain ⟨delay, hdelay, hlong⟩ := (exists_deliveryDelay_iff htimeout hconnect).mpr htimeable
    obtain ⟨hle, hheaders⟩ := hlong _ hwithin
    simp only [deliverWebhook_eq hurl hnew, hdelay, hfetch, Bool.false_eq_true, if_false]
    rw [request_isOk_iff hlow hhigh]
    exact ⟨hmade.trans (le_add_of_nonneg_right late.connect.2),
      hheaders.trans (le_add_of_nonneg_right late.headers.2), hle.trans (le_add_of_nonneg_right late.abort.2)⟩

/-- An accepted payload is carried out as it states if and only if the timers and `fetch` take it. -/
theorem accepted_payloads_as_stated (h : acceptBody env newURL body = some (type, payload)) :
    AsStated newURL blockedPorts limits connect payload type ↔
      Feasible newURL blockedPorts limits connect payload type := by
  have hvalid := acceptBody_eq_some h
  cases type with
  | sleep => exact sleepsAsStated_iff hvalid
  | always_fail => exact Iff.rfl
  | deliver_webhook => exact deliversAsStated_iff hvalid

def sleepPayload (ms : ℚ) : Value := .object [("ms".toList, .number (.finite ms))]

def webhookPayload (timeoutMs : ℚ) : Value :=
  .object [("url".toList, .string "https://8.8.8.8/".toList),
    ("timeoutMs".toList, .number (.finite timeoutMs))]

/-- The body of a request for a job of the type. -/
def jobBody (type : Text) (payload : Value) : Value :=
  .object [("type".toList, .string type), ("payload".toList, payload)]

private def resolverUrl : Url where
  protocol := "https:".toList
  username := []
  password := []
  host := .ipv4 0x08080808#32
  port := none

/-- The limits of the `fetch` of Node 22. -/
private def nodeLimits : FetchLimits := ⟨10000, 300000⟩

private theorem acceptBody_sleep {ms : ℚ} (hms : 0 ≤ ms) :
    acceptBody env newURL (jobBody "sleep".toList (sleepPayload ms)) = some (.sleep, sleepPayload ms) := by
  have hvalid : validatePayload env newURL .sleep (some (sleepPayload ms)) = none :=
    validatePayload_sleep.mpr ⟨ms, rfl, hms⟩
  exact if_pos hvalid

private theorem acceptBody_webhook {timeoutMs : ℚ} (htimeout : 0 < timeoutMs) :
    acceptBody none (fun _ => some resolverUrl) (jobBody "deliver_webhook".toList (webhookPayload timeoutMs)) =
      some (.deliver_webhook, webhookPayload timeoutMs) := by
  have hvalid : validatePayload none (fun _ => some resolverUrl) .deliver_webhook
      (some (webhookPayload timeoutMs)) = none := by
    refine validatePayload_webhook.mpr ⟨_, resolverUrl, rfl, rfl, .inr rfl, by decide, ?_⟩
    exact validateTimeout_eq_none.mpr (.inr ⟨_, rfl, decide_eq_false htimeout.not_ge⟩)
  exact if_pos hvalid

/-- A sleep of a minute is carried out, and a delivery to a receiver that is connected at once with a
timeout of half a minute, but not one with a timeout of ten minutes. -/
theorem accepted_payloads_as_stated_examples :
    AsStated (fun _ => some resolverUrl) [25] nodeLimits 0 (sleepPayload 60000) .sleep ∧
      AsStated (fun _ => some resolverUrl) [25] nodeLimits 0 (webhookPayload 30000) .deliver_webhook ∧
      ¬ AsStated (fun _ => some resolverUrl) [25] nodeLimits 0 (webhookPayload 600000) .deliver_webhook := by
  refine ⟨?_, ?_, ?_⟩
  · refine (accepted_payloads_as_stated (acceptBody_sleep (by norm_num) : acceptBody none _ _ = _)).mpr ?_
    exact ⟨60000, rfl, .inr ⟨rfl, by norm_num [timeoutMax]⟩⟩
  · refine (accepted_payloads_as_stated (acceptBody_webhook (by norm_num))).mpr fun _ => ?_
    refine ⟨zero_le, ⟨30000, rfl, rfl, ?_, ?_⟩, _, resolverUrl, rfl, rfl, rfl⟩
    · norm_num [timeoutMax]
    · norm_num [nodeLimits]
  · rw [accepted_payloads_as_stated (acceptBody_webhook (by norm_num))]
    intro hfits
    have hnow : Within 0 (some (.number (.finite 600000))) := by simp [Within, JsNumber.isBelow]
    obtain ⟨-, ⟨q, hq, -, -, hlimit⟩, -⟩ := hfits hnow
    obtain rfl : (600000 : ℚ) = q := JsNumber.finite.inj (Value.number.inj hq)
    norm_num [nodeLimits] at hlimit

/-- A sleep of `2 ^ 31` milliseconds is accepted, and may return after one. -/
theorem long_sleep_returns_at_once :
    acceptBody none (fun _ => none) (jobBody "sleep".toList (sleepPayload (2 ^ 31))) =
        some (.sleep, sleepPayload (2 ^ 31)) ∧
      sleep (.finite (2 ^ 31)) 0 = 1 ∧
      ¬ AsStated (fun _ => none) [] nodeLimits 0 (sleepPayload (2 ^ 31)) .sleep := by
  refine ⟨acceptBody_sleep (by norm_num), ?_, ?_⟩
  · rw [sleep, timerDelay, if_neg (by norm_num [timeoutMax])]
    norm_num
  · have hvalid : validatePayload none (fun _ => none) .sleep (some (sleepPayload (2 ^ 31))) = none :=
      validatePayload_sleep.mpr ⟨2 ^ 31, rfl, by norm_num⟩
    rw [AsStated, sleepsAsStated_iff hvalid]
    rintro ⟨q, hms, hfits⟩
    obtain rfl : 2 ^ 31 = q := JsNumber.finite.inj (Value.number.inj (Option.some.inj hms))
    norm_num [timeoutMax] at hfits

end QueueFlow
