-- SUMMARY: The query parameters of GET /jobs: limit, status and cursor, as api/params.ts reads them.
import QueueFlow.Shared.Js
import QueueFlow.Shared.Types
import QueueFlow.Lib.Json
import QueueFlow.Lib.IsoTime

/-!
# Query parameters

A parameter is absent, one text, or something else where it was given more than once or with
brackets. What a client got wrong is a `BadRequest` with a message. `Runtime` holds what the
language and Postgres decide and the repository does not.
-/

namespace QueueFlow

open Bytes Json IsoTime

structure Runtime where
  /-- `Number(text)`. -/
  number : Text → JsNumber
  /-- Whether `Date.parse` reads a text that `toISOString` did not write. -/
  otherDate : Text → Bool
  /-- `$1::timestamptz`, in microseconds since 1970, or `none` where Postgres raises an error. -/
  timestamptz : Text → Option ℤ

/-- The value of one parameter in `req.query`. -/
inductive QueryValue where
  | undefined
  | single (text : Text)
  | other
  deriving DecidableEq, Repr

/-- The message of a `BadRequest`, or the value. -/
abbrev Parsed (α : Type) := Except Text α

variable {rt : Runtime} {raw : QueryValue}

/-! ## limit -/

def parseLimit (rt : Runtime) (raw : QueryValue) (fallback max : Nat) : Parsed Nat :=
  match raw with
  | .undefined => .ok fallback
  | .other => .error "limit must be a single value".toList
  | .single text =>
      match (rt.number text).finite? with
      | none => .error "limit must be a number".toList
      | some n =>
          if trim text = [] then .error "limit must be a number".toList
          else if n.den ≠ 1 then .error "limit must be a whole number".toList
          else if n < 1 then .error "limit must be at least 1".toList
          else .ok (min n.num.toNat max)

theorem parseLimit_bounds {fallback max n : Nat} (hfallback : 1 ≤ fallback ∧ fallback ≤ max)
    (h : parseLimit rt raw fallback max = .ok n) : 1 ≤ n ∧ n ≤ max := by
  unfold parseLimit at h
  split at h
  · cases h
    exact hfallback
  · cases h
  · split at h
    · cases h
    rename_i q _
    split at h
    · cases h
    split at h
    · cases h
    split at h
    · cases h
    rename_i hden hone
    cases h
    refine ⟨?_, min_le_right _ _⟩
    have hnum : q = q.num := (Rat.den_eq_one_iff q).mp (not_not.mp hden) |>.symm
    have hle : (1 : ℤ) ≤ q.num := by
      have := not_lt.mp hone
      rw [hnum] at this
      exact_mod_cast this
    exact le_min (by omega) (hfallback.1.trans hfallback.2)

/-! ## status -/

def JOB_STATUSES : List JobStatus := [.queued, .running, .retrying, .succeeded, .failed, .dead]

def parseStatus (raw : QueryValue) : Parsed (Option JobStatus) :=
  match raw with
  | .undefined => .ok none
  | .other => .error "status must be a single value".toList
  | .single text =>
      match JOB_STATUSES.find? fun s => s.text = text with
      | some s => .ok (some s)
      | none => .error ("unknown status '".toList ++ text ++ "' — expected one of ".toList ++
          join ", ".toList (JOB_STATUSES.map JobStatus.text))

/-! ## cursor -/

/-- Where the next page starts. -/
structure Cursor where
  t : Text
  id : Text
  deriving DecidableEq, Repr

def encodeCursor (c : Cursor) : Text :=
  base64urlEncode (utf8Encode (stringifyRecord [(['t'], c.t), (['i', 'd'], c.id)]))

/-- `Date.parse(text)` is a number. -/
def dateParses (rt : Runtime) (text : Text) : Bool :=
  (readISOString text).isSome || rt.otherDate text

def decodeCursor (rt : Runtime) (raw : QueryValue) : Parsed (Option Cursor) :=
  match raw with
  | .undefined => .ok none
  | .other => .error "cursor must be a single value".toList
  | .single text =>
      let parsed := do
        let json ← parse (utf8Decode (base64Decode text))
        let t ← (← json.field? ['t']).string?
        let id ← (← json.field? ['i', 'd']).string?
        if dateParses rt t then some (Cursor.mk t id) else none
      match parsed with
      | some c => .ok (some c)
      | none => .error "invalid cursor".toList

/-- A cursor that names an instant comes back as it was sent. -/
theorem decodeCursor_encodeCursor {c : Cursor} (h : dateParses rt c.t = true) :
    decodeCursor rt (.single (encodeCursor c)) = .ok (some c) := by
  have hparse : parse (utf8Decode (base64Decode (encodeCursor c))) =
      some (record [(['t'], c.t), (['i', 'd'], c.id)]) := by
    rw [encodeCursor, base64Decode_encode, utf8Decode_utf8Encode, parse_stringifyRecord]
  have ht : (record [(['t'], c.t), (['i', 'd'], c.id)]).field? ['t'] = some (.string c.t) := rfl
  have hid : (record [(['t'], c.t), (['i', 'd'], c.id)]).field? ['i', 'd'] =
      some (.string c.id) := rfl
  simp only [decodeCursor, hparse, Option.bind_eq_bind, Option.bind_some, ht, hid, string?, h,
    if_true]

theorem dateParses_toISOString {ms : Nat} {t : Text} (h : toISOString ms = some t) :
    dateParses rt t = true := by
  rw [dateParses, readISOString_toISOString h]
  rfl

end QueueFlow
