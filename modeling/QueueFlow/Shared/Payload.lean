-- SUMMARY: Job types and the check of their payloads: isJobType, blockedTarget and validatePayload of shared/types.ts.
import QueueFlow.Lib.Address
import QueueFlow.Shared.Js

/-!
# Payloads

What a client sends is a JSON value, here as `JSON.parse` returns it. `new URL` is a parameter; what
it returns is a `Url`, whose host is one of the kinds that the URL standard has, so that the text
that `hostname` gives is the standard's form of it.
-/

namespace QueueFlow

/-! ## Values -/

/-- What `JSON.parse` returns. -/
inductive Value where
  | null
  | bool (b : Bool)
  | number (n : JsNumber)
  | string (s : Text)
  | array (items : List Value)
  | object (fields : List (Text × Value))

/-- The value of a key, or `undefined`. A key that is given twice has the last value. -/
def Value.field? (key : Text) : Value → Option Value
  | .object fields => (fields.reverse.find? fun f => f.1 = key).map (·.2)
  | _ => none

/-- `typeof value === "object" && value !== null` -/
def Value.isObject : Value → Bool
  | .array _ | .object _ => true
  | _ => false

/-- `n < 0` -/
def JsNumber.isNegative : JsNumber → Bool
  | .nan => false
  | .infinite negative => negative
  | .finite q => q < 0

/-- `n <= 0` -/
def JsNumber.isNotPositive : JsNumber → Bool
  | .nan => false
  | .infinite negative => negative
  | .finite q => q ≤ 0

/-! ## `JOB_TYPES` -/

inductive JobType where
  | sleep
  | always_fail
  | deliver_webhook
  deriving DecidableEq, Repr

def JOB_TYPES : List (Text × JobType) :=
  [("sleep".toList, .sleep), ("always_fail".toList, .always_fail),
    ("deliver_webhook".toList, .deliver_webhook)]

/-- The type that the value names; a request without one has `undefined` here. -/
def isJobType : Option Value → Option JobType
  | some (.string s) => JOB_TYPES.lookup s
  | _ => none

/-! ## Hosts -/

/-- The last label of a host name, a dot at its end left aside. -/
def lastLabel (name : Text) : Text :=
  match (split '.' name).reverse with
  | [] :: label :: _ => label
  | label :: _ => label
  | [] => []

/-- A host that ends so is read as an address, or rejected. -/
def endsInNumber (name : Text) : Bool :=
  match lastLabel name with
  | [] => false
  | '0' :: 'x' :: digits => digits.all fun c => (Bytes.hexValue c).isSome
  | label => label.all Char.isDigit

/-- A host name as the parser leaves it. -/
structure Domain where
  name : Text
  nonempty : name ≠ []
  /-- It has none of the characters that a host may not have, and is in lower case. -/
  plain : ∀ c ∈ name, c ≠ ':' ∧ c ≠ '[' ∧ c ≠ ']' ∧ c.toLower = c
  notNumber : endsInNumber name = false

inductive Host where
  | domain (d : Domain)
  | ipv4 (a : BitVec 32)
  | ipv6 (a : BitVec 128)
  /-- The host, possibly empty, of a URL whose scheme is not one of the web's. -/
  | other (t : Text)

def Host.text : Host → Text
  | .domain d => d.name
  | .ipv4 a => Address.dotted a
  | .ipv6 a => '[' :: (Address.compressed a ++ [']'])
  | .other t => t

structure Url where
  protocol : Text
  username : Text
  password : Text
  host : Host
  /-- `none` for the default port of the scheme. -/
  port : Option Nat

def Url.hostname (u : Url) : Text := u.host.text

/-! ## `blockedTarget` -/

/-- `ALLOW_PRIVATE_TARGETS`, given the variable of the environment. -/
def allowPrivateTargets (ALLOW_PRIVATE_WEBHOOK_TARGETS : Option Text) : Bool :=
  ALLOW_PRIVATE_WEBHOOK_TARGETS = some "true".toList

/-- `t.toLowerCase()`; a host name has no characters outside ASCII. -/
def toLowerCase (t : Text) : Text := t.map Char.toLower

/-- `t.replace(/^\[|]$/g, "")` -/
def stripBrackets (t : Text) : Text :=
  let t := if t.head? = some '[' then t.tail else t
  if t.getLast? = some ']' then t.dropLast else t

/-- `\d{1,3}` -/
def isOctet (t : Text) : Bool := 1 ≤ t.length && t.length ≤ 3 && t.all Char.isDigit

/-- `/^(\d{1,3})\.(\d{1,3})\.(\d{1,3})\.(\d{1,3})$/`, and the first two groups as numbers. -/
def v4 (h : Text) : Option (Nat × Nat) :=
  match split '.' h with
  | [a, b, c, d] =>
      if isOctet a && isOctet b && isOctet c && isOctet d then
        some (Nat.ofDigitChars 10 a 0, Nat.ofDigitChars 10 b 0)
      else none
  | _ => none

def blockedTarget (env : Option Text) (host : Text) : Option Text :=
  if allowPrivateTargets env then none else
  let h := stripBrackets (toLowerCase host)
  if h = "localhost".toList || ".localhost".toList.isSuffixOf h || ".local".toList.isSuffixOf h then
    some "loopback".toList
  else if h = "::1".toList || h = "::".toList || "fe80:".toList.isPrefixOf h ||
      "fc".toList.isPrefixOf h || "fd".toList.isPrefixOf h then
    some "private IPv6".toList
  else
    match v4 h with
    | none => none
    | some (a, b) =>
        if a = 127 ∨ a = 0 then some "loopback".toList
        else if a = 10 then some "private network".toList
        else if a = 192 ∧ b = 168 then some "private network".toList
        else if a = 172 ∧ 16 ≤ b ∧ b ≤ 31 then some "private network".toList
        else if a = 169 ∧ b = 254 then some "link-local / cloud metadata".toList
        else none

/-! ## `validatePayload` -/

/-- The check of a sleep's payload. -/
def validateSleep (payload : Value) : Option Text :=
  match payload.field? "ms".toList with
  | some (.number n) =>
      if n.finite?.isNone || n.isNegative then
        some "sleep requires payload.ms (a non-negative number)".toList
      else none
  | _ => some "sleep requires payload.ms (a non-negative number)".toList

/-- The check of the timeout of a delivery, which may be left out. -/
def validateTimeout : Option Value → Option Text
  | none => none
  | some (.number n) =>
      if n.isNotPositive then some "deliver_webhook payload.timeoutMs must be a positive number".toList
      else none
  | some _ => some "deliver_webhook payload.timeoutMs must be a positive number".toList

/-- The check of a delivery's payload. -/
def validateWebhook (env : Option Text) (newURL : Text → Option Url) (payload : Value) : Option Text :=
  match payload.field? "url".toList with
  | some (.string url) =>
      match newURL url with
      | none => some "deliver_webhook payload.url is not a valid URL".toList
      | some parsed =>
          if parsed.protocol ≠ "http:".toList ∧ parsed.protocol ≠ "https:".toList then
            some "deliver_webhook payload.url must be http or https".toList
          else
            match blockedTarget env parsed.hostname with
            | some blocked =>
                some ("deliver_webhook payload.url points at a ".toList ++ blocked ++
                  " address, which this server will not call".toList)
            | none => validateTimeout (payload.field? "timeoutMs".toList)
  | _ => some "deliver_webhook requires payload.url".toList

/-- The error, or `none` for a payload that is accepted. -/
def validatePayload (env : Option Text) (newURL : Text → Option Url) (type : JobType)
    (payload : Option Value) : Option Text :=
  match payload with
  | none => some "payload must be an object".toList
  | some value =>
      if value.isObject then
        match type with
        | .sleep => validateSleep value
        | .always_fail => none
        | .deliver_webhook => validateWebhook env newURL value
      else some "payload must be an object".toList

/-! ## What is accepted -/

variable {env : Option Text} {newURL : Text → Option Url} {payload : Value}

theorem isObject_of_field? {key : Text} {v : Value} (h : payload.field? key = some v) :
    payload.isObject = true := by
  cases payload with
  | array items => rfl
  | object fields => rfl
  | _ => cases h

theorem validatePayload_sleep : validatePayload env newURL .sleep (some payload) = none ↔
    ∃ q, payload.field? "ms".toList = some (.number (.finite q)) ∧ 0 ≤ q := by
  constructor
  · intro h
    simp only [validatePayload] at h
    split at h
    · unfold validateSleep at h
      split at h
      · rename_i n hms
        split at h
        · cases h
        rename_i hn
        cases n with
        | finite q => exact ⟨q, hms, not_lt.mp fun hq => hn (decide_eq_true hq)⟩
        | _ => exact absurd rfl hn
      · cases h
    · cases h
  · rintro ⟨q, hms, hq⟩
    have hneg : (JsNumber.finite q).isNegative = false := decide_eq_false (not_lt.mpr hq)
    simp only [validatePayload, isObject_of_field? hms, if_true, validateSleep, hms, hneg,
      JsNumber.finite?, Option.isNone_some, Bool.or_self, Bool.false_eq_true, if_false]

theorem validateTimeout_eq_none {timeoutMs : Option Value} : validateTimeout timeoutMs = none ↔
    timeoutMs = none ∨ ∃ n, timeoutMs = some (.number n) ∧ n.isNotPositive = false := by
  constructor
  · intro h
    unfold validateTimeout at h
    split at h
    · exact .inl rfl
    · rename_i n
      split at h
      · cases h
      · rename_i hn
        exact .inr ⟨n, rfl, Bool.eq_false_iff.mpr hn⟩
    · cases h
  · rintro (rfl | ⟨n, rfl, hn⟩)
    · rfl
    · simp only [validateTimeout, hn, Bool.false_eq_true, if_false]

theorem validatePayload_webhook : validatePayload env newURL .deliver_webhook (some payload) = none ↔
    ∃ url u, payload.field? "url".toList = some (.string url) ∧ newURL url = some u ∧
      (u.protocol = "http:".toList ∨ u.protocol = "https:".toList) ∧
      blockedTarget env u.hostname = none ∧ validateTimeout (payload.field? "timeoutMs".toList) = none := by
  constructor
  · intro h
    simp only [validatePayload] at h
    split at h
    · unfold validateWebhook at h
      split at h
      · rename_i url hurl
        split at h
        · cases h
        rename_i u hu
        split at h
        · cases h
        rename_i hweb
        split at h
        · cases h
        rename_i hblocked
        exact ⟨url, u, hurl, hu, or_iff_not_and_not.mpr hweb, hblocked, h⟩
      · cases h
    · cases h
  · rintro ⟨url, u, hurl, hu, hweb, hblocked, htimeout⟩
    have hweb : ¬ (u.protocol ≠ "http:".toList ∧ u.protocol ≠ "https:".toList) :=
      or_iff_not_and_not.mp hweb
    simp only [validatePayload, isObject_of_field? hurl, if_true, validateWebhook, hurl, hu, if_neg hweb,
      hblocked, htimeout]

end QueueFlow
