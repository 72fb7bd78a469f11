-- SUMMARY: Write authentication of api/auth.ts: the environment, session cookies and requireWrite.
import QueueFlow.Api.Params

/-!
# Authentication

A write needs an API key or a session cookie. Both are strings that the requester chooses. SHA-256
and HMAC are the functions of a `Crypto`; a request throws where `decodeURIComponent` does.
-/

namespace QueueFlow

open Bytes

/-- What SHA-256 and HMAC-SHA256 return. -/
abbrev Digest := { bytes : List UInt8 // bytes.length = 32 }

/-- `digest("hex")`. -/
def Digest.hex (d : Digest) : Text := hexEncode d.val

theorem Digest.hex_ne_nil (d : Digest) : d.hex ≠ [] := by
  obtain ⟨bytes, hbytes⟩ := d
  cases bytes with
  | nil => cases hbytes
  | cons b bytes => exact List.cons_ne_nil _ _

structure Crypto where
  /-- `createHash("sha256").update(value).digest()`. -/
  sha256 : Text → Digest
  /-- `createHmac("sha256", key).update(value).digest()`. -/
  hmac : Text → Text → Digest

/-- As many bytes of one value, which is the length of the text. -/
def lengthCrypto : Crypto where
  sha256 t := ⟨List.replicate 32 (UInt8.ofNat t.length), List.length_replicate⟩
  hmac _ value := ⟨List.replicate 32 (UInt8.ofNat value.length), List.length_replicate⟩

/-- `Date.now()`, which is at most the last instant of a `Date`. -/
structure Now where
  ms : Nat
  valid : ms ≤ 8640000000000000

/-! ## Configuration -/

/-- The variables of the environment; an empty one is not an absent one. -/
structure Env where
  API_KEYS : Option Text
  ADMIN_PASSWORD : Option Text
  SESSION_SECRET : Option Text
  deriving DecidableEq, Repr

/-- An API process, with what it drew at startup. -/
structure ApiProcess where
  env : Env
  randomBytes : Digest

namespace ApiProcess

def apiKeys (p : ApiProcess) : List Text :=
  ((split ',' (p.env.API_KEYS.getD [])).map trim).filter (· ≠ [])

def adminPassword (p : ApiProcess) : Text := trim (p.env.ADMIN_PASSWORD.getD [])

/-- `(process.env.SESSION_SECRET ?? randomBytes(32).toString("hex")).trim()`. -/
def sessionSecret (p : ApiProcess) : Text := trim (p.env.SESSION_SECRET.getD p.randomBytes.hex)

def keysConfigured (p : ApiProcess) : Bool := p.apiKeys ≠ []

def loginEnabled (p : ApiProcess) : Bool := p.adminPassword ≠ []

def authDisabled (p : ApiProcess) : Bool := !p.keysConfigured && !p.loginEnabled

end ApiProcess

/-! ## Secrets -/

def sameSecret (crypto : Crypto) (a b : Text) : Bool := crypto.sha256 a = crypto.sha256 b

def ApiProcess.isKnownKey (p : ApiProcess) (crypto : Crypto) (token : Text) : Bool :=
  (p.apiKeys.map crypto.sha256).any fun known => crypto.sha256 token = known

/-! ## Sessions -/

def SESSION_COOKIE : Text := "qf_session".toList

def SESSION_TTL_MS : Nat := 12 * 60 * 60 * 1000

/-- `n > now`. -/
def JsNumber.isAfter (n : JsNumber) (now : Now) : Bool :=
  match n with
  | .nan => false
  | .infinite negative => !negative
  | .finite q => now.ms < q

namespace ApiProcess

def sign (p : ApiProcess) (crypto : Crypto) (value : Text) : Text :=
  (crypto.hmac p.sessionSecret value).hex

/-- The expiry of a session that is issued now. -/
def expiry (now : Now) : Text := decimal (now.ms + SESSION_TTL_MS)

def issueSession (p : ApiProcess) (crypto : Crypto) (now : Now) : Text :=
  expiry now ++ '.' :: p.sign crypto (expiry now)

def isValidSession (p : ApiProcess) (crypto : Crypto) (rt : Runtime) (now : Now) (token : Text) :
    Bool :=
  match split '.' token with
  | expiry :: signature :: _ =>
      if expiry = [] ∨ signature = [] then false
      else if !sameSecret crypto signature (p.sign crypto expiry) then false
      else (rt.number expiry).isAfter now
  | _ => false

end ApiProcess

/-! ## Requests -/

/-- The headers that decide about access. -/
structure HttpRequest where
  authorization : Option Text
  cookie : Option Text
  deriving DecidableEq, Repr

/-- The first cookie of that name among the parts of the header. -/
def findCookie (name : Text) : List Text → Option Text
  | [] => some []
  | part :: parts =>
      match cutAt '=' part with
      | none => findCookie name parts
      | some (key, value) =>
          if trim key = name then decodeURIComponent (trim value) else findCookie name parts

/-- The value of a cookie, empty where there is none; `none` where reading it throws. -/
def readCookie (req : HttpRequest) (name : Text) : Option Text :=
  findCookie name (split ';' (req.cookie.getD []))

/-- What stands behind `Bearer`. -/
def HttpRequest.bearerToken (req : HttpRequest) : Text :=
  match afterPrefix "Bearer ".toList (req.authorization.getD []) with
  | some rest => trim rest
  | none => []

inductive Access where
  /-- `next()`. -/
  | next
  /-- 401, `{ error }`. -/
  | unauthorized (message : Text)
  /-- A `URIError`, which the error handler answers with 500. -/
  | throws
  deriving DecidableEq, Repr

namespace ApiProcess

variable (p : ApiProcess) (crypto : Crypto) (rt : Runtime) (now : Now) (req : HttpRequest)

def hasSession : Option Bool :=
  (readCookie req SESSION_COOKIE).map fun token =>
    token ≠ [] && p.isValidSession crypto rt now token

def requireWrite : Access :=
  if p.authDisabled then .next
  else if req.bearerToken ≠ [] && p.isKnownKey crypto req.bearerToken then .next
  else
    match p.hasSession crypto rt now req with
    | none => .throws
    | some true => .next
    | some false => .unauthorized "authentication required".toList

end ApiProcess

end QueueFlow
