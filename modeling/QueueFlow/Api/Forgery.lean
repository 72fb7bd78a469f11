-- SUMMARY: Who may write: sessions cannot be forged just when the signing key is not the empty string.
import QueueFlow.Api.Auth

/-!
# Forged sessions

A requester who does not know the key of an HMAC presents no value with its signature but those that
the holders of the key have signed, and nobody finds two texts with one digest. `Sendable` says so of
a request; it does not bind a requester who knows the key. A `SESSION_SECRET` that is set but blank
leaves the empty string as the key, which everybody knows.
-/

namespace QueueFlow

open Bytes

/-- `Number` reads the decimal digits of the integers that a double holds exactly. -/
def ReadsDecimals (rt : Runtime) : Prop := ∀ n : Nat, n < 2 ^ 53 → rt.number (decimal n) = .finite n

/-- A token and its first two parts. -/
def Presents (req : HttpRequest) (token value signature : Text) : Prop :=
  readCookie req SESSION_COOKIE = some token ∧ ∃ rest, split '.' token = value :: signature :: rest

variable {p q : ApiProcess} {crypto : Crypto} {rt : Runtime} {now now' : Now} {req : HttpRequest}
  {knows : Text → Prop} {issued : List (ApiProcess × Now)} {token value signature : Text}

namespace ApiProcess

/-- What a requester can send who knows certain keys, after sessions have been issued. -/
structure Sendable (p : ApiProcess) (crypto : Crypto) (knows : Text → Prop)
    (issued : List (ApiProcess × Now)) (req : HttpRequest) : Prop where
  /-- A signature was made with the key. -/
  signatures : ¬ knows p.sessionSecret → ∀ token value signature, Presents req token value signature →
    signature = p.sign crypto value → ∃ q t, (q, t) ∈ issued ∧ q.sessionSecret = p.sessionSecret ∧
      value = expiry t
  /-- The digests that are compared are those of different texts only if they are different. -/
  digests : ∀ token value signature, Presents req token value signature →
    crypto.sha256 signature = crypto.sha256 (p.sign crypto value) → signature = p.sign crypto value
  keys : req.bearerToken ≠ [] → ∀ key ∈ p.apiKeys,
    crypto.sha256 req.bearerToken = crypto.sha256 key → req.bearerToken = key

/-- The token begins with a session that a process with the same secret issued and that has not
expired. -/
def Genuine (p : ApiProcess) (crypto : Crypto) (issued : List (ApiProcess × Now)) (now : Now)
    (req : HttpRequest) : Prop :=
  ∃ q t token, (q, t) ∈ issued ∧ q.sessionSecret = p.sessionSecret ∧
    now.ms < t.ms + SESSION_TTL_MS ∧ readCookie req SESSION_COOKIE = some token ∧
      q.issueSession crypto t <+: token

/-- Everybody knows the empty string, and nobody the secrets that are secrets. -/
structure Secrets (p : ApiProcess) (knows : Text → Prop) : Prop where
  blank : knows []
  configured : ∀ s, p.env.SESSION_SECRET = some s → trim s ≠ [] → ¬ knows (trim s)
  drawn : ¬ knows p.randomBytes.hex

/-! ## The characters of a session -/

/-- At such a character, no header or cookie is split or decoded, and no token is split. -/
private def Plain (c : Char) : Prop := c ≠ ';' ∧ c ≠ '%' ∧ c ≠ '.' ∧ isSpace c = false

private theorem plain_of_toNat {c : Char} (h : 48 ≤ c.toNat ∧ c.toNat ≤ 57 ∨
    65 ≤ c.toNat ∧ c.toNat ≤ 70 ∨ 97 ≤ c.toNat ∧ c.toNat ≤ 102) : Plain c := by
  refine ⟨?_, ?_, ?_, ?_⟩
  iterate 3
    · rintro rfl
      revert h
      decide
  · simp only [isSpace, Bool.or_eq_false_iff, Bool.and_eq_false_iff, decide_eq_false_iff_not]
    omega

private theorem plain_expiry {c : Char} (h : c ∈ expiry now) : Plain c := by
  have hdigit := isDigit_of_mem_decimal h
  simp only [Char.isDigit, Bool.and_eq_true, decide_eq_true_eq, ge_iff_le] at hdigit
  exact plain_of_toNat (.inl hdigit)

private theorem plain_hex {d : Digest} {c : Char} (h : c ∈ d.hex) : Plain c := by
  obtain ⟨n, hn⟩ := hexValue_of_mem_hexEncode h
  apply plain_of_toNat
  unfold hexValue at hn
  dsimp only at hn
  split at hn
  · omega
  split at hn
  · omega
  split at hn
  · omega
  · cases hn

private theorem plain_sign {c : Char} (h : c ∈ p.sign crypto value) : Plain c := plain_hex h

theorem trim_hex (d : Digest) : trim d.hex = d.hex := trim_of_forall fun _ h => (plain_hex h).2.2.2

/-! ## Sessions are read as they were issued -/

theorem split_issueSession : split '.' (p.issueSession crypto now) =
    [expiry now, p.sign crypto (expiry now)] := by
  rw [issueSession, split_append fun h => (plain_expiry h).2.2.1 rfl,
    split_of_not_mem fun h => (plain_sign h).2.2.1 rfl]

theorem mem_issueSession {c : Char} (h : c ∈ p.issueSession crypto now) :
    c ≠ ';' ∧ c ≠ '%' ∧ isSpace c = false := by
  rcases List.mem_append.mp h with h | h
  · exact ⟨(plain_expiry h).1, (plain_expiry h).2.1, (plain_expiry h).2.2.2⟩
  rcases List.mem_cons.mp h with rfl | h
  · decide
  · exact ⟨(plain_sign h).1, (plain_sign h).2.1, (plain_sign h).2.2.2⟩

/-- The cookie of a session is the session. -/
theorem readCookie_issueSession {authorization : Option Text} :
    readCookie ⟨authorization, some (SESSION_COOKIE ++ '=' :: p.issueSession crypto now)⟩
      SESSION_COOKIE = some (p.issueSession crypto now) := by
  have hsemicolon : ';' ∉ SESSION_COOKIE ++ '=' :: p.issueSession crypto now := by
    intro h
    rcases List.mem_append.mp h with h | h
    · revert h
      decide +kernel
    rcases List.mem_cons.mp h with h | h
    · cases h
    · exact (mem_issueSession h).1 rfl
  have hname : trim SESSION_COOKIE = SESSION_COOKIE := by decide +kernel
  have hvalue : trim (p.issueSession crypto now) = p.issueSession crypto now :=
    trim_of_forall fun _ h => (mem_issueSession h).2.2
  rw [readCookie, Option.getD_some, split_of_not_mem hsemicolon, findCookie,
    cutAt_append (by decide +kernel)]
  simp only [hname, hvalue, if_true]
  exact decodeURIComponent_of_not_mem fun h => (mem_issueSession h).2.1 rfl

private theorem isAfter_finite (n : Nat) : (JsNumber.finite n).isAfter now = true ↔ now.ms < n := by
  simp only [JsNumber.isAfter, decide_eq_true_eq, Nat.cast_lt]

private theorem expiry_ne_nil (now : Now) : expiry now ≠ [] := Nat.toDigits_ne_nil

/-- An expiry is an integer that a double holds. -/
private theorem expiry_lt (now : Now) : now.ms + SESSION_TTL_MS < 2 ^ 53 := by
  have hvalid := now.valid
  have httl : SESSION_TTL_MS = 43200000 := rfl
  omega

theorem number_expiry (hrt : ReadsDecimals rt) :
    rt.number (expiry now) = .finite ((now.ms + SESSION_TTL_MS : Nat) : ℚ) :=
  hrt _ (expiry_lt now)

theorem isAfter_expiry (hrt : ReadsDecimals rt) :
    (rt.number (expiry now)).isAfter now' = true ↔ now'.ms < now.ms + SESSION_TTL_MS := by
  rw [number_expiry hrt, isAfter_finite]

/-- A session is valid until it expires. -/
theorem isValidSession_issueSession (hrt : ReadsDecimals rt)
    (h : now'.ms < now.ms + SESSION_TTL_MS) :
    p.isValidSession crypto rt now' (p.issueSession crypto now) = true := by
  have hparts : ¬ (expiry now = [] ∨ p.sign crypto (expiry now) = []) :=
    not_or.mpr ⟨expiry_ne_nil now, Digest.hex_ne_nil _⟩
  have hsame : sameSecret crypto (p.sign crypto (expiry now)) (p.sign crypto (expiry now)) = true :=
    decide_eq_true rfl
  rw [isValidSession, split_issueSession]
  dsimp only
  rw [if_neg hparts, hsame]
  exact (isAfter_expiry hrt).mpr h

/-! ## What a request must carry -/

/-- A valid session presents a value with its signature, and the value is a time to come. -/
theorem presents_of_hasSession (h : p.hasSession crypto rt now req = some true) :
    ∃ token value signature, Presents req token value signature ∧
      crypto.sha256 signature = crypto.sha256 (p.sign crypto value) ∧
        (rt.number value).isAfter now = true := by
  obtain ⟨token, htoken, hvalid⟩ := Option.map_eq_some_iff.mp h
  have hvalid := ((Bool.and_eq_true _ _).mp hvalid).2
  unfold isValidSession at hvalid
  split at hvalid
  · rename_i value signature rest hsplit
    split at hvalid
    · cases hvalid
    split at hvalid
    · cases hvalid
    rename_i hsame
    exact ⟨token, value, signature, ⟨htoken, rest, hsplit⟩, by simpa [sameSecret] using hsame, hvalid⟩
  · cases hvalid

/-- Without a key, a request needs a session. -/
theorem hasSession_of_next (henabled : p.authDisabled = false)
    (hkeys : req.bearerToken ≠ [] → ∀ key ∈ p.apiKeys,
      crypto.sha256 req.bearerToken = crypto.sha256 key → req.bearerToken = key)
    (hnone : req.bearerToken ∉ p.apiKeys) (h : p.requireWrite crypto rt now req = .next) :
    p.hasSession crypto rt now req = some true := by
  have hunknown : ¬ (req.bearerToken ≠ [] && p.isKnownKey crypto req.bearerToken) = true := by
    intro hknown
    obtain ⟨hne, hknown⟩ := (Bool.and_eq_true _ _).mp hknown
    obtain ⟨digest, hdigest, heq⟩ := List.any_eq_true.mp hknown
    obtain ⟨key, hkey, rfl⟩ := List.mem_map.mp hdigest
    exact hnone (hkeys (of_decide_eq_true hne) key hkey (of_decide_eq_true heq) ▸ hkey)
  simp only [requireWrite, henabled, Bool.false_eq_true, if_false, if_neg hunknown] at h
  split at h
  · cases h
  · assumption
  · cases h

theorem presents_prefix (h : Presents req token value signature) :
    value ++ '.' :: signature <+: token := by
  obtain ⟨-, rest, hsplit⟩ := h
  have hjoin := join_split '.' token
  rw [hsplit] at hjoin
  cases rest with
  | nil => exact ⟨[], by rw [List.append_nil]; exact hjoin⟩
  | cons part rest => exact ⟨'.' :: join ['.'] (part :: rest), by simpa [join] using hjoin⟩

/-! ## Forgery -/

theorem sessionSecret_of_blank {s : Text} (hs : p.env.SESSION_SECRET = some s) (h : trim s = []) :
    p.sessionSecret = [] := by
  rw [sessionSecret, hs, Option.getD_some, h]

/-- The key is a secret unless the variable is set and blank. -/
theorem not_knows_sessionSecret (hsecrets : p.Secrets knows)
    (h : ∀ s, p.env.SESSION_SECRET = some s → trim s ≠ []) : ¬ knows p.sessionSecret := by
  cases hs : p.env.SESSION_SECRET with
  | none =>
      rw [sessionSecret, hs, Option.getD_none, trim_hex]
      exact hsecrets.drawn
  | some s =>
      rw [sessionSecret, hs, Option.getD_some]
      exact hsecrets.configured s hs (h s hs)

/-- What was signed with a secret key was issued. -/
theorem genuine_of_sendable (hrt : ReadsDecimals rt) (hsend : p.Sendable crypto knows issued req)
    (hkey : ¬ knows p.sessionSecret) (h : p.hasSession crypto rt now req = some true) :
    p.Genuine crypto issued now req := by
  obtain ⟨token, value, signature, hpresents, hdigest, hfuture⟩ := presents_of_hasSession h
  obtain rfl := hsend.digests _ _ _ hpresents hdigest
  obtain ⟨q, t, hissued, hsecret, rfl⟩ := hsend.signatures hkey _ _ _ hpresents rfl
  refine ⟨q, t, token, hissued, hsecret, (isAfter_expiry hrt).mp hfuture, hpresents.1, ?_⟩
  have hprefix := presents_prefix hpresents
  rwa [sign, ← hsecret] at hprefix

/-- A request with a session made with the key of the process. -/
def withSession (p : ApiProcess) (crypto : Crypto) (now : Now) : HttpRequest where
  authorization := none
  cookie := some (SESSION_COOKIE ++ '=' :: p.issueSession crypto now)

theorem hasSession_withSession (hrt : ReadsDecimals rt) :
    p.hasSession crypto rt now (withSession p crypto now) = some true := by
  have httl : SESSION_TTL_MS = 43200000 := rfl
  have hvalid : p.isValidSession crypto rt now (p.issueSession crypto now) = true :=
    isValidSession_issueSession hrt (by omega)
  have hne : p.issueSession crypto now ≠ [] := by
    rw [issueSession]
    exact List.append_ne_nil_of_right_ne_nil _ (List.cons_ne_nil _ _)
  simp only [hasSession, withSession, readCookie_issueSession, Option.map_some, hvalid, hne, ne_eq,
    not_false_eq_true, decide_true, Bool.and_true]

theorem requireWrite_withSession (hrt : ReadsDecimals rt) :
    p.requireWrite crypto rt now (withSession p crypto now) = .next := by
  have hbearer : (withSession p crypto now).bearerToken = [] := rfl
  rw [requireWrite, hasSession_withSession hrt, hbearer]
  split
  · rfl
  · rfl

theorem eq_of_presents_withSession (h : Presents (withSession p crypto now) token value signature) :
    value = expiry now ∧ signature = p.sign crypto (expiry now) := by
  obtain ⟨htoken, rest, hsplit⟩ := h
  rw [withSession, readCookie_issueSession] at htoken
  cases htoken
  rw [split_issueSession] at hsplit
  cases hsplit
  exact ⟨rfl, rfl⟩

/-- The holders of the key can make sessions, and so can everybody who knows it. -/
theorem sendable_withSession (h : knows p.sessionSecret ∨ (p, now) ∈ issued) :
    p.Sendable crypto knows issued (withSession p crypto now) where
  signatures hkey _ _ _ hpresents _ :=
    ⟨p, now, h.resolve_left hkey, rfl, (eq_of_presents_withSession hpresents).1⟩
  digests _ _ _ hpresents _ := by
    obtain ⟨rfl, rfl⟩ := eq_of_presents_withSession hpresents
    rfl
  keys hne := absurd rfl hne

/-- In every environment with write authentication, whoever writes without an API key holds a session
that was issued and has not expired, just when `SESSION_SECRET` is not set to a blank text. -/
theorem write_access_unforged (hrt : ReadsDecimals rt) (henabled : p.authDisabled = false)
    (hsecrets : p.Secrets knows) :
    (∀ issued now req, p.Sendable crypto knows issued req → req.bearerToken ∉ p.apiKeys →
      p.requireWrite crypto rt now req = .next → p.Genuine crypto issued now req) ↔
        ∀ s, p.env.SESSION_SECRET = some s → trim s ≠ [] := by
  constructor
  · intro h s hs hblank
    have hknown : knows p.sessionSecret := sessionSecret_of_blank hs hblank ▸ hsecrets.blank
    have hkeys : (withSession p crypto ⟨0, Nat.zero_le _⟩).bearerToken ∉ p.apiKeys := fun hmem =>
      of_decide_eq_true (List.mem_filter.mp hmem).2 rfl
    obtain ⟨q, t, token, hissued, -⟩ := h [] ⟨0, Nat.zero_le _⟩ _ (sendable_withSession (.inl hknown)) hkeys
      (requireWrite_withSession hrt)
    cases hissued
  · intro h issued now req hsend hnone hnext
    exact genuine_of_sendable hrt hsend (not_knows_sessionSecret hsecrets h)
      (hasSession_of_next henabled hsend.keys hnone hnext)

/-! ## Two environments -/

/-- Decimal digits are read, and nothing else. -/
private def digitsRuntime : Runtime where
  number t := if t ≠ [] ∧ t.all Char.isDigit then .finite (Nat.ofDigitChars 10 t 0) else .nan
  otherDate _ := false
  timestamptz _ := none

private theorem digitsRuntime_reads : ReadsDecimals digitsRuntime := by
  intro n _
  have hdigits : (decimal n).all Char.isDigit = true :=
    List.all_eq_true.mpr fun _ h => isDigit_of_mem_decimal h
  have hvalue : Nat.ofDigitChars 10 (decimal n) 0 = n := Nat.ofDigitChars_toDigits (by decide) (by decide)
  exact (if_pos ⟨Nat.toDigits_ne_nil, hdigits⟩).trans (by rw [hvalue])

/-- The first bytes of the texts stand for their digests. -/
private def firstBytes (bs : List UInt8) : Digest :=
  ⟨(bs ++ List.replicate 32 0).take 32, by simp⟩

private def firstBytesCrypto : Crypto where
  sha256 t := firstBytes (utf8Encode t)
  hmac key value := firstBytes (utf8Encode key ++ utf8Encode value)

/-- A process with one API key. -/
private def withSecret (secret : Option Text) : ApiProcess where
  env := ⟨some ['k', 'e', 'y'], none, secret⟩
  randomBytes := firstBytes []

private theorem secrets_withSecret {secret : Option Text} :
    (withSecret secret).Secrets (fun key => key = []) where
  blank := rfl
  configured _ _ h := h
  drawn := Digest.hex_ne_nil _

/-- The session that a process with a secret has issued opens the write routes. -/
theorem write_access_unforged_configured : ∃ issued now req,
    (withSecret (some ['s'])).Sendable firstBytesCrypto (fun key => key = []) issued req ∧
      req.bearerToken ∉ (withSecret (some ['s'])).apiKeys ∧
        (withSecret (some ['s'])).requireWrite firstBytesCrypto digitsRuntime now req = .next ∧
          (withSecret (some ['s'])).Genuine firstBytesCrypto issued now req := by
  have hsend : (withSecret (some ['s'])).Sendable firstBytesCrypto (fun key => key = [])
      [(withSecret (some ['s']), ⟨0, Nat.zero_le _⟩)]
      (withSession (withSecret (some ['s'])) firstBytesCrypto ⟨0, Nat.zero_le _⟩) :=
    sendable_withSession (.inr (List.mem_singleton.mpr rfl))
  have hnext : (withSecret (some ['s'])).requireWrite firstBytesCrypto digitsRuntime
      ⟨0, Nat.zero_le _⟩ (withSession (withSecret (some ['s'])) firstBytesCrypto ⟨0, Nat.zero_le _⟩) =
        .next := requireWrite_withSession digitsRuntime_reads
  exact ⟨_, _, _, hsend, by decide, hnext,
    (write_access_unforged digitsRuntime_reads (by decide) secrets_withSecret).mpr
      (by rintro _ ⟨⟩; decide) _ _ _ hsend (by decide) hnext⟩

/-- With `SESSION_SECRET: ""` and an API key configured, a session that nobody issued opens the write
routes. -/
theorem empty_secret_forged : ∃ now req, (withSecret (some [])).authDisabled = false ∧
    (withSecret (some [])).Sendable firstBytesCrypto (fun key => key = []) [] req ∧
      req.bearerToken ∉ (withSecret (some [])).apiKeys ∧
        (withSecret (some [])).requireWrite firstBytesCrypto digitsRuntime now req = .next ∧
          ¬ (withSecret (some [])).Genuine firstBytesCrypto [] now req :=
  ⟨⟨0, Nat.zero_le _⟩, withSession (withSecret (some [])) firstBytesCrypto ⟨0, Nat.zero_le _⟩, by decide,
    sendable_withSession (.inl rfl), by decide, requireWrite_withSession digitsRuntime_reads,
    by rintro ⟨_, _, _, ⟨⟩, -⟩⟩

end ApiProcess

end QueueFlow
