-- SUMMARY: requireWrite against its specification: who may write, and that everybody else is refused just when the session cookie can be decoded.
import QueueFlow.Api.Forgery

/-!
# Write access

`MayWrite` says who may write, in terms of the list of cookies that a header stands for. `requireWrite`
decides it, except that decoding the cookie may throw before there is a decision.
-/

namespace QueueFlow

open Bytes

/-! ## Cookies -/

/-- The cookies of a header with their names, in order, as they were sent. -/
def cookies (header : Text) : List (Text × Text) :=
  (split ';' header).filterMap fun part =>
    (cutAt '=' part).map fun cut => (trim cut.1, trim cut.2)

/-- The value of the first cookie of that name, as it was sent. -/
def HttpRequest.firstCookie (req : HttpRequest) (name : Text) : Option Text :=
  ((cookies (req.cookie.getD [])).find? fun c => c.1 = name).map (·.2)

theorem findCookie_eq (name : Text) (parts : List Text) : findCookie name parts =
    (((parts.filterMap fun part => (cutAt '=' part).map fun cut => (trim cut.1, trim cut.2)).find?
      fun c => c.1 = name).map (·.2)).elim (some []) decodeURIComponent := by
  induction parts with
  | nil => rfl
  | cons part parts ih =>
    rw [findCookie]
    cases hcut : cutAt '=' part with
    | none =>
      rw [List.filterMap_cons_none (by rw [hcut]; rfl)]
      exact ih
    | some cut =>
      rw [List.filterMap_cons_some (b := (trim cut.1, trim cut.2)) (by rw [hcut]; rfl)]
      by_cases hname : trim cut.1 = name
      · simp [hname]
      · simp [hname, ih]

/-- Reading a cookie decodes its value. -/
theorem readCookie_eq (req : HttpRequest) (name : Text) :
    readCookie req name = (req.firstCookie name).elim (some []) decodeURIComponent :=
  findCookie_eq name _

namespace ApiProcess

variable {p : ApiProcess} {crypto : Crypto} {rt : Runtime} {now : Now} {req : HttpRequest}
  {token : Text}

/-! ## The specification -/

/-- The token carries an expiry that is signed and still to come. -/
def SignedSession (p : ApiProcess) (crypto : Crypto) (rt : Runtime) (now : Now) (token : Text) : Prop :=
  ∃ expiry signature rest, split '.' token = expiry :: signature :: rest ∧ expiry ≠ [] ∧
    signature = p.sign crypto expiry ∧ (rt.number expiry).isAfter now = true

/-- Authentication is disabled, or the token is a key, or the first session cookie is a session. -/
def MayWrite (p : ApiProcess) (crypto : Crypto) (rt : Runtime) (now : Now) (req : HttpRequest) : Prop :=
  p.authDisabled = true ∨ req.bearerToken ∈ p.apiKeys ∨
    ∃ value token, req.firstCookie SESSION_COOKIE = some value ∧
      decodeURIComponent value = some token ∧ p.SignedSession crypto rt now token

/-- SHA-256 has no collision among the texts that the request makes the process compare. -/
structure NoCollision (p : ApiProcess) (crypto : Crypto) (req : HttpRequest) : Prop where
  keys : ∀ key ∈ p.apiKeys, crypto.sha256 req.bearerToken = crypto.sha256 key → req.bearerToken = key
  signatures : ∀ value token expiry signature rest, req.firstCookie SESSION_COOKIE = some value →
    decodeURIComponent value = some token → split '.' token = expiry :: signature :: rest →
      crypto.sha256 signature = crypto.sha256 (p.sign crypto expiry) → signature = p.sign crypto expiry

/-- Whoever may write is let through, and everybody else gets a 401. -/
def DecidesExactly (p : ApiProcess) (crypto : Crypto) (rt : Runtime) (now : Now) (req : HttpRequest) :
    Prop :=
  (p.requireWrite crypto rt now req = .next ↔ p.MayWrite crypto rt now req) ∧
    (¬ p.MayWrite crypto rt now req →
      p.requireWrite crypto rt now req = .unauthorized "authentication required".toList)

/-! ## The parts of the decision -/

theorem isKnownKey_iff (hcollision : p.NoCollision crypto req) :
    (req.bearerToken ≠ [] && p.isKnownKey crypto req.bearerToken) = true ↔
      req.bearerToken ∈ p.apiKeys := by
  simp only [isKnownKey, Bool.and_eq_true, decide_eq_true_eq, List.any_map, List.any_eq_true,
    Function.comp_apply]
  constructor
  · rintro ⟨-, key, hkey, hdigest⟩
    exact hcollision.keys key hkey hdigest ▸ hkey
  · intro hmem
    exact ⟨of_decide_eq_true (List.mem_filter.mp hmem).2, _, hmem, rfl⟩

theorem isValidSession_iff
    (hcollision : ∀ expiry signature rest, split '.' token = expiry :: signature :: rest →
      crypto.sha256 signature = crypto.sha256 (p.sign crypto expiry) →
        signature = p.sign crypto expiry) :
    p.isValidSession crypto rt now token = true ↔ p.SignedSession crypto rt now token := by
  unfold isValidSession SignedSession
  split
  · rename_i expiry signature rest hsplit
    constructor
    · intro h
      split at h
      · cases h
      rename_i hparts
      split at h
      · cases h
      rename_i hsame
      have hsame : crypto.sha256 signature = crypto.sha256 (p.sign crypto expiry) := by
        simpa [sameSecret] using hsame
      exact ⟨expiry, signature, rest, hsplit, (not_or.mp hparts).1, hcollision _ _ _ hsplit hsame, h⟩
    · rintro ⟨expiry', signature', rest', heq, hexpiry, hsign, hafter⟩
      rw [hsplit] at heq
      cases heq
      have hsignature : signature ≠ [] := hsign ▸ Digest.hex_ne_nil _
      have hsame : sameSecret crypto signature (p.sign crypto expiry) = true :=
        decide_eq_true (congrArg crypto.sha256 hsign)
      rw [if_neg (not_or.mpr ⟨hexpiry, hsignature⟩), hsame]
      exact hafter
  · rename_i hnone
    refine ⟨fun h => (by cases h), ?_⟩
    rintro ⟨expiry, signature, rest, hsplit, -⟩
    exact absurd hsplit (hnone _ _ _)

theorem hasSession_of_none (h : req.firstCookie SESSION_COOKIE = none) :
    p.hasSession crypto rt now req = some false := by
  rw [hasSession, readCookie_eq, h]
  rfl

theorem hasSession_of_some {value : Text} (h : req.firstCookie SESSION_COOKIE = some value) :
    p.hasSession crypto rt now req = (decodeURIComponent value).map fun token =>
      token ≠ [] && p.isValidSession crypto rt now token := by
  rw [hasSession, readCookie_eq, h, Option.elim_some]

theorem ne_nil_of_signedSession (h : p.SignedSession crypto rt now token) : token ≠ [] := by
  rintro rfl
  obtain ⟨expiry, signature, rest, hsplit, -⟩ := h
  cases hsplit

/-- Where the first session cookie can be decoded, the session decides. -/
theorem hasSession_iff (hcollision : p.NoCollision crypto req) {value : Text}
    (h : req.firstCookie SESSION_COOKIE = some value) (hdecode : decodeURIComponent value = some token) :
    p.hasSession crypto rt now req = some true ↔ p.SignedSession crypto rt now token := by
  have hvalid : p.isValidSession crypto rt now token = true ↔ p.SignedSession crypto rt now token :=
    isValidSession_iff fun expiry signature rest =>
      hcollision.signatures value token expiry signature rest h hdecode
  rw [hasSession_of_some h, hdecode, Option.map_some, Option.some.injEq, Bool.and_eq_true,
    decide_eq_true_eq, hvalid]
  exact ⟨fun hboth => hboth.2, fun hsigned => ⟨ne_nil_of_signedSession hsigned, hsigned⟩⟩

/-! ## The decision -/

theorem decides_of_next (hnext : p.requireWrite crypto rt now req = .next)
    (hmay : p.MayWrite crypto rt now req) : p.DecidesExactly crypto rt now req :=
  ⟨iff_of_true hnext hmay, fun hno => absurd hmay hno⟩

theorem not_decides_of_throws (hthrows : p.requireWrite crypto rt now req = .throws)
    (hno : ¬ p.MayWrite crypto rt now req) : ¬ p.DecidesExactly crypto rt now req := by
  intro h
  rw [h.2 hno] at hthrows
  cases hthrows

section

variable (hdisabled : ¬ p.authDisabled = true) (hunknown : req.bearerToken ∉ p.apiKeys)

include hdisabled hunknown

/-- Without a key, what is left is the session. -/
theorem mayWrite_iff : p.MayWrite crypto rt now req ↔
    ∃ value token, req.firstCookie SESSION_COOKIE = some value ∧
      decodeURIComponent value = some token ∧ p.SignedSession crypto rt now token :=
  ⟨fun h => (h.resolve_left hdisabled).resolve_left hunknown, fun h => .inr (.inr h)⟩

variable (hcollision : p.NoCollision crypto req)

include hcollision

theorem requireWrite_throws (h : p.hasSession crypto rt now req = none) :
    p.requireWrite crypto rt now req = .throws := by
  rw [requireWrite, if_neg hdisabled, if_neg fun h => hunknown ((isKnownKey_iff hcollision).mp h), h]

theorem decides_of_session {b : Bool} (h : p.hasSession crypto rt now req = some b)
    (hb : b = true ↔ p.MayWrite crypto rt now req) : p.DecidesExactly crypto rt now req := by
  have hdecision : p.requireWrite crypto rt now req =
      if b then .next else .unauthorized "authentication required".toList := by
    rw [requireWrite, if_neg hdisabled, if_neg fun h => hunknown ((isKnownKey_iff hcollision).mp h), h]
    cases b with
    | true => rfl
    | false => rfl
  cases b with
  | true => exact decides_of_next hdecision (hb.mp rfl)
  | false =>
    have hno : ¬ p.MayWrite crypto rt now req := fun hmay => absurd (hb.mpr hmay) Bool.false_ne_true
    refine ⟨iff_of_false ?_ hno, fun _ => hdecision⟩
    rw [hdecision]
    rintro ⟨⟩

theorem decides_iff_of_cookie {value : Text} (h : req.firstCookie SESSION_COOKIE = some value) :
    p.DecidesExactly crypto rt now req ↔ (decodeURIComponent value).isSome = true := by
  have hmay : p.MayWrite crypto rt now req ↔
      ∃ token, decodeURIComponent value = some token ∧ p.SignedSession crypto rt now token := by
    simp only [mayWrite_iff hdisabled hunknown, h, Option.some.injEq, exists_and_left, exists_eq_left']
  cases hdecode : decodeURIComponent value with
  | none =>
    refine iff_of_false (not_decides_of_throws
      (requireWrite_throws hdisabled hunknown hcollision ?_) ?_) (by decide)
    · rw [hasSession_of_some h, hdecode, Option.map_none]
    · rw [hmay, hdecode]
      rintro ⟨token, ⟨⟩, -⟩
  | some token =>
    have hsession : p.hasSession crypto rt now req = some true ↔ p.SignedSession crypto rt now token :=
      hasSession_iff hcollision h hdecode
    refine iff_of_true (decides_of_session hdisabled hunknown hcollision
      ((hasSession_of_some h).trans (congrArg _ hdecode)) ?_) rfl
    rw [hmay, hdecode]
    simp only [Option.some.injEq, exists_eq_left']
    rw [← hsession, hasSession_of_some h, hdecode, Option.map_some, Option.some.injEq]

end

/-- A request is decided as it should be just when authentication is disabled, the request has a key,
or its first session cookie, where it has one, can be decoded. -/
theorem decides_exactly_iff (hcollision : p.NoCollision crypto req) :
    p.DecidesExactly crypto rt now req ↔ p.authDisabled = true ∨ req.bearerToken ∈ p.apiKeys ∨
      ∀ value, req.firstCookie SESSION_COOKIE = some value →
        (decodeURIComponent value).isSome = true := by
  by_cases hdisabled : p.authDisabled = true
  · have hnext : p.requireWrite crypto rt now req = .next := by rw [requireWrite, if_pos hdisabled]
    exact iff_of_true (decides_of_next hnext (.inl hdisabled)) (.inl hdisabled)
  by_cases hknown : req.bearerToken ∈ p.apiKeys
  · have hnext : p.requireWrite crypto rt now req = .next := by
      rw [requireWrite, if_neg hdisabled, if_pos ((isKnownKey_iff hcollision).mpr hknown)]
    exact iff_of_true (decides_of_next hnext (.inr (.inl hknown))) (.inr (.inl hknown))
  simp only [hdisabled, hknown, Bool.false_eq_true, false_or]
  cases hcookie : req.firstCookie SESSION_COOKIE with
  | none =>
    have hsession : p.hasSession crypto rt now req = some false := hasSession_of_none hcookie
    refine iff_of_true (decides_of_session hdisabled hknown hcollision hsession ?_) (by rintro _ ⟨⟩)
    rw [mayWrite_iff hdisabled hknown, hcookie]
    simp
  | some value =>
    rw [decides_iff_of_cookie hdisabled hknown hcollision hcookie]
    simp only [Option.some.injEq, forall_eq']

/-! ## Two requests -/

private def nanRuntime : Runtime := ⟨fun _ => .nan, fun _ => false, fun _ => none⟩

private def startOfTime : Now := ⟨0, Nat.zero_le _⟩

/-- A process with one API key. -/
private def withKey : ApiProcess where
  env := ⟨some "key".toList, none, none⟩
  randomBytes := lengthCrypto.sha256 []

private def keyRequest : HttpRequest := ⟨some "Bearer key".toList, none⟩

/-- The session cookie is a lone percent sign. -/
private def percentRequest : HttpRequest := ⟨none, some "qf_session=%".toList⟩

private theorem apiKeys_withKey : withKey.apiKeys = ["key".toList] := by decide +kernel

theorem decides_exactly_iff_key :
    withKey.DecidesExactly lengthCrypto nanRuntime startOfTime keyRequest := by
  have hkey : keyRequest.bearerToken ∈ withKey.apiKeys := by decide +kernel
  have hnone : keyRequest.firstCookie SESSION_COOKIE = none := by decide +kernel
  refine (decides_exactly_iff ⟨fun key hmem _ => ?_, fun value token expiry signature rest h => ?_⟩).mpr
    (.inr (.inl hkey))
  · rw [apiKeys_withKey, List.mem_singleton] at hmem hkey
    rw [hmem, hkey]
  · rw [hnone] at h
    cases h

/-- The request ends in the error handler instead of a 401. -/
theorem percent_cookie_throws : withKey.NoCollision lengthCrypto percentRequest ∧
    withKey.requireWrite lengthCrypto nanRuntime startOfTime percentRequest = .throws ∧
      ¬ withKey.DecidesExactly lengthCrypto nanRuntime startOfTime percentRequest := by
  have hcookie : percentRequest.firstCookie SESSION_COOKIE = some ['%'] := by decide +kernel
  have hcollision : withKey.NoCollision lengthCrypto percentRequest := by
    refine ⟨fun key hmem hdigest => ?_, fun value token expiry signature rest h hdecode => ?_⟩
    · rw [apiKeys_withKey, List.mem_singleton] at hmem
      rw [hmem] at hdigest
      exact absurd hdigest (by decide +kernel)
    · rw [hcookie] at h
      cases h
      cases hdecode
  have hno : ¬ withKey.MayWrite lengthCrypto nanRuntime startOfTime percentRequest := by
    rintro (h | h | ⟨value, token, hvalue, hdecode, -⟩)
    · exact absurd h (by decide +kernel)
    · exact absurd h (by decide +kernel)
    · rw [hcookie] at hvalue
      cases hvalue
      cases hdecode
  exact ⟨hcollision, rfl, not_decides_of_throws rfl hno⟩

end ApiProcess

end QueueFlow
