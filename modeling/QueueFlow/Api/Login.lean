-- SUMMARY: POST /auth/login with the throttle of api/auth.ts: how many wrong passwords an IP may have compared.
import QueueFlow.Api.Auth

/-!
# Login

The handler and its three functions share a map from IPs to failed attempts. A window opens with the
first failure of an IP, and is over for the first request that comes more than fifteen minutes later.
The handler runs without an `await`, but it may ask for the time up to three times.
-/

namespace QueueFlow

/-- The answers of `Date.now()` while one request is handled, in milliseconds. -/
structure Readings where
  /-- In `isThrottled`. -/
  throttled : Nat
  /-- In the test of `recordFailure`. -/
  failed : Nat
  /-- For `firstAt`. -/
  first : Nat
  throttled_le : throttled ≤ failed
  failed_le : failed ≤ first
  deriving DecidableEq, Repr

structure LoginRequest where
  /-- `req.ip ?? "unknown"`. -/
  ip : Text
  /-- The field of the body, where it is a string. -/
  password : Option Text
  date : Readings
  deriving DecidableEq, Repr

inductive LoginResponse where
  /-- 429, `{ error }`. -/
  | throttled (message : Text)
  /-- 401, `{ error }`. -/
  | refused (message : Text)
  /-- 200, `{ ok: true }`, with a session cookie. -/
  | signedIn
  deriving DecidableEq, Repr

def LoginResponse.isRefused : LoginResponse → Bool
  | .refused _ => true
  | _ => false

/-! ## The throttle -/

def MAX_ATTEMPTS : Nat := 5

def ATTEMPT_WINDOW_MS : Nat := 15 * 60 * 1000

structure Attempts where
  count : Nat
  firstAt : Nat
  deriving DecidableEq, Repr

abbrev AttemptMap := Text → Option Attempts

/-- `Date.now() - entry.firstAt > ATTEMPT_WINDOW_MS`. -/
def Attempts.isOver (entry : Attempts) (now : Nat) : Bool := entry.firstAt + ATTEMPT_WINDOW_MS < now

namespace Throttle

def isThrottled (attempts : AttemptMap) (ip : Text) (now : Nat) : AttemptMap × Bool :=
  match attempts ip with
  | none => (attempts, false)
  | some entry =>
      if entry.isOver now then (Function.update attempts ip none, false)
      else (attempts, MAX_ATTEMPTS ≤ entry.count)

def recordFailure (attempts : AttemptMap) (ip : Text) (now first : Nat) : AttemptMap :=
  match attempts ip with
  | none => Function.update attempts ip (some ⟨1, first⟩)
  | some entry =>
      if entry.isOver now then Function.update attempts ip (some ⟨1, first⟩)
      else Function.update attempts ip (some { entry with count := entry.count + 1 })

def clearFailures (attempts : AttemptMap) (ip : Text) : AttemptMap :=
  Function.update attempts ip none

end Throttle

open Throttle

namespace ApiProcess

def isCorrectPassword (p : ApiProcess) (crypto : Crypto) (password : Text) : Bool :=
  if !p.loginEnabled || password = [] then false else sameSecret crypto password p.adminPassword

/-- `POST /auth/login`. -/
def login (p : ApiProcess) (crypto : Crypto) (attempts : AttemptMap) (r : LoginRequest) :
    AttemptMap × LoginResponse :=
  let (attempts, throttled) := isThrottled attempts r.ip r.date.throttled
  if throttled then (attempts, .throttled "too many attempts — wait 15 minutes".toList)
  else if !r.password.any (p.isCorrectPassword crypto) then
    (recordFailure attempts r.ip r.date.failed r.date.first, .refused "wrong password".toList)
  else (clearFailures attempts r.ip, .signedIn)

/-- The requests that one process handles, each with its answer. -/
def logins (p : ApiProcess) (crypto : Crypto) : AttemptMap → List LoginRequest →
    List (LoginRequest × LoginResponse)
  | _, [] => []
  | attempts, r :: rs =>
      (r, (p.login crypto attempts r).2) :: p.logins crypto (p.login crypto attempts r).1 rs

/-- The map that is left. -/
def afterLogins (p : ApiProcess) (crypto : Crypto) : AttemptMap → List LoginRequest → AttemptMap
  | attempts, [] => attempts
  | attempts, r :: rs => p.afterLogins crypto (p.login crypto attempts r).1 rs

end ApiProcess

/-- The request is handled in the fifteen minutes from `a` on. -/
def LoginRequest.within (a : Nat) (r : LoginRequest) : Bool :=
  a ≤ r.date.throttled && r.date.first ≤ a + ATTEMPT_WINDOW_MS

/-! ## What one request does -/

/-- The entry that a window which is not over has. -/
def live (entry : Option Attempts) (now : Nat) : Option Attempts :=
  entry.filter fun e => !e.isOver now

section

variable {attempts : AttemptMap} {ip : Text} {now now' first : Nat} {e : Attempts}

theorem live_none : live none now = none := rfl

theorem live_over (h : e.isOver now = true) : live (some e) now = none :=
  Option.filter_some_neg (by rw [h]; decide)

theorem live_some (h : e.isOver now = false) : live (some e) now = some e :=
  Option.filter_some_pos (by rw [h]; decide)

theorem isOver_mono (hle : now ≤ now') (h : e.isOver now = true) : e.isOver now' = true := by
  simp only [Attempts.isOver, decide_eq_true_eq] at h ⊢
  omega

theorem isOver_anti (hle : now ≤ now') (h : e.isOver now' = false) : e.isOver now = false := by
  simp only [Attempts.isOver, decide_eq_false_iff_not] at h ⊢
  omega

theorem isOver_of_live {entry : Option Attempts} (h : live entry now = some e) :
    e.isOver now = false := by
  simpa using (Option.filter_eq_some_iff.mp h).2

theorem live_live {entry : Option Attempts} (hle : now ≤ now') :
    live (live entry now) now' = live entry now' := by
  cases entry with
  | none => rfl
  | some e =>
    cases hover : e.isOver now with
    | true => rw [live_over hover, live_over (isOver_mono hle hover), live_none]
    | false => rw [live_some hover]

theorem isThrottled_eq : isThrottled attempts ip now =
    (Function.update attempts ip (live (attempts ip) now),
      (live (attempts ip) now).any fun e => MAX_ATTEMPTS ≤ e.count) := by
  have hsame : Function.update attempts ip (attempts ip) = attempts := Function.update_eq_self ip attempts
  unfold isThrottled
  cases hentry : attempts ip with
  | none =>
    rw [hentry] at hsame
    rw [live_none, hsame]
    rfl
  | some e =>
    rw [hentry] at hsame
    cases hover : e.isOver now with
    | true =>
      rw [live_over hover]
      simp only [hover, if_true, Option.any_none]
    | false =>
      rw [live_some hover, hsame]
      simp only [hover, Bool.false_eq_true, if_false, Option.any_some]

theorem recordFailure_eq : recordFailure attempts ip now first =
    Function.update attempts ip (some ((live (attempts ip) now).elim ⟨1, first⟩ fun e =>
      { e with count := e.count + 1 })) := by
  unfold recordFailure
  cases attempts ip with
  | none => rfl
  | some e =>
    cases hover : e.isOver now with
    | true =>
      rw [live_over hover]
      simp only [hover, if_true, Option.elim_none]
    | false =>
      rw [live_some hover]
      simp only [hover, Bool.false_eq_true, if_false, Option.elim_some]

end

namespace ApiProcess

variable {p : ApiProcess} {crypto : Crypto} {attempts attempts' : AttemptMap} {r : LoginRequest}
  {rs rs' : List LoginRequest} {ip : Text} {e : Attempts}

/-- One request, by the entry that its IP has in the map. -/
def attempt (p : ApiProcess) (crypto : Crypto) (entry : Option Attempts) (r : LoginRequest) :
    Option Attempts × LoginResponse :=
  if (live entry r.date.throttled).any fun e => MAX_ATTEMPTS ≤ e.count then
    (live entry r.date.throttled, .throttled "too many attempts — wait 15 minutes".toList)
  else if !r.password.any (p.isCorrectPassword crypto) then
    (some ((live entry r.date.failed).elim ⟨1, r.date.first⟩ fun e => { e with count := e.count + 1 }),
      .refused "wrong password".toList)
  else (none, .signedIn)

/-- A request reads and writes nothing but the entry of its IP. -/
theorem login_eq : p.login crypto attempts r =
    (Function.update attempts r.ip (p.attempt crypto (attempts r.ip) r).1,
      (p.attempt crypto (attempts r.ip) r).2) := by
  simp only [login, attempt, isThrottled_eq, recordFailure_eq, clearFailures,
    Function.update_self, Function.update_idem, live_live r.date.throttled_le]
  split
  · rfl
  split
  · rfl
  · rfl

/-- One request, by the branch that it takes. -/
inductive Attempted (r : LoginRequest) (entry : Option Attempts) :
    Option Attempts → LoginResponse → Prop where
  | throttled (e : Attempts) (message : Text) (hentry : entry = some e)
      (hlive : e.isOver r.date.throttled = false) : Attempted r entry (some e) (.throttled message)
  | counted (e : Attempts) (message : Text) (hentry : entry = some e)
      (hlive : e.isOver r.date.failed = false) (hroom : e.count < MAX_ATTEMPTS) :
      Attempted r entry (some { e with count := e.count + 1 }) (.refused message)
  /-- The first failure of a window. -/
  | opened (message : Text) (hover : ∀ e, entry = some e → e.isOver r.date.failed = true) :
      Attempted r entry (some ⟨1, r.date.first⟩) (.refused message)
  | signedIn : Attempted r entry none .signedIn

variable {entry : Option Attempts} {a : Nat}

theorem attempt_cases :
    Attempted r entry (p.attempt crypto entry r).1 (p.attempt crypto entry r).2 := by
  unfold attempt
  split
  · rename_i hfull
    obtain ⟨e, hlive, -⟩ := (Option.any_eq_true _ _).mp hfull
    rw [hlive]
    exact .throttled e _ (Option.filter_eq_some_iff.mp hlive).1 (isOver_of_live hlive)
  rename_i hroom
  split
  · cases hlive : live entry r.date.failed with
    | none =>
      refine .opened _ fun e hentry => ?_
      rw [hentry] at hlive
      by_contra hover
      rw [live_some (Bool.not_eq_true _ ▸ hover)] at hlive
      cases hlive
    | some e =>
      have hentry := (Option.filter_eq_some_iff.mp hlive).1
      have hnotOver := isOver_of_live hlive
      refine .counted e _ hentry hnotOver ?_
      by_contra hfull
      refine hroom ((Option.any_eq_true _ _).mpr ⟨e, ?_, decide_eq_true (Nat.not_lt.mp hfull)⟩)
      rw [hentry]
      exact live_some (isOver_anti r.date.throttled_le hnotOver)
  · exact .signedIn

/-! ## The requests of one IP -/

/-- The requests of one IP, each with its answer. -/
def tries (p : ApiProcess) (crypto : Crypto) : Option Attempts → List LoginRequest →
    List (LoginRequest × LoginResponse)
  | _, [] => []
  | entry, r :: rs =>
      (r, (p.attempt crypto entry r).2) :: p.tries crypto (p.attempt crypto entry r).1 rs

theorem mem_tries {x : LoginRequest × LoginResponse} (h : x ∈ p.tries crypto entry rs) : x.1 ∈ rs := by
  induction rs generalizing entry with
  | nil => cases h
  | cons r rs ih =>
    rcases List.mem_cons.mp h with rfl | h
    · exact List.mem_cons_self
    · exact List.mem_cons_of_mem _ (ih h)

theorem mem_logins {x : LoginRequest × LoginResponse} (h : x ∈ p.logins crypto attempts rs) :
    x.1 ∈ rs := by
  induction rs generalizing attempts with
  | nil => cases h
  | cons r rs ih =>
    rcases List.mem_cons.mp h with rfl | h
    · exact List.mem_cons_self
    · exact List.mem_cons_of_mem _ (ih h)

/-- What an IP is answered depends on its own requests only. -/
theorem filter_logins : (p.logins crypto attempts rs).filter (fun x => x.1.ip = ip) =
    p.tries crypto (attempts ip) (rs.filter fun r => r.ip = ip) := by
  induction rs generalizing attempts with
  | nil => rfl
  | cons r rs ih =>
    rw [logins, login_eq]
    by_cases hip : r.ip = ip
    · subst hip
      simp only [List.filter_cons, decide_true, if_true, ih, Function.update_self, tries]
    · simp only [List.filter_cons, hip, decide_false, Bool.false_eq_true, if_false, ih,
        Function.update_of_ne (Ne.symm hip)]

/-! ## Counting -/

/-- Each request is handled before the next one. -/
def InOrder (rs : List LoginRequest) : Prop :=
  rs.Pairwise fun r r' => r.date.first ≤ r'.date.throttled

instance : DecidablePred InOrder := fun rs => inferInstanceAs (Decidable (rs.Pairwise _))

/-- How many wrong passwords were compared in the fifteen minutes from `a` on. -/
def compared (a : Nat) (answers : List (LoginRequest × LoginResponse)) : Nat :=
  answers.countP fun x => x.1.within a && x.2.isRefused

/-- Nobody signed in in the fifteen minutes from `a` on. -/
def NoneSignedIn (a : Nat) (answers : List (LoginRequest × LoginResponse)) : Prop :=
  ∀ x ∈ answers, x.1.within a = true → x.2 ≠ .signedIn

instance (a : Nat) : DecidablePred (NoneSignedIn a) := fun _ =>
  inferInstanceAs (Decidable (∀ _ ∈ _, _ → _))

theorem compared_cons {x : LoginRequest × LoginResponse} {l : List (LoginRequest × LoginResponse)} :
    compared a (x :: l) = compared a l + if x.1.within a && x.2.isRefused then 1 else 0 :=
  List.countP_cons

/-- Behind the end of the interval, nothing is counted any more. -/
theorem compared_after (hrs : InOrder (r :: rs)) (hlate : a + ATTEMPT_WINDOW_MS < r.date.first) :
    compared a (p.tries crypto entry (r :: rs)) = 0 := by
  have hlate' : ∀ r' ∈ r :: rs, r'.within a = false := by
    intro r' hr'
    have hfirst : a + ATTEMPT_WINDOW_MS < r'.date.first := by
      rcases List.mem_cons.mp hr' with rfl | hr'
      · exact hlate
      · have := List.rel_of_pairwise_cons hrs hr'
        have := r'.date.throttled_le
        have := r'.date.failed_le
        omega
    simp only [LoginRequest.within, Bool.and_eq_false_iff, decide_eq_false_iff_not]
    omega
  refine List.countP_eq_zero.mpr fun x hx => ?_
  rw [hlate' x.1 (mem_tries hx), Bool.false_and]
  exact Bool.false_ne_true

theorem within_of_le (h : a ≤ r.date.throttled) (hearly : ¬ a + ATTEMPT_WINDOW_MS < r.date.first) :
    r.within a = true := by
  simp only [LoginRequest.within, Bool.and_eq_true, decide_eq_true_eq]
  omega

/-- One request that is handled in the interval. -/
theorem tries_within (hwithin : r.within a = true) (hno : NoneSignedIn a (p.tries crypto entry (r :: rs))) :
    ∃ entry' response, Attempted r entry entry' response ∧ response ≠ .signedIn ∧
      NoneSignedIn a (p.tries crypto entry' rs) ∧
      compared a (p.tries crypto entry (r :: rs)) =
        compared a (p.tries crypto entry' rs) + if response.isRefused then 1 else 0 := by
  refine ⟨_, _, attempt_cases, hno _ List.mem_cons_self hwithin,
    fun x hx => hno x (List.mem_cons_of_mem _ hx), ?_⟩
  rw [tries, compared_cons, hwithin, Bool.true_and]

/-- A window that was opened in the interval has room for five. -/
theorem compared_window (hrs : InOrder rs) (hfrom : ∀ r ∈ rs, a ≤ r.date.throttled)
    (hno : NoneSignedIn a (p.tries crypto (some e) rs)) (hopened : a ≤ e.firstAt)
    (hcount : e.count ≤ MAX_ATTEMPTS) :
    compared a (p.tries crypto (some e) rs) + e.count ≤ MAX_ATTEMPTS := by
  induction rs generalizing e with
  | nil => exact (Nat.zero_add _).trans_le hcount
  | cons r rs ih =>
    by_cases hlate : a + ATTEMPT_WINDOW_MS < r.date.first
    · rw [compared_after hrs hlate]
      exact (Nat.zero_add _).trans_le hcount
    have hwithin := within_of_le (hfrom r List.mem_cons_self) hlate
    have hfrom' : ∀ r ∈ rs, a ≤ r.date.throttled := fun r hr => hfrom r (List.mem_cons_of_mem _ hr)
    obtain ⟨entry', response, hmove, hresponse, hno', hcompared⟩ := tries_within hwithin hno
    rw [hcompared]
    cases hmove with
    | throttled e' message hentry =>
      cases hentry
      exact ih hrs.of_cons hfrom' hno' hopened hcount
    | counted e' message hentry hlive hroom =>
      cases hentry
      have := ih hrs.of_cons hfrom' hno' hopened hroom
      simp only [LoginResponse.isRefused, if_true]
      dsimp only at this
      omega
    | opened message hover =>
      -- The window lasts longer than the interval.
      have := of_decide_eq_true (hover e rfl)
      have := r.date.failed_le
      omega
    | signedIn => exact absurd rfl hresponse

theorem one_le_max : 1 ≤ MAX_ATTEMPTS := by decide

/-- The same, with the failure that opens it. -/
theorem compared_opened (hrs : InOrder (r :: rs)) (hfrom : ∀ r' ∈ r :: rs, a ≤ r'.date.throttled)
    (hno : NoneSignedIn a (p.tries crypto (some ⟨1, r.date.first⟩) rs)) :
    compared a (p.tries crypto (some ⟨1, r.date.first⟩) rs) + 1 ≤ MAX_ATTEMPTS := by
  have hopened : a ≤ r.date.first :=
    (hfrom r List.mem_cons_self).trans (r.date.throttled_le.trans r.date.failed_le)
  exact @compared_window p crypto rs ⟨1, r.date.first⟩ a hrs.of_cons
    (fun r' hr' => hfrom r' (List.mem_cons_of_mem _ hr')) hno hopened one_le_max

/-- Where no earlier window reaches into the interval, there is room for five. -/
theorem compared_fresh (hrs : InOrder rs) (hfrom : ∀ r ∈ rs, a ≤ r.date.throttled)
    (hno : NoneSignedIn a (p.tries crypto entry rs)) (hfresh : live entry a = none) :
    compared a (p.tries crypto entry rs) ≤ MAX_ATTEMPTS := by
  cases rs with
  | nil => exact Nat.zero_le _
  | cons r rs =>
    by_cases hlate : a + ATTEMPT_WINDOW_MS < r.date.first
    · rw [compared_after hrs hlate]
      exact Nat.zero_le _
    have hat := hfrom r List.mem_cons_self
    obtain ⟨entry', response, hmove, hresponse, hno', hcompared⟩ :=
      tries_within (within_of_le hat hlate) hno
    rw [hcompared]
    cases hmove with
    | throttled e message hentry hlive =>
      rw [hentry, live_some (isOver_anti hat hlive)] at hfresh
      cases hfresh
    | counted e message hentry hlive =>
      rw [hentry, live_some (isOver_anti (hat.trans r.date.throttled_le) hlive)] at hfresh
      cases hfresh
    | opened message hover =>
      simp only [LoginResponse.isRefused, if_true]
      exact compared_opened hrs hfrom hno'
    | signedIn => exact absurd rfl hresponse

/-- Two windows may reach into the interval. The first failure of the earlier one lies before it, or
else there is no later one. -/
theorem compared_two (hrs : InOrder rs) (hfrom : ∀ r ∈ rs, a ≤ r.date.throttled)
    (hno : NoneSignedIn a (p.tries crypto (some e) rs)) (hcount : e.count ≤ MAX_ATTEMPTS) :
    compared a (p.tries crypto (some e) rs) + e.count ≤ 2 * MAX_ATTEMPTS := by
  induction rs generalizing e with
  | nil =>
    have hnil : compared a (p.tries crypto (some e) []) = 0 := rfl
    omega
  | cons r rs ih =>
    by_cases hlate : a + ATTEMPT_WINDOW_MS < r.date.first
    · rw [compared_after hrs hlate]
      omega
    have hat := hfrom r List.mem_cons_self
    have hfrom' : ∀ r ∈ rs, a ≤ r.date.throttled := fun r hr => hfrom r (List.mem_cons_of_mem _ hr)
    obtain ⟨entry', response, hmove, hresponse, hno', hcompared⟩ :=
      tries_within (within_of_le hat hlate) hno
    rw [hcompared]
    cases hmove with
    | throttled e' message hentry =>
      cases hentry
      exact ih hrs.of_cons hfrom' hno' hcount
    | counted e' message hentry hlive hroom =>
      cases hentry
      have := ih hrs.of_cons hfrom' hno' hroom
      simp only [LoginResponse.isRefused, if_true]
      dsimp only at this
      omega
    | opened message hover =>
      have := compared_opened hrs hfrom hno'
      simp only [LoginResponse.isRefused, if_true]
      omega
    | signedIn => exact absurd rfl hresponse

/-! ## The requests before the interval -/

/-- What the map holds for an IP after its requests. -/
def entryAfter (p : ApiProcess) (crypto : Crypto) : Option Attempts → List LoginRequest → Option Attempts
  | entry, [] => entry
  | entry, r :: rs => p.entryAfter crypto (p.attempt crypto entry r).1 rs

theorem afterLogins_eq : p.afterLogins crypto attempts rs ip =
    p.entryAfter crypto (attempts ip) (rs.filter fun r => r.ip = ip) := by
  induction rs generalizing attempts with
  | nil => rfl
  | cons r rs ih =>
    rw [afterLogins, login_eq, ih]
    by_cases hip : r.ip = ip
    · subst hip
      simp only [List.filter_cons, decide_true, if_true, Function.update_self, entryAfter]
    · simp only [List.filter_cons, hip, decide_false, Bool.false_eq_true, if_false,
        Function.update_of_ne (Ne.symm hip)]

/-- No entry counts more failures than are allowed. -/
theorem count_entryAfter (hwf : ∀ e, entry = some e → 1 ≤ e.count ∧ e.count ≤ MAX_ATTEMPTS)
    (h : p.entryAfter crypto entry rs = some e) : 1 ≤ e.count ∧ e.count ≤ MAX_ATTEMPTS := by
  induction rs generalizing entry with
  | nil => exact hwf e h
  | cons r rs ih =>
    refine ih (fun e he => ?_) h
    obtain ⟨response, hmove⟩ : ∃ response, Attempted r entry (p.attempt crypto entry r).1 response :=
      ⟨_, attempt_cases⟩
    rw [he] at hmove
    cases hmove with
    | throttled _ _ hentry => exact hwf e hentry
    | counted e' _ hentry _ hroom => exact ⟨Nat.le_add_left _ _, hroom⟩
    | opened => exact ⟨Nat.le_refl 1, one_le_max⟩

theorem tries_append : p.tries crypto entry (rs ++ rs') =
    p.tries crypto entry rs ++ p.tries crypto (p.entryAfter crypto entry rs) rs' := by
  induction rs generalizing entry with
  | nil => rfl
  | cons r rs ih => rw [List.cons_append, tries, tries, entryAfter, ih, List.cons_append]

/-- The requests before an instant come before the others. -/
theorem filter_append_filter (hrs : InOrder rs) (a : Nat) :
    rs.filter (fun r => r.date.throttled < a) ++ rs.filter (fun r => a ≤ r.date.throttled) = rs := by
  induction rs with
  | nil => rfl
  | cons r rs ih =>
    by_cases hbefore : r.date.throttled < a
    · have hafter : ¬ a ≤ r.date.throttled := Nat.not_le.mpr hbefore
      simp only [List.filter_cons, hbefore, hafter, decide_true, decide_false, Bool.false_eq_true,
        if_true, if_false, List.cons_append, ih hrs.of_cons]
    · have hall : ∀ r' ∈ r :: rs, a ≤ r'.date.throttled := by
        intro r' hr'
        have hat := Nat.not_lt.mp hbefore
        rcases List.mem_cons.mp hr' with rfl | hr'
        · exact hat
        · have := List.rel_of_pairwise_cons hrs hr'
          have := r.date.throttled_le
          have := r.date.failed_le
          omega
      rw [List.filter_eq_nil_iff.mpr fun r' hr' => by simpa using hall r' hr', List.nil_append,
        List.filter_eq_self.mpr fun r' hr' => decide_eq_true (hall r' hr')]

/-- What comes before the interval matters for it only by the entry that it leaves. -/
theorem compared_append (h : ∀ r ∈ rs, r.date.throttled < a) : compared a (p.tries crypto entry (rs ++ rs')) =
    compared a (p.tries crypto (p.entryAfter crypto entry rs) rs') := by
  have hnone : compared a (p.tries crypto entry rs) = 0 := by
    refine List.countP_eq_zero.mpr fun x hx => ?_
    have hwithin : x.1.within a = false := by
      simp only [LoginRequest.within, Nat.not_le.mpr (h x.1 (mem_tries hx)), decide_false,
        Bool.false_and]
    rw [hwithin, Bool.false_and]
    exact Bool.false_ne_true
  rw [tries_append, compared, List.countP_append]
  exact (congrArg (· + _) hnone).trans (Nat.zero_add _)

/-! ## The bound -/

/-- The bounds for one IP, whose requests these are. -/
theorem compared_le (hrs : InOrder rs) (hno : NoneSignedIn a (p.tries crypto none rs)) :
    compared a (p.tries crypto none rs) ≤ 9 ∧
      (live (p.entryAfter crypto none (rs.filter fun r => r.date.throttled < a)) a = none →
        compared a (p.tries crypto none rs) ≤ MAX_ATTEMPTS) := by
  have hsplit := filter_append_filter hrs a
  have hbefore : ∀ r ∈ rs.filter (fun r => r.date.throttled < a), r.date.throttled < a :=
    fun r hr => of_decide_eq_true (List.mem_filter.mp hr).2
  have hfrom : ∀ r ∈ rs.filter (fun r => a ≤ r.date.throttled), a ≤ r.date.throttled :=
    fun r hr => of_decide_eq_true (List.mem_filter.mp hr).2
  have horder : InOrder (rs.filter fun r => a ≤ r.date.throttled) := List.Pairwise.filter _ hrs
  rw [← hsplit, tries_append] at hno
  have hno' := fun x hx => hno x (List.mem_append_right _ hx)
  have hcompared := @compared_append p crypto _ (rs.filter fun r => a ≤ r.date.throttled) none a hbefore
  rw [hsplit] at hcompared
  rw [hcompared]
  refine ⟨?_, fun hfresh => compared_fresh horder hfrom hno' hfresh⟩
  cases hentry : p.entryAfter crypto none (rs.filter fun r => r.date.throttled < a) with
  | none =>
    rw [hentry] at hno'
    exact (compared_fresh horder hfrom hno' rfl).trans (by decide)
  | some e =>
    have hcount := count_entryAfter (by rintro e ⟨⟩) hentry
    rw [hentry] at hno'
    have htwo := compared_two horder hfrom hno' hcount.2
    have hmax : MAX_ATTEMPTS = 5 := rfl
    omega

/-- The map of a process that has just started. -/
def noAttempts : AttemptMap := fun _ => none

/-- How many wrong passwords an IP had compared in the fifteen minutes from `a` on. -/
def comparedFrom (ip : Text) (a : Nat) (answers : List (LoginRequest × LoginResponse)) : Nat :=
  compared a (answers.filter fun x => x.1.ip = ip)

/-- Whatever requests a process handles: in fifteen minutes without a successful login, an IP has at
most nine wrong passwords compared, and at most five where no window that it opened before reaches
into them. What an IP is answered is what it would be answered if it were alone. -/
theorem login_throttled (hrs : InOrder rs) :
    (∀ ip a, NoneSignedIn a ((p.logins crypto noAttempts rs).filter fun x => x.1.ip = ip) →
      comparedFrom ip a (p.logins crypto noAttempts rs) ≤ 9 ∧
        (live (p.afterLogins crypto noAttempts (rs.filter fun r => r.date.throttled < a) ip) a = none →
          comparedFrom ip a (p.logins crypto noAttempts rs) ≤ MAX_ATTEMPTS)) ∧
    ∀ ip, (p.logins crypto noAttempts rs).filter (fun x => x.1.ip = ip) =
      p.logins crypto noAttempts (rs.filter fun r => r.ip = ip) := by
  refine ⟨fun ip a hno => ?_, fun ip => ?_⟩
  · rw [filter_logins] at hno
    rw [comparedFrom, filter_logins, afterLogins_eq, List.filter_comm]
    exact compared_le (List.Pairwise.filter _ hrs) hno
  · -- Both are the answers to the requests of the IP.
    have hown : ∀ x ∈ p.logins crypto noAttempts (rs.filter fun r => r.ip = ip), x.1.ip = ip :=
      fun x hx => of_decide_eq_true (List.mem_filter.mp (mem_logins hx)).2
    rw [← List.filter_eq_self.mpr fun x hx => decide_eq_true (hown x hx), filter_logins, filter_logins,
      List.filter_filter]
    simp only [Bool.and_self]

private def withPassword : ApiProcess where
  env := ⟨none, some ['q', 'f'], none⟩
  randomBytes := lengthCrypto.sha256 []

/-- A wrong password at an instant. -/
def guess (ms : Nat) : LoginRequest := ⟨['i', 'p'], some ['x'], ⟨ms, ms, ms, le_rfl, le_rfl⟩⟩

/-- One at first, four at the end of the window that it opens, and five when that is over. -/
def tenGuesses : List LoginRequest :=
  guess 0 :: (List.replicate 4 (guess 899999) ++ List.replicate 5 (guess 900001))

/-- Nine wrong passwords of one IP are compared within three milliseconds. -/
theorem nine_compared : InOrder tenGuesses ∧
    NoneSignedIn 899999 ((withPassword.logins lengthCrypto noAttempts tenGuesses).filter fun x =>
      x.1.ip = ['i', 'p']) ∧
    comparedFrom ['i', 'p'] 899999 (withPassword.logins lengthCrypto noAttempts tenGuesses) = 9 := by
  decide +kernel

theorem login_throttled_guesses :
    comparedFrom ['i', 'p'] 899999 (withPassword.logins lengthCrypto noAttempts tenGuesses) ≤ 9 ∧
      comparedFrom ['i', 'p'] 0 (withPassword.logins lengthCrypto noAttempts tenGuesses) ≤ 5 := by
  have horder : InOrder tenGuesses := by decide +kernel
  have h := (@login_throttled withPassword lengthCrypto _ horder).1 ['i', 'p']
  exact ⟨(h 899999 (by decide +kernel)).1, (h 0 (by decide +kernel)).2 rfl⟩

end ApiProcess

end QueueFlow
