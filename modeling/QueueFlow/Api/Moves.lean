-- SUMMARY: What one command of an API request can do: the inversion lemma for handle.
import QueueFlow.Api.Jobs

/-!
# Moves of the API
-/

namespace QueueFlow

/-- The id that a request has accepted and not yet pushed. -/
def Api.hand : Api → Option Text
  | .push _ id => some id
  | _ => none

/-- One command of a request. -/
inductive ApiMove (s : State) (a : Api) : State → Prop where
  | turned (a' : Api) (hhand : a.hand = none) (hhand' : a'.hand = none) :
      ApiMove s a (s.setApi a a')
  | answered (req : Request) (code : Nat) (body : Body) (hhand : a.hand = none) :
      ApiMove s a (s.respond a req code body)
  | inserted (key : Option Text) (generated : Uuid) (hpc : a = .insert key)
      (hrandom : generated.isRandom = true) (hrow : s.db.row generated = none) :
      ApiMove s a ((s.withDb (s.db.insertJob (.inserted generated key s.now))).setApi a
        (.push (.submit key) (uuidOut generated)))
  | replayed (id : Text) (job : Uuid) (r : JobRow) (hpc : a = .replay id)
      (hid : uuidIn id = some job) (hfree : s.locked job = false)
      (hrow : s.db.row job = some r) (hdead : r.status = .dead) :
      ApiMove s a ((s.write job .replayed).setApi a (.push (.replay id) id))
  | pushed (req : Request) (id : Text) (hpc : a = .push req id) :
      ApiMove s a ((s.withRedis (s.redis.lpush id)).respond a req 202 (.queued id))

theorem handle_cases {s s' : State} {a : Api} {generated : Uuid}
    (h : handle s a generated = some s') : ApiMove s a s' := by
  unfold handle at h
  split at h
  case h_1 key =>
    split at h
    · rename_i hgen
      split at h
      case h_1 => cases h; exact .turned _ rfl rfl
      case h_2 => cases h; exact .inserted key generated rfl hgen.1 hgen.2
    · cases h
  case h_2 key =>
    split at h
    all_goals cases h; exact .answered _ _ _ rfl
  case h_3 id =>
    split at h
    case h_1 => cases h; exact .answered _ _ _ rfl
    case h_2 job hid =>
      split at h
      · cases h
      · rename_i hfree
        split at h
        case h_1 => cases h; exact .turned _ rfl rfl
        case h_2 r hrow =>
          cases h
          obtain ⟨hrow, hdead⟩ := Option.filter_eq_some_iff.mp hrow
          exact .replayed id job r rfl hid (by simpa using hfree) hrow (by simpa using hdead)
  case h_4 id =>
    split at h
    all_goals cases h; exact .answered _ _ _ rfl
  case h_5 req id => cases h; exact .pushed req id rfl

end QueueFlow
