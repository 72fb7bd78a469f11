-- SUMMARY: The Redis side: the pending list, the processing lists, the delayed set and the heartbeats, with the commands issued on them.
import QueueFlow.Lib.KeyedList
import QueueFlow.Shared.Uuid

/-!
# Redis

One field for each family of keys in `shared/keys.ts`. Lists have their left end
first. The delayed set is kept in the order that `ZRANGEBYSCORE` reports: by
score, then by member.
-/

namespace QueueFlow

/-- WORKER_ID. -/
abbrev WorkerId := Text

structure Redis where
  /-- `queueflow:pending`. -/
  pending : List Text
  /-- `queueflow:processing:<worker>`, for every worker. -/
  processing : List (WorkerId × Text)
  /-- `queueflow:delayed`. -/
  delayed : List (Text × Nat)
  /-- The workers whose `worker:<worker>:alive` exists. -/
  alive : List WorkerId
  deriving DecidableEq, Repr

namespace Redis

def empty : Redis := ⟨[], [], [], []⟩

/-- `LPUSH pending id`. -/
def lpush (r : Redis) (id : Text) : Redis := { r with pending := id :: r.pending }

/-- `RPUSH pending id`. -/
def rpush (r : Redis) (id : Text) : Redis := { r with pending := r.pending ++ [id] }

/-- `BLMOVE pending processing:<w> RIGHT LEFT`; `none` while it blocks. -/
def blmove (r : Redis) (w : WorkerId) : Option (Text × Redis) :=
  r.pending.getLast?.map fun id =>
    (id, { r with pending := r.pending.dropLast,
                  processing := KeyedList.pushLeft r.processing w id })

/-- `LMOVE processing:<w> pending RIGHT RIGHT`; `none` on an empty list. -/
def lmove (r : Redis) (w : WorkerId) : Option (Text × Redis) :=
  (KeyedList.last? r.processing w).map fun id =>
    (id, { r with pending := r.pending ++ [id],
                  processing := KeyedList.removeRight r.processing w id })

/-- `LREM processing:<w> 1 id`. -/
def lrem (r : Redis) (w : WorkerId) (id : Text) : Redis :=
  { r with processing := KeyedList.removeLeft r.processing w id }

/-- `LREM processing:<w> -1 id`. -/
def lremTail (r : Redis) (w : WorkerId) (id : Text) : Redis :=
  { r with processing := KeyedList.removeRight r.processing w id }

/-- `LRANGE processing:<w> 0 -1`. -/
def lrange (r : Redis) (w : WorkerId) : List Text := KeyedList.get r.processing w

/-- The order of a sorted set. -/
def zle (a b : Text × Nat) : Prop := a.2 < b.2 ∨ a.2 = b.2 ∧ a.1 ≤ b.1

instance : DecidableRel zle := fun _ _ => inferInstanceAs (Decidable (_ ∨ _ ∧ _))

/-- `ZREM delayed id`. -/
def zrem (r : Redis) (id : Text) : Redis :=
  { r with delayed := r.delayed.filter fun m => m.1 ≠ id }

/-- Whether `ZREM delayed id` answers 1. -/
def isDelayed (r : Redis) (id : Text) : Bool := r.delayed.any fun m => m.1 = id

/-- `ZADD delayed score id`. -/
def zadd (r : Redis) (score : Nat) (id : Text) : Redis :=
  { r with delayed := (r.zrem id).delayed.orderedInsert zle (id, score) }

/-- `ZRANGEBYSCORE delayed 0 max LIMIT 0 count`. -/
def zrangebyscore (r : Redis) (max count : Nat) : List Text :=
  ((r.delayed.filter fun m => m.2 ≤ max).map (·.1)).take count

/-- `SET worker:<w>:alive … EX …`. -/
def beat (r : Redis) (w : WorkerId) : Redis := { r with alive := w :: r.alive.filter (· ≠ w) }

/-- The end of `worker:<w>:alive`, by its expiry or by `DEL`. -/
def expire (r : Redis) (w : WorkerId) : Redis := { r with alive := r.alive.filter (· ≠ w) }

variable {r : Redis} {w : WorkerId} {id id' : Text}

theorem isDelayed_iff : r.isDelayed id = true ↔ ∃ score, (id, score) ∈ r.delayed := by
  simp only [isDelayed, List.any_eq_true, decide_eq_true_eq, Prod.exists]
  constructor
  · rintro ⟨t, score, h, rfl⟩
    exact ⟨score, h⟩
  · rintro ⟨score, h⟩
    exact ⟨id, score, h, rfl⟩

theorem mem_zadd {score : Nat} {m : Text × Nat} :
    m ∈ (r.zadd score id).delayed ↔ m = (id, score) ∨ m ∈ r.delayed ∧ m.1 ≠ id := by
  simp [zadd, zrem, List.mem_orderedInsert]

theorem mem_zrem {m : Text × Nat} : m ∈ (r.zrem id).delayed ↔ m ∈ r.delayed ∧ m.1 ≠ id := by
  simp [zrem]

end Redis

end QueueFlow
