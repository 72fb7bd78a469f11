-- SUMMARY: A store of typed values under keys, the commands on lists, sorted sets and strings, and what a renaming of the keys preserves.
import Mathlib.Data.List.Sort
import Mathlib.Logic.Function.Basic

/-!
# Keyspaces

A store keeps at most one value under a key: a list, a sorted set or a string. Most commands read or change
the value under one key; `LMOVE` takes an element from one list to another. A command that finds a value of
another type is refused. A list or a sorted set that becomes empty is removed.

A program that uses such a store has slots in mind (a queue, a list per worker) and names each by a key. When
no two slots have the same key, the store with the keys does whatever the store of the slots would do.
-/

namespace Keyspace

variable {ι κ α : Type*}

inductive Value (α : Type*) where
  | string
  | list (l : List α)
  /-- The members with their scores, in order. -/
  | zset (m : List (α × Nat))
  deriving DecidableEq, Repr

namespace Value

/-- An absent list is an empty one; `none` is a value of another type. -/
def list? : Option (Value α) → Option (List α)
  | none => some []
  | some (.list l) => some l
  | some _ => none

def zset? : Option (Value α) → Option (List (α × Nat))
  | none => some []
  | some (.zset m) => some m
  | some _ => none

/-- What stays under a key. -/
def kept : Value α → Option (Value α)
  | .list [] => none
  | .zset [] => none
  | v => some v

@[simp] theorem list?_kept (l : List α) : list? (kept (.list l)) = some l := by
  cases l <;> rfl

@[simp] theorem zset?_kept (m : List (α × Nat)) : zset? (kept (.zset m)) = some m := by
  cases m <;> rfl

@[simp] theorem kept_list_eq_none {l : List α} : kept (.list l) = none ↔ l = [] := by
  cases l <;> simp [kept]

@[simp] theorem kept_zset_eq_none {m : List (α × Nat)} : kept (.zset m) = none ↔ m = [] := by
  cases m <;> simp [kept]

end Value

/-- An end of a list. -/
inductive Side where
  | left
  | right
  deriving DecidableEq, Repr

def Side.push (side : Side) (x : α) (l : List α) : List α :=
  match side with
  | .left => x :: l
  | .right => l ++ [x]

/-- Takes off the element equal to `x` that is nearest this end. -/
def Side.erase [DecidableEq α] (side : Side) (x : α) (l : List α) : List α :=
  match side with
  | .left => l.erase x
  | .right => (l.reverse.erase x).reverse

inductive Reply (α : Type*) where
  | wrongtype
  | ok
  | nil
  | int (n : Nat)
  | bulk (x : α)
  | bulks (xs : List α)
  deriving DecidableEq, Repr

/-- What can be done to the value under one key. -/
inductive Op (α : Type*) where
  /-- `LPUSH` and `RPUSH`. -/
  | push (side : Side) (x : α)
  /-- `LREM` with a count of 1 or of -1. -/
  | rem (side : Side) (x : α)
  /-- `LRANGE 0 -1`. -/
  | range
  /-- `LINDEX -1`. -/
  | last
  | zadd (score : Nat) (x : α)
  | zrem (x : α)
  /-- `ZRANGEBYSCORE 0 max LIMIT 0 count`. -/
  | zrangebyscore (max count : Nat)
  | set
  | del
  | exists
  deriving DecidableEq, Repr

inductive Cmd (κ α : Type*) where
  | on (k : κ) (op : Op α)
  /-- `LMOVE src dst RIGHT side`. -/
  | move (src dst : κ) (side : Side)
  deriving DecidableEq, Repr

/-- The command under other keys. -/
def Cmd.rename (key : ι → κ) : Cmd ι α → Cmd κ α
  | .on i op => .on (key i) op
  | .move src dst side => .move (key src) (key dst) side

section

variable (le : α × Nat → α × Nat → Prop) [DecidableRel le] [DecidableEq α]

/-- The reply, and what is under the key afterwards. -/
def Op.run (v : Option (Value α)) : Op α → Reply α × Option (Value α)
  | .push side x =>
      match Value.list? v with
      | none => (.wrongtype, v)
      | some l => (.int (l.length + 1), (Value.list (side.push x l)).kept)
  | .rem side x =>
      match Value.list? v with
      | none => (.wrongtype, v)
      | some l => (.int (if x ∈ l then 1 else 0), (Value.list (side.erase x l)).kept)
  | .range =>
      match Value.list? v with
      | none => (.wrongtype, v)
      | some l => (.bulks l, v)
  | .last =>
      match Value.list? v with
      | none => (.wrongtype, v)
      | some l => (l.getLast?.elim .nil .bulk, v)
  | .zadd score x =>
      match Value.zset? v with
      | none => (.wrongtype, v)
      | some m => (.int (if m.any (fun y => y.1 = x) then 0 else 1),
          (Value.zset ((m.filter fun y => y.1 ≠ x).orderedInsert le (x, score))).kept)
  | .zrem x =>
      match Value.zset? v with
      | none => (.wrongtype, v)
      | some m => (.int (if m.any (fun y => y.1 = x) then 1 else 0),
          (Value.zset (m.filter fun y => y.1 ≠ x)).kept)
  | .zrangebyscore max count =>
      match Value.zset? v with
      | none => (.wrongtype, v)
      | some m => (.bulks (((m.filter fun y => y.2 ≤ max).map (·.1)).take count), v)
  | .set => (.ok, some .string)
  | .del => (.int (if v.isSome then 1 else 0), none)
  | .exists => (.int (if v.isSome then 1 else 0), v)

/-- The values under the keys. -/
abbrev Store (κ α : Type*) := κ → Option (Value α)

def Store.empty : Store κ α := fun _ => none

/-- The reply to a command, and the store afterwards. -/
def exec [DecidableEq κ] (st : Store κ α) : Cmd κ α → Reply α × Store κ α
  | .on k op => ((op.run le (st k)).1, Function.update st k (op.run le (st k)).2)
  | .move src dst side =>
      match Value.list? (st src) with
      | none => (.wrongtype, st)
      | some l =>
          match l.getLast? with
          | none => (.nil, st)
          | some x =>
              let st' := Function.update st src (Value.list l.dropLast).kept
              match Value.list? (st' dst) with
              | none => (.wrongtype, st)
              | some l' => (.bulk x, Function.update st' dst (Value.list (side.push x l')).kept)

/-! ## Asking and being served -/

/-- What a step of a program asks of the store: nothing, or a command, with the reply it goes by where it
looks at the reply. -/
abbrev Ask (κ α : Type*) := Option (Cmd κ α × Option (Reply α))

def Ask.rename (key : ι → κ) (ask : Ask ι α) : Ask κ α := ask.map fun c => (c.1.rename key, c.2)

/-- The command is carried out, and answered as the program has it. -/
def serve [DecidableEq κ] (ask : Ask κ α) (st : Store κ α) : Option (Store κ α) :=
  match ask with
  | none => some st
  | some (c, expected) =>
      if (exec le st c).1 ≠ .wrongtype ∧ ∀ reply ∈ expected, reply = (exec le st c).1 then some (exec le st c).2
      else none

end

/-! ## Keys as names -/

/-- The store `st'` holds what `st` holds, under the keys, and nothing else. -/
structure Renders (key : ι → κ) (st : Store ι α) (st' : Store κ α) : Prop where
  slot : ∀ i, st' (key i) = st i
  only : ∀ k, st' k ≠ none → ∃ i, key i = k

namespace Renders

variable {key : ι → κ} {st : Store ι α} {st' : Store κ α}

theorem empty : Renders key (.empty : Store ι α) .empty where
  slot _ := rfl
  only _ h := absurd rfl h

variable [DecidableEq ι] [DecidableEq κ]

theorem update (h : Renders key st st') (hkey : key.Injective) (i : ι) (v : Option (Value α)) :
    Renders key (Function.update st i v) (Function.update st' (key i) v) where
  slot j := by
    by_cases hij : j = i
    · rw [hij, Function.update_self, Function.update_self]
    · rw [Function.update_of_ne hij, Function.update_of_ne (hkey.ne hij), h.slot]
  only k hk := by
    by_cases hki : k = key i
    · exact ⟨i, hki.symm⟩
    · rw [Function.update_of_ne hki] at hk
      exact h.only k hk

variable {le : α × Nat → α × Nat → Prop} [DecidableRel le] [DecidableEq α]

theorem exec (h : Renders key st st') (hkey : key.Injective) (c : Cmd ι α) :
    (Keyspace.exec le st' (c.rename key)).1 = (Keyspace.exec le st c).1 ∧
      Renders key (Keyspace.exec le st c).2 (Keyspace.exec le st' (c.rename key)).2 := by
  cases c with
  | on i op =>
      simp only [Cmd.rename, Keyspace.exec, h.slot]
      exact ⟨trivial, h.update hkey i _⟩
  | move src dst side =>
      simp only [Cmd.rename, Keyspace.exec, h.slot]
      cases Value.list? (st src) with
      | none => exact ⟨rfl, h⟩
      | some l =>
          cases hlast : l.getLast? with
          | none =>
              simp only [hlast]
              exact ⟨trivial, h⟩
          | some x =>
              have hsrc := h.update hkey src (Value.list l.dropLast).kept
              simp only [hlast, hsrc.slot]
              cases Value.list? (Function.update st src (Value.list l.dropLast).kept dst) with
              | none => exact ⟨rfl, h⟩
              | some l' => exact ⟨rfl, hsrc.update hkey dst _⟩

/-- What the store of the slots serves, the store with the keys serves as well. -/
theorem serve (h : Renders key st st') (hkey : key.Injective) {ask : Ask ι α} {t : Store ι α}
    (hserve : Keyspace.serve le ask st = some t) :
    ∃ t', Keyspace.serve le (ask.rename key) st' = some t' ∧ Renders key t t' := by
  cases ask with
  | none =>
      cases hserve
      exact ⟨st', rfl, h⟩
  | some ask =>
      obtain ⟨c, expected⟩ := ask
      have hexec : (Keyspace.exec le st' (c.rename key)).1 = (Keyspace.exec le st c).1 ∧
          Renders key (Keyspace.exec le st c).2 (Keyspace.exec le st' (c.rename key)).2 := h.exec hkey c
      obtain ⟨hreply, hrenders⟩ := hexec
      obtain ⟨hok, ht⟩ := Option.ite_none_right_eq_some.mp hserve
      cases ht
      rw [← hreply] at hok
      exact ⟨_, if_pos hok, hrenders⟩

end Renders

end Keyspace
