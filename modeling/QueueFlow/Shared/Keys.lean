-- SUMMARY: The Redis keys of shared/keys.ts, the patterns that SCAN them, and the functions that read a worker id back from a key.
import QueueFlow.Lib.Glob
import QueueFlow.Redis
import QueueFlow.Shared.Js

/-!
# Keys

Every process names the structures in Redis by texts. Two structures never have the same name, whatever the
worker ids are, and a pattern finds the names of one family only. A worker id can be read back from the name
of its processing list, and from that of its heartbeat as long as there is no line break in the id.
-/

namespace QueueFlow

/-- The structures in Redis. -/
inductive Slot where
  | pending
  | delayed
  | processing (workerId : WorkerId)
  | alive (workerId : WorkerId)
  deriving DecidableEq, Repr

namespace KEYS

def pending : Text := "queueflow:pending".toList

def delayed : Text := "queueflow:delayed".toList

def processing (workerId : WorkerId) : Text := "queueflow:processing:".toList ++ workerId

def processingPattern : Text := "queueflow:processing:*".toList

def alive (workerId : WorkerId) : Text := "worker:".toList ++ (workerId ++ ":alive".toList)

def alivePattern : Text := "worker:*:alive".toList

end KEYS

def Slot.key : Slot → Text
  | .pending => KEYS.pending
  | .delayed => KEYS.delayed
  | .processing workerId => KEYS.processing workerId
  | .alive workerId => KEYS.alive workerId

def workerIdFromProcessingKey (key : Text) : Option WorkerId :=
  (afterPrefix "queueflow:processing:".toList key).filter fun id => id.length > 0

/-- What a dot in a regular expression does not match. -/
def isLineTerminator (c : Char) : Bool := c ∈ ['\n', '\r', '\u2028', '\u2029']

/-- The group of `/^(.+):alive$/`, which takes as many characters as it can and gives them back one by one. -/
def aliveGroup (rest : Text) : Option Text :=
  ((List.range (rest.takeWhile fun c => !isLineTerminator c).length).reverse.map (· + 1)).findSome? fun n =>
    if rest.drop n = ":alive".toList then some (rest.take n) else none

/-- `/^worker:(.+):alive$/.exec(key)`, and the group of the match. -/
def workerIdFromAliveKey (key : Text) : Option WorkerId := (afterPrefix "worker:".toList key).bind aliveGroup

/-! ## Different structures, different keys -/

private theorem Slot.take_key_processing (w : WorkerId) {n : Nat} (hn : n ≤ 12) :
    (Slot.processing w).key.take n = "queueflow:processing:".toList.take n :=
  List.take_append_of_le_length (hn.trans (by decide))

private theorem Slot.take_key_alive (w : WorkerId) {n : Nat} (hn : n ≤ 7) :
    (Slot.alive w).key.take n = "worker:".toList.take n :=
  List.take_append_of_le_length (hn.trans (by decide))

private theorem Slot.processing_ne (w : WorkerId) :
    (Slot.processing w).key ≠ KEYS.pending ∧ (Slot.processing w).key ≠ KEYS.delayed := by
  constructor <;> intro h <;> have htake := congrArg (List.take 12) h <;>
    rw [take_key_processing w (Nat.le_refl _)] at htake
  · exact absurd htake (by decide)
  · exact absurd htake (by decide)

/-- The key of a heartbeat begins with another letter than the others. -/
private theorem Slot.alive_ne (w : WorkerId) :
    (Slot.alive w).key ≠ KEYS.pending ∧ (Slot.alive w).key ≠ KEYS.delayed ∧
      ∀ w', (Slot.alive w).key ≠ (Slot.processing w').key := by
  refine ⟨fun h => ?_, fun h => ?_, fun w' h => ?_⟩ <;> have htake := congrArg (List.take 1) h <;>
    rw [take_key_alive w (by decide)] at htake
  · exact absurd htake (by decide)
  · exact absurd htake (by decide)
  · rw [take_key_processing w' (by decide)] at htake
    exact absurd htake (by decide)

theorem Slot.key_injective : Slot.key.Injective := by
  intro i j h
  cases i with
  | pending =>
      cases j with
      | pending => rfl
      | delayed => exact absurd h (by decide)
      | processing w => exact absurd h.symm (processing_ne w).1
      | alive w => exact absurd h.symm (alive_ne w).1
  | delayed =>
      cases j with
      | pending => exact absurd h (by decide)
      | delayed => rfl
      | processing w => exact absurd h.symm (processing_ne w).2
      | alive w => exact absurd h.symm (alive_ne w).2.1
  | processing w =>
      cases j with
      | pending => exact absurd h (processing_ne w).1
      | delayed => exact absurd h (processing_ne w).2
      | processing w' => rw [List.append_cancel_left h]
      | alive w' => exact absurd h.symm ((alive_ne w').2.2 w)
  | alive w =>
      cases j with
      | pending => exact absurd h (alive_ne w).1
      | delayed => exact absurd h (alive_ne w).2.1
      | processing w' => exact absurd h ((alive_ne w).2.2 w')
      | alive w' => rw [List.append_cancel_right (List.append_cancel_left h)]

variable {key start rest : Text} {w : WorkerId}

theorem afterPrefix_eq_some : afterPrefix start key = some rest ↔ key = start ++ rest := by
  rw [afterPrefix, Option.ite_none_right_eq_some, List.isPrefixOf_iff_prefix]
  constructor
  · rintro ⟨⟨rest, rfl⟩, h⟩
    cases h
    rw [List.drop_left]
  · rintro rfl
    exact ⟨List.prefix_append start rest, by rw [List.drop_left]⟩

theorem workerIdFromProcessingKey_eq_some :
    workerIdFromProcessingKey key = some w ↔ key = KEYS.processing w ∧ w ≠ [] := by
  rw [workerIdFromProcessingKey, Option.filter_eq_some_iff, afterPrefix_eq_some, decide_eq_true_eq, gt_iff_lt,
    List.length_pos_iff]
  rfl

private theorem prefix_takeWhile {p : Char → Bool} : w <+: rest.takeWhile p ↔ w <+: rest ∧ ∀ c ∈ w, p c = true := by
  constructor
  · intro h
    exact ⟨h.trans (List.takeWhile_prefix p), fun c hc => List.mem_takeWhile_imp (h.subset hc)⟩
  · rintro ⟨⟨v, rfl⟩, hp⟩
    rw [List.takeWhile_append_of_pos hp]
    exact List.prefix_append ..

private theorem of_aliveGroup (h : aliveGroup rest = some w) :
    rest = w ++ ":alive".toList ∧ w ≠ [] ∧ ∀ c ∈ w, isLineTerminator c = false := by
  obtain ⟨n, hn, h⟩ := List.exists_of_findSome?_eq_some h
  obtain ⟨hdrop, h⟩ := Option.ite_none_right_eq_some.mp h
  cases h
  simp only [List.mem_map, List.mem_reverse, List.mem_range] at hn
  obtain ⟨m, hm, rfl⟩ := hn
  have hpre : rest.take (m + 1) <+: rest.takeWhile fun c => !isLineTerminator c :=
    List.prefix_of_prefix_length_le (List.take_prefix ..) (List.takeWhile_prefix _) ((List.length_take_le ..).trans hm)
  obtain ⟨-, hdot⟩ := prefix_takeWhile.mp hpre
  refine ⟨by rw [← hdrop, List.take_append_drop], fun hnil => ?_, by simpa using hdot⟩
  rcases List.take_eq_nil_iff.mp hnil with h | rfl
  · cases h
  · cases hm

theorem aliveGroup_eq_some :
    aliveGroup rest = some w ↔ rest = w ++ ":alive".toList ∧ w ≠ [] ∧ ∀ c ∈ w, isLineTerminator c = false := by
  refine ⟨of_aliveGroup, ?_⟩
  rintro ⟨rfl, hne, hdot⟩
  -- The group has as many characters as `w`, at some point, and no other number of them fits.
  have hfound : (aliveGroup (w ++ ":alive".toList)).isSome = true := by
    have hpre : w <+: (w ++ ":alive".toList).takeWhile fun c => !isLineTerminator c :=
      prefix_takeWhile.mpr ⟨List.prefix_append .., by simpa using hdot⟩
    obtain ⟨m, hm⟩ : ∃ m, w.length = m + 1 := Nat.exists_eq_succ_of_ne_zero (by simpa using hne)
    refine List.findSome?_isSome_iff.mpr ⟨w.length, ?_, by simp⟩
    simp only [List.mem_map, List.mem_reverse, List.mem_range]
    exact ⟨m, by rw [← Nat.succ_le_iff, ← Nat.add_one, ← hm]; exact hpre.length_le, hm.symm⟩
  obtain ⟨v, hv⟩ := Option.isSome_iff_exists.mp hfound
  rw [hv, List.append_cancel_right (of_aliveGroup hv).1]

theorem workerIdFromAliveKey_eq_some :
    workerIdFromAliveKey key = some w ↔ key = KEYS.alive w ∧ w ≠ [] ∧ ∀ c ∈ w, isLineTerminator c = false := by
  simp only [workerIdFromAliveKey, Option.bind_eq_some_iff, afterPrefix_eq_some, aliveGroup_eq_some]
  constructor
  · rintro ⟨rest, rfl, rfl, h⟩
    exact ⟨rfl, h⟩
  · rintro ⟨rfl, h⟩
    exact ⟨_, rfl, rfl, h⟩

/-! ## Patterns -/

theorem test_processingPattern : Glob.test KEYS.processingPattern key = true ↔ ∃ w, key = KEYS.processing w :=
  Glob.test_prefix (p := "queueflow:processing:".toList) (by simp [Glob.Plain])

theorem test_alivePattern : Glob.test KEYS.alivePattern key = true ↔ ∃ w, key = KEYS.alive w :=
  Glob.test_between (p := "worker:".toList) (q := ":alive".toList) (by simp [Glob.Plain]) (by simp [Glob.Plain])

end QueueFlow
