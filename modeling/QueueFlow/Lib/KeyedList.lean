-- SUMMARY: A family of lists indexed by keys, kept as one list of tagged entries, with pushes and pops at either end.
import QueueFlow.Lib.Bag
import Mathlib.Data.List.Dedup

/-!
# Keyed lists

A store of one list per key, where a key exists exactly while its list is not
empty. The lists are kept together as one list of `(key, entry)` pairs, in push
order; the list under a key is what is left after dropping the other keys. Each
operation is stated on the pairs and characterised by what it does to the list
under each key (`get_*`) and to the number of pairs with a property (`countP_*`).
-/

namespace KeyedList

variable {κ α : Type*} [DecidableEq κ] [DecidableEq α] {l : List (κ × α)} {k k' : κ} {a : α}

/-- The list under `k`, left end first. -/
def get (l : List (κ × α)) (k : κ) : List α := (l.filter (·.1 = k)).map (·.2)

/-- The keys that exist. -/
def keys (l : List (κ × α)) : List κ := (l.map (·.1)).dedup

/-- Push at the left end of the list under `k`. -/
def pushLeft (l : List (κ × α)) (k : κ) (a : α) : List (κ × α) := (k, a) :: l

/-- Remove the entry equal to `a` that is nearest the left end. -/
def removeLeft (l : List (κ × α)) (k : κ) (a : α) : List (κ × α) := l.erase (k, a)

/-- Remove the entry equal to `a` that is nearest the right end. -/
def removeRight (l : List (κ × α)) (k : κ) (a : α) : List (κ × α) := (l.reverse.erase (k, a)).reverse

/-- The entry at the right end. -/
def last? (l : List (κ × α)) (k : κ) : Option α := (get l k).getLast?

omit [DecidableEq α] in
theorem mem_get : a ∈ get l k ↔ (k, a) ∈ l := by
  simp [get]

omit [DecidableEq α] in
theorem mem_keys : k ∈ keys l ↔ get l k ≠ [] := by
  simp only [keys, List.mem_dedup, List.mem_map, Prod.exists, exists_and_right, exists_eq_right, get,
    ne_eq, List.map_eq_nil_iff, List.filter_eq_nil_iff, decide_eq_true_eq, Prod.forall]
  constructor
  · rintro ⟨a, h⟩ hall
    exact hall k a h rfl
  · intro h
    by_contra hne
    exact h fun k' a hmem hk => hne ⟨a, hk ▸ hmem⟩

omit [DecidableEq α] in
theorem mem_of_last? (h : last? l k = some a) : (k, a) ∈ l :=
  mem_get.mp (List.mem_of_getLast? h)

omit [DecidableEq α] in
theorem last?_eq_none : last? l k = none ↔ get l k = [] := by
  simp [last?]

/-! ## The list under a key -/

omit [DecidableEq α] in
theorem get_pushLeft_self : get (pushLeft l k a) k = a :: get l k := by
  simp [get, pushLeft]

omit [DecidableEq α] in
theorem get_pushLeft_ne (h : k' ≠ k) : get (pushLeft l k a) k' = get l k' := by
  simp [get, pushLeft, h.symm]

theorem get_removeLeft_self : get (removeLeft l k a) k = (get l k).erase a := by
  induction l with
  | nil => rfl
  | cons e l ih =>
    obtain ⟨k₀, b⟩ := e
    simp only [get, removeLeft] at ih ⊢
    by_cases hk : k₀ = k
    · subst hk
      by_cases hb : b = a
      · simp [hb]
      · have hne : (k₀, b) ≠ (k₀, a) := by simpa using hb
        simpa [List.erase_cons_tail, hne, hb] using ih
    · have hne : (k₀, b) ≠ (k, a) := fun h => hk (Prod.ext_iff.mp h).1
      simpa [List.erase_cons_tail, hne, hk] using ih

theorem get_removeLeft_ne (h : k' ≠ k) : get (removeLeft l k a) k' = get l k' := by
  induction l with
  | nil => rfl
  | cons e l ih =>
    obtain ⟨k₀, b⟩ := e
    simp only [get, removeLeft] at ih ⊢
    by_cases he : (k₀, b) = (k, a)
    · obtain ⟨rfl, rfl⟩ := Prod.ext_iff.mp he
      simp [h.symm]
    · rw [List.erase_cons_tail (by simpa using he)]
      by_cases hk : k₀ = k'
      · simpa [hk] using ih
      · simpa [hk] using ih

omit [DecidableEq α] in
theorem get_reverse : get l.reverse k = (get l k).reverse := by
  simp [get]

theorem get_removeRight_self :
    get (removeRight l k a) k = ((get l k).reverse.erase a).reverse := by
  rw [removeRight, get_reverse, show l.reverse.erase (k, a) = removeLeft l.reverse k a from rfl,
    get_removeLeft_self, get_reverse]

theorem get_removeRight_ne (h : k' ≠ k) : get (removeRight l k a) k' = get l k' := by
  rw [removeRight, get_reverse, show l.reverse.erase (k, a) = removeLeft l.reverse k a from rfl,
    get_removeLeft_ne h, get_reverse, List.reverse_reverse]

/-- Removing the entry at the right end takes exactly that entry off. -/
theorem get_removeRight_last (h : last? l k = some a) :
    get l k = get (removeRight l k a) k ++ [a] := by
  rw [get_removeRight_self]
  obtain ⟨init, hinit⟩ : ∃ init, get l k = init ++ [a] := by
    have := List.dropLast_append_getLast? a h
    exact ⟨_, this.symm⟩
  rw [hinit]
  simp

omit [DecidableEq α] in
/-- A push at the left end leaves the right end of every list that has one. -/
theorem last?_pushLeft {b : α} (h : last? l k = some a) : last? (pushLeft l k' b) k = some a := by
  by_cases hk : k = k'
  · subst hk
    rw [last?, get_pushLeft_self, List.getLast?_cons]
    simp only [last?] at h
    simp [h]
  · rw [last?, get_pushLeft_ne hk]
    exact h

theorem last?_removeLeft_ne (h : k' ≠ k) : last? (removeLeft l k a) k' = last? l k' := by
  rw [last?, last?, get_removeLeft_ne h]

theorem last?_removeRight_ne (h : k' ≠ k) : last? (removeRight l k a) k' = last? l k' := by
  rw [last?, last?, get_removeRight_ne h]

/-! ## Counting entries -/

variable {p : κ × α → Bool}

theorem removeRight_perm : (removeRight l k a).Perm (removeLeft l k a) := by
  refine (List.reverse_perm _).trans ?_
  exact (List.reverse_perm l).erase _

theorem perm_cons_removeLeft (h : (k, a) ∈ l) : l.Perm ((k, a) :: removeLeft l k a) :=
  List.perm_cons_erase h

theorem count_get : (get l k).count a = l.countP fun p => p = (k, a) := by
  induction l with
  | nil => rfl
  | cons p l ih =>
    obtain ⟨k', b⟩ := p
    unfold get at ih ⊢
    by_cases hk : k' = k
    · subst hk
      rw [List.filter_cons_of_pos (by simp), List.map_cons, List.count_cons, List.countP_cons, ih]
      simp
    · rw [List.filter_cons_of_neg (by simpa using hk), ih, List.countP_cons_of_neg (by simp [hk])]

omit [DecidableEq κ] [DecidableEq α] in
theorem countP_pushLeft : (pushLeft l k a).countP p = l.countP p + Bag.unit p (k, a) :=
  Bag.countP_cons_unit

theorem countP_removeLeft (h : (k, a) ∈ l) :
    (removeLeft l k a).countP p + Bag.unit p (k, a) = l.countP p :=
  Bag.countP_erase_add h

/-- Removing an entry takes at most that one off. -/
theorem countP_le_removeLeft :
    l.countP p ≤ (removeLeft l k a).countP p + Bag.unit p (k, a) := by
  by_cases hmem : (k, a) ∈ l
  · exact Nat.le_of_eq (countP_removeLeft hmem).symm
  · rw [removeLeft, List.erase_of_not_mem hmem]
    exact Nat.le_add_right _ _

/-- Removing an entry does not change how many others there are. -/
theorem countP_removeLeft_of_not (h : p (k, a) = false) :
    (removeLeft l k a).countP p = l.countP p := by
  by_cases hmem : (k, a) ∈ l
  · simpa [Bag.unit, h] using countP_removeLeft (p := p) hmem
  · rw [removeLeft, List.erase_of_not_mem hmem]

theorem countP_removeRight_of_not (h : p (k, a) = false) :
    (removeRight l k a).countP p = l.countP p := by
  rw [removeRight_perm.countP_eq]
  exact countP_removeLeft_of_not h

theorem mem_of_mem_removeLeft {e : κ × α} (h : e ∈ removeLeft l k a) : e ∈ l :=
  List.mem_of_mem_erase h

theorem mem_of_mem_removeRight {e : κ × α} (h : e ∈ removeRight l k a) : e ∈ l :=
  mem_of_mem_removeLeft (removeRight_perm.mem_iff.mp h)

theorem mem_removeLeft_of_ne {e : κ × α} (h : e ∈ l) (hne : e ≠ (k, a)) : e ∈ removeLeft l k a :=
  (List.mem_erase_of_ne hne).mpr h

end KeyedList
