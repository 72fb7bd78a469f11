-- SUMMARY: Counting keys one by one in a map that remembers the order in which keys were first counted.
import Mathlib

/-!
# Tallies

A map from keys to counts, as a list of entries in the order of their first insertion. `Counts m l` says that
the map is what counting the keys of `l` one by one comes to.
-/

namespace Tally

variable {κ : Type*} [DecidableEq κ] {m : List (κ × Nat)} {l : List κ} {k j : κ} {n : Nat}

/-- The count of a key; a key that is not there has been counted no times. -/
def get (m : List (κ × Nat)) (k : κ) : Nat := ((m.find? fun e => e.1 = k).map (·.2)).getD 0

/-- Count a key once more. -/
def bump : List (κ × Nat) → κ → List (κ × Nat)
  | [], k => [(k, 1)]
  | e :: m, k => if e.1 = k then (e.1, e.2 + 1) :: m else e :: bump m k

theorem get_nil : get ([] : List (κ × Nat)) k = 0 := rfl

theorem get_cons (e : κ × Nat) : get (e :: m) k = if e.1 = k then e.2 else get m k := by
  by_cases h : e.1 = k
  · simp [get, h]
  · simp [get, h]

theorem get_bump : get (bump m k) j = get m j + if j = k then 1 else 0 := by
  induction m with
  | nil =>
      rw [bump, get_cons]
      by_cases h : k = j
      · simp [h, get_nil]
      · simp [h, get_nil, Ne.symm h]
  | cons e m ih =>
      rw [bump]
      split
      · rename_i hk
        rw [get_cons, get_cons]
        by_cases hj : e.1 = j
        · simp [hj, hj ▸ hk]
        · have hne : j ≠ k := fun h => hj (hk.trans h.symm)
          simp [hj, hne]
      · rename_i hk
        rw [get_cons, get_cons, ih]
        by_cases hj : e.1 = j
        · have hne : j ≠ k := fun h => hk (hj.trans h)
          simp [hj, hne]
        · simp [hj]

theorem mem_keys_bump : j ∈ (bump m k).map (·.1) ↔ j = k ∨ j ∈ m.map (·.1) := by
  induction m with
  | nil => simp [bump]
  | cons e m ih =>
      rw [bump]
      split
      · rename_i hk
        simp [← hk]
      · rw [List.map_cons, List.mem_cons, ih, List.map_cons, List.mem_cons]
        tauto

theorem nodup_bump (h : (m.map (·.1)).Nodup) : ((bump m k).map (·.1)).Nodup := by
  induction m with
  | nil => simp [bump]
  | cons e m ih =>
      rw [List.map_cons, List.nodup_cons] at h
      rw [bump]
      split
      · exact List.nodup_cons.mpr h
      · rename_i hk
        refine List.nodup_cons.mpr ⟨fun hmem => ?_, ih h.2⟩
        exact (mem_keys_bump.mp hmem).elim hk h.1

theorem sum_bump : ((bump m k).map (·.2)).sum = (m.map (·.2)).sum + 1 := by
  induction m with
  | nil => rfl
  | cons e m ih =>
      rw [bump]
      split
      · simp only [List.map_cons, List.sum_cons]
        omega
      · simp only [List.map_cons, List.sum_cons, ih]
        omega

theorem get_of_mem (hnodup : (m.map (·.1)).Nodup) (h : (k, n) ∈ m) : get m k = n := by
  induction m with
  | nil => cases h
  | cons e m ih =>
      rw [List.map_cons, List.nodup_cons] at hnodup
      rw [get_cons]
      rcases List.mem_cons.mp h with rfl | h
      · simp
      · have hne : e.1 ≠ k := fun heq => hnodup.1 (heq ▸ List.mem_map_of_mem (f := (·.1)) h)
        rw [if_neg hne, ih hnodup.2 h]

/-- The map comes from counting these keys. -/
structure Counts (m : List (κ × Nat)) (l : List κ) : Prop where
  nodup : (m.map (·.1)).Nodup
  keys : ∀ k, k ∈ m.map (·.1) ↔ k ∈ l
  get : ∀ k, get m k = l.countP fun x => x = k
  total : (m.map (·.2)).sum = l.length

namespace Counts

theorem nil : Counts ([] : List (κ × Nat)) [] := ⟨List.nodup_nil, fun _ => Iff.rfl, fun _ => rfl, rfl⟩

theorem bump (h : Counts m l) (k : κ) : Counts (bump m k) (k :: l) where
  nodup := nodup_bump h.nodup
  keys j := by rw [mem_keys_bump, List.mem_cons, h.keys]
  get j := by
    rw [get_bump, h.get, List.countP_cons]
    by_cases hj : j = k
    · simp [hj]
    · simp [hj, Ne.symm hj]
  total := by rw [sum_bump, h.total, List.length_cons]

theorem mem_iff (h : Counts m l) : (k, n) ∈ m ↔ k ∈ l ∧ n = l.countP fun x => x = k := by
  constructor
  · intro hmem
    exact ⟨(h.keys k).mp (List.mem_map_of_mem (f := (·.1)) hmem), by rw [← h.get, get_of_mem h.nodup hmem]⟩
  · rintro ⟨hk, rfl⟩
    obtain ⟨⟨k', n⟩, hmem, rfl⟩ := List.mem_map.mp ((h.keys k).mpr hk)
    have hn : n = l.countP fun x => x = k' := by rw [← h.get, get_of_mem h.nodup hmem]
    rwa [← hn]

end Counts

/-- Every key once, with the number of times that it is there. -/
theorem counts_iff : Counts m l ↔ (m.map (·.1)).Nodup ∧ (∀ e ∈ m, e.1 ∈ l ∧ e.2 = l.countP fun x => x = e.1) ∧
    ∀ k ∈ l, k ∈ m.map (·.1) := by
  constructor
  · intro h
    exact ⟨h.nodup, fun _ he => h.mem_iff.mp he, fun k hk => (h.keys k).mpr hk⟩
  · rintro ⟨hnodup, hentries, hkeys⟩
    have hmem (k : κ) : k ∈ m.map (·.1) ↔ k ∈ l := by
      refine ⟨fun hk => ?_, hkeys k⟩
      obtain ⟨e, he, rfl⟩ := List.mem_map.mp hk
      exact (hentries e he).1
    have hcounts : m.map (·.2) = (m.map (·.1)).map l.count := by
      rw [List.map_map]
      exact List.map_congr_left fun e he => (hentries e he).2
    refine ⟨hnodup, hmem, fun k => ?_, ?_⟩
    · by_cases hk : k ∈ l
      · obtain ⟨e, he, rfl⟩ := List.mem_map.mp (hkeys k hk)
        rw [get_of_mem hnodup he, (hentries e he).2]
      · have hnone : (m.find? fun e => e.1 = k) = none := by
          refine List.find?_eq_none.mpr fun e he heq => hk ?_
          exact of_decide_eq_true heq ▸ (hentries e he).1
        have hzero : (l.countP fun x => x = k) = 0 :=
          List.countP_eq_zero.mpr fun x hx heq => hk (of_decide_eq_true heq ▸ hx)
        rw [get, hnone, hzero]
        rfl
    · have hperm : (m.map (·.1)).Perm l.dedup :=
        (List.perm_ext_iff_of_nodup hnodup (List.nodup_dedup l)).mpr fun k => (hmem k).trans List.mem_dedup.symm
      rw [hcounts, (hperm.map l.count).sum_eq]
      exact List.sum_map_count_dedup_eq_length l

instance : Decidable (Counts m l) := decidable_of_iff _ counts_iff.symm

end Tally
