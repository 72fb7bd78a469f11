-- SUMMARY: Lists read as bags: replacing one member by another, and what that does to membership and to counts.
import Mathlib.Data.List.Perm.Subperm

/-!
# Bags

A pool of threads of control is a list of their local states, in no particular
order. A thread that takes a step is removed and its new local state put in, so
equal local states stand for as many threads as they occur times.
-/

namespace Bag

variable {α β : Type*} {l : List α} {a b x : α} {p q : α → Bool}

/-! ## Counting -/

/-- One for a member that `p` holds of, zero for any other. -/
def unit (p : α → Bool) (a : α) : Nat := if p a then 1 else 0

theorem countP_cons_unit : (a :: l).countP p = l.countP p + unit p a := by
  simp only [List.countP_cons, unit]

theorem countP_pos_of_mem (h : a ∈ l) (hp : p a = true) : 0 < l.countP p :=
  List.countP_pos_iff.mpr ⟨a, h, hp⟩

theorem countP_eq_zero_of_forall (h : ∀ a ∈ l, p a = false) : l.countP p = 0 :=
  List.countP_eq_zero.mpr fun a ha => by simp [h a ha]

/-- Where a bag has room for the keys of `l` and for `ks`, key by key, it has room for
those that any predicate holds of. -/
theorem countP_add_le [DecidableEq β] {f : α → β} {ks m : List β}
    (h : ∀ b, (l.countP fun a => f a = b) + ks.countP (fun k => k = b) ≤ m.countP fun k => k = b)
    (r : β → Bool) : (l.countP fun a => r (f a)) + ks.countP r ≤ m.countP r := by
  have hcount : ∀ (l : List β) b, l.count b = l.countP fun k => k = b := fun l b =>
    List.countP_congr fun k _ => by simp
  have hsub : (l.map f ++ ks).Subperm m := List.subperm_iff_count.mpr fun b => by
    rw [hcount, hcount, List.countP_append, List.countP_map]
    exact h b
  simpa only [List.countP_append, List.countP_map, Function.comp_def] using hsub.countP_le r

variable [BEq α] [LawfulBEq α]

theorem countP_erase_add (h : a ∈ l) : (l.erase a).countP p + unit p a = l.countP p := by
  rw [← countP_cons_unit]
  exact ((List.perm_cons_erase h).countP_eq p).symm

/-- Two members that `p` holds of are equal when `p` holds of at most one. -/
theorem eq_of_countP_le_one (h : l.countP p ≤ 1) (ha : a ∈ l) (hb : b ∈ l)
    (hpa : p a = true) (hpb : p b = true) : a = b := by
  by_contra hne
  have hmem : b ∈ l.erase a := (List.mem_erase_of_ne (Ne.symm hne)).mpr hb
  have h1 := countP_erase_add (p := p) ha
  have h2 := countP_pos_of_mem hmem hpb
  simp only [unit, hpa, if_true] at h1
  omega

/-! ## Replacing a member -/

/-- Replace one occurrence of `a` by `b`. -/
def swap (l : List α) (a b : α) : List α := b :: l.erase a

omit [LawfulBEq α] in
theorem mem_of_mem_swap (h : x ∈ swap l a b) : x = b ∨ x ∈ l := by
  rcases List.mem_cons.mp h with rfl | h
  · exact .inl rfl
  · exact .inr (List.mem_of_mem_erase h)

omit [LawfulBEq α] in
@[simp] theorem mem_swap_self : b ∈ swap l a b := List.mem_cons_self

theorem mem_swap_of_ne (h : x ∈ l) (hne : x ≠ a) : x ∈ swap l a b :=
  List.mem_cons_of_mem _ ((List.mem_erase_of_ne hne).mpr h)

theorem countP_swap (h : a ∈ l) :
    (swap l a b).countP p + unit p a = l.countP p + unit p b := by
  have := countP_erase_add (p := p) h
  simp only [swap, countP_cons_unit]
  omega

theorem countP_swap_eq (h : a ∈ l) (hp : p b = p a) : (swap l a b).countP p = l.countP p := by
  have := countP_swap (p := p) (b := b) h
  simp only [unit, hp] at this
  omega

end Bag
