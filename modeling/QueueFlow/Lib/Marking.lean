-- SUMMARY: Tokens on places: how a marking shifts when members of a bag come, go or are replaced.
import QueueFlow.Lib.Bag
import Mathlib.Data.List.Flatten

/-!
# Markings

A marking is a list of places, one for each token. A component of a system puts
tokens on places through a map `f` from its members to lists of places. `Shift` says
which tokens a change takes off and which it puts on; shifts of the components add
up to the shift of the whole.
-/

namespace Marking

variable {π α : Type*} [DecidableEq π] {l l' m m' n out into out' into' : List π}

/-- The tokens in `out` are taken off and those in `into` are put on. -/
def Shift (l l' out into : List π) : Prop :=
  ∀ p, l'.count p + out.count p = l.count p + into.count p

namespace Shift

theorem refl : Shift l l [] [] := fun _ => rfl

theorem append (h : Shift l l' out into) (h' : Shift m m' out' into') :
    Shift (l ++ m) (l' ++ m') (out ++ out') (into ++ into') := by
  intro p
  have h1 := h p
  have h2 := h' p
  simp only [List.count_append]
  omega

/-- What is beside a change stays as it is. -/
theorem left (h : Shift l l' out into) : Shift (l ++ m) (l' ++ m) out into := by
  simpa only [List.append_nil] using h.append (refl (l := m))

theorem right (h : Shift m m' out into) : Shift (l ++ m) (l ++ m') out into :=
  (refl (l := l)).append h

theorem trans (h : Shift l m out into) (h' : Shift m n out' into') :
    Shift l n (out ++ out') (into ++ into') := by
  intro p
  have h1 := h p
  have h2 := h' p
  simp only [List.count_append]
  omega

/-- A token that is put back where it was taken from need not be mentioned. -/
theorem cancel {p : π} (h : Shift l l' (p :: out) (p :: into)) : Shift l l' out into := by
  intro q
  have := h q
  simp only [List.count_cons] at this
  omega

/-- The tokens on the places that a predicate holds of shift with the others. -/
theorem countP (h : Shift l l' out into) (q : π → Bool) :
    l'.countP q + out.countP q = l.countP q + into.countP q := by
  have hperm : (l' ++ out).Perm (l ++ into) :=
    List.perm_iff_count.mpr fun p => by rw [List.count_append, List.count_append, h p]
  simpa only [List.countP_append] using hperm.countP_eq q

end Shift

/-! ## Bags -/

variable [BEq α] [LawfulBEq α] {f : α → List π} {b : List α} {x y : α}

omit [BEq α] [LawfulBEq α] in
theorem shift_cons : Shift (b.flatMap f) ((x :: b).flatMap f) [] (f x) := by
  intro p
  simp only [List.flatMap_cons, List.count_append, List.count_nil]
  omega

omit [BEq α] [LawfulBEq α] in
theorem shift_concat : Shift (b.flatMap f) ((b ++ [x]).flatMap f) [] (f x) := by
  intro p
  simp [List.flatMap_append, List.count_append]

omit [BEq α] [LawfulBEq α] in
theorem shift_of_concat : Shift ((b ++ [x]).flatMap f) (b.flatMap f) (f x) [] := by
  intro p
  simp [List.flatMap_append, List.count_append]

omit [BEq α] [LawfulBEq α] in
theorem shift_of_perm_cons {b' : List α} (h : b.Perm (x :: b')) :
    Shift (b.flatMap f) (b'.flatMap f) (f x) [] := by
  intro p
  have hperm := (h.flatMap_right f).count_eq p
  simp only [List.flatMap_cons, List.count_append, List.count_nil] at hperm ⊢
  omega

theorem shift_erase (h : x ∈ b) : Shift (b.flatMap f) ((b.erase x).flatMap f) (f x) [] :=
  shift_of_perm_cons (List.perm_cons_erase h)

theorem shift_swap (h : x ∈ b) : Shift (b.flatMap f) ((Bag.swap b x y).flatMap f) (f x) (f y) := by
  simpa only [Bag.swap, List.append_nil, List.nil_append] using
    (shift_erase h).trans (shift_cons (x := y))

omit [BEq α] [LawfulBEq α] in
theorem count_pos_of_mem {p : π} (h : x ∈ b) (hp : p ∈ f x) : 0 < (b.flatMap f).count p :=
  List.count_pos_iff.mpr (List.mem_flatMap.mpr ⟨x, h, hp⟩)

omit [BEq α] [LawfulBEq α] in
theorem count_le_of_sublist {b' : List α} (h : b'.Sublist b) (p : π) :
    (b'.flatMap f).count p ≤ (b.flatMap f).count p :=
  (h.flatMap f).count_le p

/-- Where one token at most is on a place, one member put it there. -/
theorem eq_of_count_le_one {p : π} (h : (b.flatMap f).count p ≤ 1) (hx : x ∈ b) (hy : y ∈ b)
    (hpx : p ∈ f x) (hpy : p ∈ f y) : x = y := by
  by_contra hne
  have hother : 0 < ((b.erase x).flatMap f).count p :=
    count_pos_of_mem ((List.mem_erase_of_ne (Ne.symm hne)).mpr hy) hpy
  have hone : 0 < (f x).count p := List.count_pos_iff.mpr hpx
  have hshift := shift_erase (f := f) hx p
  simp only [List.count_nil] at hshift
  omega

omit [BEq α] [LawfulBEq α] in
/-- Members that put no token on a place may be dropped. -/
theorem count_filter {q : α → Bool} {p : π} (h : ∀ x ∈ b, q x = false → p ∉ f x) :
    ((b.filter q).flatMap f).count p = (b.flatMap f).count p := by
  induction b with
  | nil => rfl
  | cons x b ih =>
    have ih := ih fun y hy => h y (List.mem_cons_of_mem _ hy)
    cases hq : q x with
    | true => simp [hq, ih]
    | false =>
        have hzero := List.count_eq_zero.mpr (h x List.mem_cons_self hq)
        simp [hq, hzero, ih]

end Marking
