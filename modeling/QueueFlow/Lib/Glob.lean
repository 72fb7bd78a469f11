-- SUMMARY: Glob patterns over texts: literal characters, a question mark for one character, a star for any text.
import Mathlib.Data.List.Infix

/-!
# Globs

A pattern is read from the left. `*` stands for any text, `?` for any one character, and every other character
for itself.
-/

namespace Glob

variable {p q : List Char} {t : List Char}

def test : List Char → List Char → Bool
  | [], t => t.isEmpty
  | c :: p, t =>
      if c = '*' then t.tails.any (test p)
      else
        match t with
        | [] => false
        | d :: t => (c = '?' || c = d) && test p t

/-- Characters that stand for themselves. -/
def Plain (p : List Char) : Prop := ∀ c ∈ p, c ≠ '*' ∧ c ≠ '?'

instance (p : List Char) : Decidable (Plain p) := inferInstanceAs (Decidable (∀ _ ∈ _, _))

theorem test_star : test ('*' :: p) t = true ↔ ∃ u v, t = u ++ v ∧ test p v = true := by
  simp only [test, if_true, List.any_eq_true, List.mem_tails]
  constructor
  · rintro ⟨v, ⟨u, huv⟩, hv⟩
    exact ⟨u, v, huv.symm, hv⟩
  · rintro ⟨u, v, huv, hv⟩
    exact ⟨v, ⟨u, huv.symm⟩, hv⟩

theorem test_plain_append (hp : Plain p) : test (p ++ q) t = true ↔ ∃ u, t = p ++ u ∧ test q u = true := by
  induction p generalizing t with
  | nil => simp
  | cons c p ih =>
      obtain ⟨hstar, hmark⟩ := hp c List.mem_cons_self
      have ih := fun t => ih (t := t) fun d hd => hp d (List.mem_cons_of_mem c hd)
      cases t with
      | nil => simp [test, hstar]
      | cons d t =>
          simp only [List.cons_append, test, if_neg hstar]
          simp only [hmark, decide_false, Bool.false_or, Bool.and_eq_true, decide_eq_true_eq, ih,
            List.cons.injEq]
          constructor
          · rintro ⟨rfl, u, rfl, hu⟩
            exact ⟨u, ⟨rfl, rfl⟩, hu⟩
          · rintro ⟨u, ⟨rfl, rfl⟩, hu⟩
            exact ⟨rfl, u, rfl, hu⟩

theorem test_plain (hp : Plain p) : test p t = true ↔ t = p := by
  have h := test_plain_append (q := []) (t := t) hp
  simp only [List.append_nil] at h
  rw [h]
  constructor
  · rintro ⟨u, rfl, hu⟩
    rw [test, List.isEmpty_iff] at hu
    rw [hu, List.append_nil]
  · rintro rfl
    exact ⟨[], (List.append_nil _).symm, rfl⟩

/-- A literal text, then a star. -/
theorem test_prefix (hp : Plain p) : test (p ++ ['*']) t = true ↔ ∃ u, t = p ++ u := by
  rw [test_plain_append hp]
  constructor
  · rintro ⟨u, rfl, -⟩
    exact ⟨u, rfl⟩
  · rintro ⟨u, rfl⟩
    exact ⟨u, rfl, test_star.mpr ⟨u, [], (List.append_nil u).symm, rfl⟩⟩

/-- A star between two literal texts. -/
theorem test_between (hp : Plain p) (hq : Plain q) :
    test (p ++ '*' :: q) t = true ↔ ∃ u, t = p ++ (u ++ q) := by
  rw [test_plain_append hp]
  constructor
  · rintro ⟨_, rfl, h⟩
    obtain ⟨u, v, rfl, hv⟩ := test_star.mp h
    rw [(test_plain hq).mp hv]
    exact ⟨u, rfl⟩
  · rintro ⟨u, rfl⟩
    exact ⟨u ++ q, rfl, test_star.mpr ⟨u, q, rfl, (test_plain hq).mpr rfl⟩⟩

end Glob
