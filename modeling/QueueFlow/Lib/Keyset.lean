-- SUMMARY: Keyset pagination over a linear order: walks over a list that changes, and when a walk finds every row.
import Mathlib

/-!
# Keyset pagination

A page is the greatest rows below a cursor, and the next cursor is computed from the last row of the
page. `cut` computes it: a cursor that is too low skips rows, and there may be none that can be
sent at all. The list may be a different one at every request.
-/

namespace Keyset

variable {α κ : Type*} [LinearOrder κ] (key : α → κ)

/-- Greatest keys first, and no key twice. -/
def Descending (l : List α) : Prop := l.Pairwise fun a b => key b < key a

/-- The rows below a cursor; without a cursor, all of them. -/
def below (c : Option κ) (l : List α) : List α := l.filter fun a => c.all fun k => key a < k

/-- How a walk stands. -/
inductive Progress where
  | more
  | ended
  | refused
  deriving DecidableEq, Repr

/-- The rows that so many requests have returned. Request `i` asks for `limit i` rows of `stores i`
and looks one row further; the walk ends when there is none. -/
def walk (cut : α → Option κ) (limit : Nat → Nat) (stores : Nat → List α) :
    Nat → Nat → Option κ → List α × Progress
  | 0, _, _ => ([], .more)
  | m + 1, i, c =>
      let rows := below key c (stores i)
      if limit i < rows.length then
        match rows[limit i - 1]?.bind cut with
        | none => (rows.take (limit i), .refused)
        | some c' =>
            let (rest, progress) := walk cut limit stores m (i + 1) (some c')
            (rows.take (limit i) ++ rest, progress)
      else (rows, .ended)

/-- Behind the last row of a full page, the cursor lies above the next row. -/
def Exact (cut : α → Option κ) (n : Nat) (l : List α) : Prop :=
  ∀ k a b, l[k * n + (n - 1)]? = some a → l[k * n + n]? = some b → ∃ c, cut a = some c ∧ key b < c

variable {key} {cut : α → Option κ} {l : List α} {n : Nat} {c c' : Option κ} {a b : α}

omit [LinearOrder κ] in
theorem below_none [LinearOrder κ] : below key none l = l := by
  simp [below]

theorem Descending.below (h : Descending key l) : Descending key (below key c l) := h.filter _

/-- Such a list is determined by its members. -/
theorem Descending.eq_of_perm {l' : List α} (h : Descending key l) (h' : Descending key l')
    (hperm : l.Perm l') : l = l' :=
  hperm.eq_of_pairwise (fun _ _ _ _ hab hba => absurd hab hba.asymm) h h'

theorem mem_below : a ∈ below key c l ↔ a ∈ l ∧ ∀ k ∈ c, key a < k := by
  simp [below, Option.all_eq_true]

/-! ## The rest of a list behind a row -/

/-- A cursor that lies at a row or lower leaves nothing of what stands before the row. -/
private theorem below_take {k : κ} (h : Descending key l) (ha : l[n]? = some a) (hk : k ≤ key a) :
    below key (some k) (l.take (n + 1)) = [] := by
  rw [below, List.filter_eq_nil_iff]
  intro b hb
  obtain ⟨j, hj, hb⟩ := List.mem_take_iff_getElem.mp hb
  obtain ⟨hn, ha⟩ := List.getElem?_eq_some_iff.mp ha
  subst hb ha
  have hle : key l[n] ≤ key l[j] := by
    rcases Nat.lt_or_ge j n with hlt | hge
    · exact (List.pairwise_iff_getElem.mp h j n _ hn hlt).le
    · have : j = n := by omega
      subst this
      exact le_rfl
  simpa using hk.trans hle

theorem below_eq_drop_filter {k : κ} (h : Descending key l) (ha : l[n]? = some a) (hk : k ≤ key a) :
    below key (some k) l = below key (some k) (l.drop (n + 1)) := by
  have hsplit : below key (some k) (l.take (n + 1) ++ l.drop (n + 1)) =
      below key (some k) (l.drop (n + 1)) := by
    rw [below, List.filter_append]
    exact congrArg (· ++ _) (below_take h ha hk)
  rwa [List.take_append_drop] at hsplit

/-- A lower cursor may as well be applied to what a higher one left. -/
theorem below_below {k : κ} (h : ∀ k' ∈ c, k ≤ k') :
    below key (some k) (below key c l) = below key (some k) l := by
  simp only [below, List.filter_filter]
  refine List.filter_congr fun a _ => ?_
  cases c with
  | none => simp
  | some k' =>
      have hk : key a < k → key a < k' := fun hlt => hlt.trans_le (h k' rfl)
      by_cases hlt : key a < k
      · simp [hlt, hk hlt]
      · simp [hlt]

/-- All of a descending list lies below a cursor that lies above its first row. -/
theorem below_eq_self_iff {k : κ} (h : Descending key (b :: l)) :
    below key (some k) (b :: l) = b :: l ↔ key b < k := by
  rw [below, List.filter_eq_self]
  constructor
  · intro hall
    simpa using hall b List.mem_cons_self
  · intro hb a ha
    rcases List.mem_cons.mp ha with rfl | ha
    · simpa using hb
    · simpa using ((List.pairwise_cons.mp h).1 a ha).trans hb

/-! ## Exact cursors -/

theorem exact_of_length_le (h : l.length ≤ n) : Exact key cut n l := by
  intro k a b _ hb
  have hlt := (List.getElem?_eq_some_iff.mp hb).1
  omega

/-- The first cursor and those of the pages behind it. -/
theorem exact_iff (ha : l[n - 1]? = some a) (hb : l[n]? = some b) :
    Exact key cut n l ↔ (∃ c, cut a = some c ∧ key b < c) ∧ Exact key cut n (l.drop n) := by
  constructor
  · intro h
    refine ⟨h 0 a b (by simpa using ha) (by simpa using hb), fun k a' b' ha' hb' => ?_⟩
    rw [List.getElem?_drop] at ha' hb'
    refine h (k + 1) a' b' ?_ ?_
    · rw [Nat.succ_mul, ← ha']
      congr 1
      omega
    · rw [Nat.succ_mul, ← hb']
      congr 1
      omega
  · rintro ⟨hfirst, hrest⟩ k a' b' ha' hb'
    cases k with
    | zero =>
        rw [Nat.zero_mul, Nat.zero_add] at ha' hb'
        cases ha.symm.trans ha'
        cases hb.symm.trans hb'
        exact hfirst
    | succ k =>
        refine hrest k a' b' ?_ ?_
        · rw [List.getElem?_drop, ← ha', Nat.succ_mul]
          congr 1
          omega
        · rw [List.getElem?_drop, ← hb', Nat.succ_mul]
          congr 1
          omega

/-! ## Walks -/

section

variable {stores : Nat → List α} {i : Nat}

/-- What a cursor that was computed from the last row of a page leaves of the list. -/
private theorem below_cut {k : κ} (h : Descending key l) (hn : 0 < n)
    (ha : (below key c l)[n - 1]? = some a) (hk : k ≤ key a) :
    below key (some k) l = below key (some k) ((below key c l).drop n) := by
  have hmem := (mem_below.mp (List.mem_of_getElem? ha)).2
  rw [← below_below fun k' hk' => hk.trans (hmem k' hk').le, below_eq_drop_filter h.below ha hk,
    Nat.sub_add_cancel hn]

theorem walk_short (hc : below key c (stores i) = below key c l)
    (h : (below key c l).length ≤ n) (m : Nat) :
    walk key cut (fun _ => n) stores (m + 1) i c = (below key c l, .ended) := by
  rw [walk]
  simp only [hc, if_neg (Nat.not_lt.mpr h)]

theorem walk_refused (hc : below key c (stores i) = below key c l)
    (h : n < (below key c l).length) (ha : (below key c l)[n - 1]? = some a) (hcut : cut a = none)
    (m : Nat) :
    walk key cut (fun _ => n) stores (m + 1) i c = ((below key c l).take n, .refused) := by
  rw [walk]
  simp only [hc, if_pos h, ha, Option.bind_some, hcut]

theorem walk_long {k : κ} (hc : below key c (stores i) = below key c l)
    (h : n < (below key c l).length) (ha : (below key c l)[n - 1]? = some a) (hcut : cut a = some k)
    (m : Nat) :
    walk key cut (fun _ => n) stores (m + 1) i c =
      ((below key c l).take n ++ (walk key cut (fun _ => n) stores m (i + 1) (some k)).1,
        (walk key cut (fun _ => n) stores m (i + 1) (some k)).2) := by
  rw [walk]
  simp only [hc, if_pos h, ha, Option.bind_some, hcut]

variable (hl : Descending key l) (hcut : ∀ a k, cut a = some k → k ≤ key a)
  (hstores : ∀ i, ∀ a ∈ l, ∀ k ≤ key a, below key (some k) (stores i) = below key (some k) l)

include hl hcut hstores

/-- A walk returns rows of the first list only, each at most once and in their order. -/
theorem walk_sublist (hn : 0 < n) (m : Nat) (hc : below key c (stores i) = below key c l) :
    (walk key cut (fun _ => n) stores m i c).1.Sublist (below key c l) := by
  induction m generalizing i c with
  | zero => exact List.nil_sublist _
  | succ m ih =>
    rcases Nat.lt_or_ge n (below key c l).length with hlong | hshort
    · have ha := List.getElem?_eq_getElem (show n - 1 < (below key c l).length by omega)
      generalize (below key c l)[n - 1] = a at ha
      cases hk : cut a with
      | none =>
          rw [walk_refused hc hlong ha hk]
          exact List.take_sublist _ _
      | some k =>
          have hle := hcut a k hk
          have hrest := ih (hstores (i + 1) a (mem_below.mp (List.mem_of_getElem? ha)).1 k hle)
          rw [below_cut hl hn ha hle] at hrest
          rw [walk_long hc hlong ha hk]
          have happend := (List.Sublist.refl ((below key c l).take n)).append
            (hrest.trans List.filter_sublist)
          rwa [List.take_append_drop] at happend
    · rw [walk_short hc hshort]

/-- A walk ends with all rows just when every cursor on its way lies above the row that comes
next. -/
theorem walk_ended_iff (hn : 0 < n) (hc : below key c (stores i) = below key c l) :
    (∃ m, walk key cut (fun _ => n) stores m i c = (below key c l, .ended)) ↔
      Exact key cut n (below key c l) := by
  induction hlen : (below key c l).length using Nat.strongRecOn generalizing i c with
  | _ len ih =>
  rcases Nat.lt_or_ge n (below key c l).length with hlong | hshort
  · have ha := List.getElem?_eq_getElem (show n - 1 < (below key c l).length by omega)
    have hb := List.getElem?_eq_getElem hlong
    generalize (below key c l)[n - 1] = a at ha
    have hdrop := List.drop_eq_getElem_cons hlong
    generalize (below key c l)[n] = b at hb hdrop
    rw [exact_iff ha hb]
    cases hk : cut a with
    | none =>
        constructor
        · rintro ⟨m, hm⟩
          cases m with
          | zero => cases congrArg Prod.snd hm
          | succ m =>
              rw [walk_refused hc hlong ha hk] at hm
              cases congrArg Prod.snd hm
        · rintro ⟨⟨k, hk', -⟩, -⟩
          cases hk'
    | some k =>
        have hle := hcut a k hk
        have hcut' := below_cut hl hn ha hle
        have hc' := hstores (i + 1) a (mem_below.mp (List.mem_of_getElem? ha)).1 k hle
        -- The rest of the walk starts from the rest of the rows just when the cursor skips none.
        have hself : below key (some k) l = (below key c l).drop n ↔ key b < k := by
          rw [hcut', hdrop]
          exact below_eq_self_iff (hdrop ▸ hl.below.drop)
        have hrest : key b < k →
            ((∃ m, walk key cut (fun _ => n) stores m (i + 1) (some k) =
              ((below key c l).drop n, .ended)) ↔ Exact key cut n ((below key c l).drop n)) := by
          intro hb'
          have heq := hself.mpr hb'
          rw [← heq]
          refine ih _ ?_ hc' rfl
          rw [heq, List.length_drop]
          omega
        constructor
        · rintro ⟨m, hm⟩
          cases m with
          | zero => cases congrArg Prod.snd hm
          | succ m =>
              rw [walk_long hc hlong ha hk] at hm
              obtain ⟨hrows, hended⟩ := Prod.mk.inj hm
              have hrows : (walk key cut (fun _ => n) stores m (i + 1) (some k)).1 =
                  (below key c l).drop n :=
                List.append_cancel_left (hrows.trans (List.take_append_drop n _).symm)
              have hsub := walk_sublist hl hcut hstores hn m hc'
              rw [hrows] at hsub
              have hall : below key (some k) l = (below key c l).drop n := by
                refine List.Sublist.antisymm ?_ hsub
                rw [hcut']
                exact List.filter_sublist
              have hb' := hself.mp hall
              exact ⟨⟨k, rfl, hb'⟩, (hrest hb').mp ⟨m, Prod.ext hrows hended⟩⟩
        · rintro ⟨⟨k', hk', hb'⟩, hexact⟩
          cases hk'
          obtain ⟨m, hm⟩ := (hrest hb').mpr hexact
          refine ⟨m + 1, ?_⟩
          rw [walk_long hc hlong ha hk, hm, List.take_append_drop]
  · refine iff_of_true ⟨1, walk_short hc hshort 0⟩ (exact_of_length_le hshort)

end

end Keyset
