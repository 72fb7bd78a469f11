-- SUMMARY: Internet addresses: ranges, and the text forms of 32-bit and 128-bit addresses.
import Mathlib

/-!
# Internet addresses

An address is a bit vector, a range is given by a base and the number of leading bits that count.
The text forms are those that URLs are written with: four decimal octets, and eight hexadecimal
pieces of which the first longest run of zeros is left out.
-/

namespace Address

/-! ## Ranges -/

/-- `base/len`. -/
structure Cidr (n : Nat) where
  base : BitVec n
  len : Nat

/-- The leading bits of the address are those of the base. -/
def Cidr.Contains {n : Nat} (c : Cidr n) (a : BitVec n) : Prop :=
  a.toNat / 2 ^ (n - c.len) = c.base.toNat / 2 ^ (n - c.len)

instance {n : Nat} (c : Cidr n) (a : BitVec n) : Decidable (c.Contains a) :=
  inferInstanceAs (Decidable (_ = _))

/-! ## Four octets -/

def octet (a : BitVec 32) (i : Nat) : Nat := a.toNat / 256 ^ (3 - i) % 256

/-- `127.0.0.1` -/
def dotted (a : BitVec 32) : List Char :=
  Nat.toDigits 10 (octet a 0) ++ '.' :: (Nat.toDigits 10 (octet a 1) ++ '.' ::
    (Nat.toDigits 10 (octet a 2) ++ '.' :: Nat.toDigits 10 (octet a 3)))

/-! ## Eight pieces -/

def piece (a : BitVec 128) (i : Nat) : Nat := a.toNat / 65536 ^ (7 - i) % 65536

def pieces (a : BitVec 128) : List Nat := (List.range 8).map (piece a)

/-- The shortest lower-case form. -/
def hex (p : Nat) : List Char := Nat.toDigits 16 p

/-- Where the first longest run of zeros begins, and how long it is. -/
def zeroRun : List Nat → Nat × Nat
  | [] => (0, 0)
  | p :: ps =>
      let first := ((p :: ps).takeWhile (· = 0)).length
      if (zeroRun ps).2 ≤ first then (0, first) else ((zeroRun ps).1 + 1, (zeroRun ps).2)

def colons (ps : List Nat) : List Char := [':'].intercalate (ps.map hex)

/-- `2001:db8::1` -/
def compressed (a : BitVec 128) : List Char :=
  let (i, n) := zeroRun (pieces a)
  if 1 < n then colons ((pieces a).take i) ++ ':' :: ':' :: colons ((pieces a).drop (i + n))
  else colons (pieces a)

example : compressed 0x20010db8000000000000000000000001#128 = "2001:db8::1".toList := by decide
example : compressed 0x00010000000200000000000000030000#128 = "1:0:2::3:0".toList := by decide
example : compressed 0#128 = "::".toList := by decide

/-! ## Hexadecimal pieces -/

variable {p q : Nat} {ps : List Nat} {c : Char} {a : BitVec 128}

/-- The digits of a piece, the first of them not zero if there are several. -/
theorem hex_cases (hp : p < 65536) :
    p < 16 ∧ hex p = [p.digitChar] ∨
      16 ≤ p ∧ p < 256 ∧ hex p = [(p / 16).digitChar, (p % 16).digitChar] ∨
      256 ≤ p ∧ p < 4096 ∧
        hex p = [(p / 256).digitChar, (p / 16 % 16).digitChar, (p % 16).digitChar] ∨
      4096 ≤ p ∧ hex p = [(p / 4096).digitChar, (p / 256 % 16).digitChar,
        (p / 16 % 16).digitChar, (p % 16).digitChar] := by
  have hlast (n : Nat) (hn : 16 ≤ n) : hex n = hex (n / 16) ++ [(n % 16).digitChar] := by
    have h := Nat.toDigits_append_toDigits (b := 16) (n := n / 16) (d := n % 16) (by decide)
      (by omega) (Nat.mod_lt _ (by decide))
    rw [Nat.toDigits_of_lt_base (Nat.mod_lt _ (by decide)), Nat.div_add_mod] at h
    exact h.symm
  have hone (n : Nat) (hn : n < 16) : hex n = [n.digitChar] := Nat.toDigits_of_lt_base hn
  rcases Nat.lt_or_ge p 16 with h | h
  · exact .inl ⟨h, hone p h⟩
  rcases Nat.lt_or_ge p 256 with h' | h'
  · exact .inr (.inl ⟨h, h', by rw [hlast p h, hone _ (by omega)]; rfl⟩)
  rcases Nat.lt_or_ge p 4096 with h'' | h''
  · refine .inr (.inr (.inl ⟨h', h'', ?_⟩))
    rw [hlast p h, hlast (p / 16) (by omega), hone _ (by omega), Nat.div_div_eq_div_mul]
    rfl
  · refine .inr (.inr (.inr ⟨h'', ?_⟩))
    rw [hlast p h, hlast (p / 16) (by omega), Nat.div_div_eq_div_mul, hlast (p / 256) (by omega),
      hone _ (by omega), Nat.div_div_eq_div_mul]
    rfl

theorem hex_ne_nil : hex p ≠ [] := Nat.toDigits_ne_nil

theorem mem_hex (hp : p < 65536) (h : c ∈ hex p) : ∃ d < 16, c = d.digitChar := by
  rcases hex_cases hp with ⟨hlt, heq⟩ | ⟨-, hlt, heq⟩ | ⟨-, hlt, heq⟩ | ⟨-, heq⟩ <;>
    rw [heq] at h <;> simp only [List.mem_cons, List.not_mem_nil, or_false] at h
  · exact ⟨p, hlt, h⟩
  · rcases h with h | h
    · exact ⟨p / 16, by omega, h⟩
    · exact ⟨p % 16, by omega, h⟩
  · rcases h with h | h | h
    · exact ⟨p / 256, by omega, h⟩
    · exact ⟨p / 16 % 16, by omega, h⟩
    · exact ⟨p % 16, by omega, h⟩
  · rcases h with h | h | h | h
    · exact ⟨p / 4096, by omega, h⟩
    · exact ⟨p / 256 % 16, by omega, h⟩
    · exact ⟨p / 16 % 16, by omega, h⟩
    · exact ⟨p % 16, by omega, h⟩

/-! ## Pieces between colons -/

theorem colons_cons_cons : colons (p :: q :: ps) = hex p ++ ':' :: colons (q :: ps) := by
  simp [colons, List.intercalate]

theorem mem_colons (hps : ∀ p ∈ ps, p < 65536) (h : c ∈ colons ps) :
    c = ':' ∨ ∃ d < 16, c = d.digitChar := by
  induction ps with
  | nil => cases h
  | cons p ps ih =>
      cases ps with
      | nil =>
          have h : c ∈ hex p := by simpa [colons, List.intercalate] using h
          exact .inr (mem_hex (hps p List.mem_cons_self) h)
      | cons q ps =>
          rw [colons_cons_cons] at h
          rcases List.mem_append.mp h with h | h
          · exact .inr (mem_hex (hps p List.mem_cons_self) h)
          rcases List.mem_cons.mp h with rfl | h
          · exact .inl rfl
          · exact ih (fun p hp => hps p (List.mem_cons_of_mem _ hp)) h

/-! ## The compressed form -/

theorem length_pieces : (pieces a).length = 8 := by simp [pieces]

theorem piece_lt (i : Nat) : piece a i < 65536 := Nat.mod_lt _ (by decide)

theorem mem_pieces_lt (h : p ∈ pieces a) : p < 65536 := by
  obtain ⟨i, -, rfl⟩ := List.mem_map.mp h
  exact piece_lt i

/-- The run that is left out lies inside the list and consists of zeros. -/
theorem zeroRun_zeros (ps : List Nat) : (zeroRun ps).1 + (zeroRun ps).2 ≤ ps.length ∧
    ∀ p ∈ (ps.drop (zeroRun ps).1).take (zeroRun ps).2, p = 0 := by
  induction ps with
  | nil => simp [zeroRun]
  | cons p ps ih =>
      rw [zeroRun]
      split
      · have hprefix := List.takeWhile_prefix (· = 0) (l := p :: ps)
        refine ⟨by simpa using hprefix.length_le, fun q hq => ?_⟩
        rw [List.drop_zero, ← List.prefix_iff_eq_take.mp hprefix] at hq
        simpa using List.mem_takeWhile_imp hq
      · refine ⟨by rw [List.length_cons]; omega, ?_⟩
        rw [List.drop_succ_cons]
        exact ih.2

theorem mem_compressed (h : c ∈ compressed a) : c = ':' ∨ ∃ d < 16, c = d.digitChar := by
  simp only [compressed] at h
  split at h
  · rcases List.mem_append.mp h with h | h
    · exact mem_colons (fun p hp => mem_pieces_lt (List.mem_of_mem_take hp)) h
    simp only [List.mem_cons] at h
    rcases h with h | h | h
    · exact .inl h
    · exact .inl h
    · exact mem_colons (fun p hp => mem_pieces_lt (List.mem_of_mem_drop hp)) h
  · exact mem_colons (fun p hp => mem_pieces_lt hp) h

/-- The form begins with the first piece, unless that is part of the run that is left out. -/
theorem compressed_cases (a : BitVec 128) :
    (∃ rest, compressed a = hex (piece a 0) ++ ':' :: rest) ∨
      ∃ n, 1 < n ∧ n ≤ 8 ∧ (∀ p ∈ (pieces a).take n, p = 0) ∧
        compressed a = ':' :: ':' :: colons ((pieces a).drop n) := by
  obtain ⟨hlen, hzeros⟩ := zeroRun_zeros (pieces a)
  rw [length_pieces] at hlen
  have hpieces : pieces a = piece a 0 :: piece a 1 :: (pieces a).drop 2 := rfl
  simp only [compressed]
  split
  · rename_i hrun
    cases hi : (zeroRun (pieces a)).1 with
    | zero =>
        rw [hi, List.drop_zero] at hzeros
        rw [hi] at hlen
        exact .inr ⟨_, hrun, by omega, hzeros, by simp [colons]⟩
    | succ i =>
        left
        cases i with
        | zero => exact ⟨_, by rw [hpieces]; simp [colons, List.intercalate]; rfl⟩
        | succ i =>
            rw [hpieces, List.take_succ_cons, List.take_succ_cons, colons_cons_cons]
            exact ⟨_, by rw [List.append_assoc, List.cons_append]⟩
  · rw [hpieces, colons_cons_cons]
    exact .inl ⟨_, rfl⟩

theorem hex_append_ne_colon {t t' : List Char} (hp : p < 65536) : hex p ++ t ≠ ':' :: t' := by
  intro h
  obtain ⟨d, ds, hhex⟩ := List.exists_cons_of_ne_nil (hex_ne_nil (p := p))
  rw [hhex, List.cons_append] at h
  obtain ⟨n, hn, hd⟩ := mem_hex hp (hhex ▸ List.mem_cons_self)
  rw [(List.cons.inj h).1, eq_comm] at hd
  interval_cases n <;> cases hd

/-- The address whose pieces are zero but for the last one. -/
theorem eq_of_pieces {d : Nat} (h : pieces a = [0, 0, 0, 0, 0, 0, 0, d]) : a.toNat = d := by
  have hlt := a.isLt
  simp only [pieces, List.range, List.range.loop, List.map_cons, List.map_nil, piece, List.cons.injEq,
    and_true] at h
  norm_num at h hlt
  omega

private theorem pieces_of_take {n : Nat} (hn : n ≤ 8) (hzeros : ∀ p ∈ (pieces a).take n, p = 0) :
    pieces a = List.replicate n 0 ++ (pieces a).drop n := by
  have hlen : ((pieces a).take n).length = n := by rw [List.length_take, length_pieces, Nat.min_eq_left hn]
  have htake := List.eq_replicate_of_mem hzeros
  rw [hlen] at htake
  rw [← htake, List.take_append_drop]

theorem eq_zero_of_compressed (h : compressed a = "::".toList) : a = 0#128 := by
  rcases compressed_cases a with ⟨rest, hrest⟩ | ⟨n, -, hn, hzeros, hrest⟩
  · exact absurd (hrest.symm.trans h) (hex_append_ne_colon (piece_lt 0))
  have hnil : colons ((pieces a).drop n) = [] := by simpa [hrest] using h
  have hpieces := pieces_of_take hn hzeros
  have hlen := congrArg List.length hpieces
  rw [length_pieces, List.length_append, List.length_replicate] at hlen
  cases hdrop : (pieces a).drop n with
  | nil =>
      rw [hdrop] at hpieces hlen
      obtain rfl : n = 8 := by simpa using hlen.symm
      exact BitVec.eq_of_toNat_eq (eq_of_pieces (d := 0) hpieces)
  | cons p ps =>
      rw [hdrop] at hnil
      cases ps with
      | nil => exact absurd (by simpa [colons, List.intercalate] using hnil) (hex_ne_nil (p := p))
      | cons q ps => simp [colons_cons_cons] at hnil

theorem eq_one_of_compressed (h : compressed a = "::1".toList) : a = 1#128 := by
  rcases compressed_cases a with ⟨rest, hrest⟩ | ⟨n, -, hn, hzeros, hrest⟩
  · exact absurd (hrest.symm.trans h) (hex_append_ne_colon (piece_lt 0))
  have hone : colons ((pieces a).drop n) = ['1'] := by simpa [hrest] using h
  have hpieces := pieces_of_take hn hzeros
  have hlen := congrArg List.length hpieces
  rw [length_pieces, List.length_append, List.length_replicate] at hlen
  cases hdrop : (pieces a).drop n with
  | nil => simp [hdrop, colons, List.intercalate] at hone
  | cons p ps =>
      have hp : p < 65536 := mem_pieces_lt (List.mem_of_mem_drop (hdrop ▸ List.mem_cons_self))
      rw [hdrop] at hone hpieces hlen
      cases ps with
      | nil =>
          have hhex : hex p = ['1'] := by simpa [colons, List.intercalate] using hone
          obtain rfl : p = 1 := by
            rcases hex_cases hp with ⟨-, heq⟩ | ⟨-, -, heq⟩ | ⟨-, -, heq⟩ | ⟨-, heq⟩
            · simpa [heq] using hhex
            all_goals simp [heq] at hhex
          obtain rfl : n = 7 := by simpa using hlen.symm
          exact BitVec.eq_of_toNat_eq (eq_of_pieces (d := 1) hpieces)
      | cons q ps =>
          rw [colons_cons_cons] at hone
          obtain ⟨d, ds, hhex⟩ := List.exists_cons_of_ne_nil (hex_ne_nil (p := p))
          simp [hhex] at hone

end Address
