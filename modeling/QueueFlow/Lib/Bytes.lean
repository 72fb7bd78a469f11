-- SUMMARY: Texts as bytes: UTF-8 with replacement characters, and the URL-safe base64 alphabet.
import Mathlib.Data.Fin.Basic
import Mathlib.Tactic.Common

/-!
# Texts as bytes

Decoding is total on both levels, as it is in the libraries of scripting languages: bytes that make no
character are read as the replacement character, one for each start of a character that is cut short. A base64 text
is read by the low bytes of its UTF-16 units, up to the first '='; what is outside the alphabet is skipped. On what
the encoders wrote, the decoders are their inverses.
-/

namespace Bytes

/-! ## UTF-8 -/

def utf8Encode (t : List Char) : List UInt8 := t.flatMap String.utf8EncodeChar

/-- U+FFFD, read where no character can be. -/
def replacement : Char := Char.ofNat 0xFFFD

/-- The bytes that may come second in a character of three or four bytes. -/
def mayFollow (b c : UInt8) : Bool :=
  if b = 0xE0 then 0xA0 ≤ c && c ≤ 0xBF
  else if b = 0xED then 0x80 ≤ c && c ≤ 0x9F
  else if b = 0xF0 then 0x90 ≤ c && c ≤ 0xBF
  else if b = 0xF4 then 0x80 ≤ c && c ≤ 0x8F
  else 0xE0 ≤ b && b ≤ 0xF4 && 0x80 ≤ c && c ≤ 0xBF

/-- How many bytes belong to the character that `b` starts, where it is cut short. -/
def truncated (b : UInt8) : List UInt8 → Nat
  | [] => 0
  | c :: bs =>
      if mayFollow b c then
        if 0xF0 ≤ b && bs.head?.any fun d => 0x80 ≤ d && d ≤ 0xBF then 2 else 1
      else 0

def utf8Decode : List UInt8 → List Char
  | [] => []
  | b :: bs =>
      match ByteArray.utf8DecodeChar? (b :: bs).toByteArray 0 with
      | some c => c :: utf8Decode (bs.drop (c.utf8Size - 1))
      | none => replacement :: utf8Decode (bs.drop (truncated b bs))
termination_by bs => bs.length
decreasing_by all_goals simp only [List.length_cons, List.length_drop]; omega

theorem utf8Encode_cons (c : Char) (t : List Char) :
    utf8Encode (c :: t) = String.utf8EncodeChar c ++ utf8Encode t := rfl

/-- A character is read off the front of the text that starts with it. -/
private theorem utf8Decode_append (c : Char) (bs : List UInt8) :
    utf8Decode (String.utf8EncodeChar c ++ bs) = c :: utf8Decode bs := by
  have hlen : (String.utf8EncodeChar c).length = c.utf8Size := String.length_utf8EncodeChar c
  have hread : ByteArray.utf8DecodeChar? (String.utf8EncodeChar c ++ bs).toByteArray 0 = some c := by
    rw [List.toByteArray_append]
    exact ByteArray.utf8DecodeChar?_utf8EncodeChar_append
  generalize String.utf8EncodeChar c = l at hlen hread
  cases l with
  | nil =>
      have := c.utf8Size_pos
      rw [List.length_nil] at hlen
      omega
  | cons b l =>
      have hdrop : (l ++ bs).drop (c.utf8Size - 1) = bs := by
        rw [← hlen, List.length_cons, Nat.add_sub_cancel, List.drop_left]
      rw [List.cons_append] at hread ⊢
      rw [utf8Decode, hread]
      simp only [hdrop]

@[simp]
theorem utf8Decode_utf8Encode (t : List Char) : utf8Decode (utf8Encode t) = t := by
  induction t with
  | nil => simp [utf8Encode, utf8Decode]
  | cons c t ih => rw [utf8Encode_cons, utf8Decode_append, ih]

/-! ## UTF-16 -/

/-- The units of a character. -/
def units (c : Char) : List Nat :=
  if c.toNat < 0x10000 then [c.toNat]
  else [0xD800 + (c.toNat - 0x10000) / 0x400, 0xDC00 + (c.toNat - 0x10000) % 0x400]

/-! ## Hexadecimal digits -/

def hexChar (n : Nat) : Char := Char.ofNat (if n < 10 then n + 48 else n + 87)

def hexValue (c : Char) : Option Nat :=
  let n := c.toNat
  if 48 ≤ n ∧ n ≤ 57 then some (n - 48)
  else if 97 ≤ n ∧ n ≤ 102 then some (n - 87)
  else if 65 ≤ n ∧ n ≤ 70 then some (n - 55)
  else none

theorem hexValue_hexChar : ∀ n < 16, hexValue (hexChar n) = some n := by decide

def hexEncode (bs : List UInt8) : List Char :=
  bs.flatMap fun b => [hexChar (b.toNat / 16), hexChar (b.toNat % 16)]

/-- What the encoder writes are digits. -/
theorem hexValue_of_mem_hexEncode {bs : List UInt8} {c : Char} (h : c ∈ hexEncode bs) :
    ∃ n, hexValue c = some n := by
  obtain ⟨b, -, hc⟩ := List.mem_flatMap.mp h
  have := b.toNat_lt
  rcases List.mem_cons.mp hc with rfl | hc
  · exact ⟨_, hexValue_hexChar _ (by omega)⟩
  · rw [List.mem_singleton.mp hc]
    exact ⟨_, hexValue_hexChar _ (by omega)⟩

/-! ## The alphabet of base64 -/

abbrev Sextet := Fin 64

def digit (d : Sextet) : Char :=
  if d.val < 26 then Char.ofNat (d.val + 65)
  else if d.val < 52 then Char.ofNat (d.val + 71)
  else if d.val < 62 then Char.ofNat (d.val - 4)
  else if d.val = 62 then '-'
  else '_'

/-- The value of a digit, in this alphabet or in the one that is not safe in URLs. -/
def digitValue (n : Nat) : Option Sextet :=
  if 65 ≤ n ∧ n ≤ 90 then some (Fin.ofNat 64 (n - 65))
  else if 97 ≤ n ∧ n ≤ 122 then some (Fin.ofNat 64 (n - 71))
  else if 48 ≤ n ∧ n ≤ 57 then some (Fin.ofNat 64 (n + 4))
  else if n = 45 ∨ n = 43 then some 62
  else if n = 95 ∨ n = 47 then some 63
  else none

theorem digitValue_digit (d : Sextet) : digitValue (digit d).toNat = some d := by
  revert d
  decide

/-- A digit is one unit of one byte, and no '='. -/
theorem units_digit (d : Sextet) :
    units (digit d) = [(digit d).toNat] ∧ (digit d).toNat % 256 = (digit d).toNat ∧ (digit d).toNat ≠ 61 := by
  revert d
  decide

/-! ## Groups of three bytes -/

/-- Three bytes make four digits; the last digits of a shorter group are padded with zeros. -/
def sextets : List UInt8 → List Sextet
  | a :: b :: c :: bs =>
      let n := a.toNat * 65536 + b.toNat * 256 + c.toNat
      Fin.ofNat 64 (n / 262144) :: Fin.ofNat 64 (n / 4096) :: Fin.ofNat 64 (n / 64) ::
        Fin.ofNat 64 n :: sextets bs
  | [a, b] =>
      let n := a.toNat * 1024 + b.toNat * 4
      [Fin.ofNat 64 (n / 4096), Fin.ofNat 64 (n / 64), Fin.ofNat 64 n]
  | [a] =>
      let n := a.toNat * 16
      [Fin.ofNat 64 (n / 64), Fin.ofNat 64 n]
  | [] => []

/-- Four digits make three bytes; what is left of a shorter group is dropped. -/
def octets : List Sextet → List UInt8
  | w :: x :: y :: z :: ds =>
      let n := w.val * 262144 + x.val * 4096 + y.val * 64 + z.val
      UInt8.ofNat (n / 65536) :: UInt8.ofNat (n / 256) :: UInt8.ofNat n :: octets ds
  | [w, x, y] =>
      let n := w.val * 4096 + x.val * 64 + y.val
      [UInt8.ofNat (n / 1024), UInt8.ofNat (n / 4)]
  | [w, x] => [UInt8.ofNat ((w.val * 64 + x.val) / 16)]
  | _ => []

private theorem ofNat_eq {n : Nat} {b : UInt8} (h : n % 256 = b.toNat) : UInt8.ofNat n = b := by
  apply UInt8.toNat_inj.mp
  rw [UInt8.toNat_ofNat']
  exact h

@[simp]
theorem octets_sextets (bs : List UInt8) : octets (sextets bs) = bs := by
  induction bs using sextets.induct with
  | case1 a b c bs ih =>
      have := a.toNat_lt
      have := b.toNat_lt
      have := c.toNat_lt
      simp only [sextets, octets, Fin.val_ofNat, ih]
      congr 1
      · exact ofNat_eq (by omega)
      · congr 1
        · exact ofNat_eq (by omega)
        · congr 1
          exact ofNat_eq (by omega)
  | case2 a b =>
      have := a.toNat_lt
      have := b.toNat_lt
      simp only [sextets, octets, Fin.val_ofNat]
      congr 1
      · exact ofNat_eq (by omega)
      · congr 1
        exact ofNat_eq (by omega)
  | case3 a =>
      have := a.toNat_lt
      simp only [sextets, octets, Fin.val_ofNat]
      congr 1
      exact ofNat_eq (by omega)
  | case4 => rfl

/-! ## Base64 -/

def base64urlEncode (bs : List UInt8) : List Char := (sextets bs).map digit

/-- The low bytes of the units, up to the first '='. -/
def base64Units (t : List Char) : List Nat := ((t.flatMap units).map (· % 256)).takeWhile (· ≠ 61)

def base64Decode (t : List Char) : List UInt8 := octets ((base64Units t).filterMap digitValue)

theorem base64Units_digits (ds : List Sextet) :
    base64Units (ds.map digit) = ds.map fun d => (digit d).toNat := by
  induction ds with
  | nil => rfl
  | cons d ds ih =>
      obtain ⟨hunits, hbyte, hno⟩ := units_digit d
      unfold base64Units at ih ⊢
      rw [List.map_cons, List.flatMap_cons, hunits, List.singleton_append, List.map_cons, hbyte,
        List.takeWhile_cons, if_pos (decide_eq_true hno), ih, List.map_cons]

@[simp]
theorem base64Decode_encode (bs : List UInt8) : base64Decode (base64urlEncode bs) = bs := by
  have hvalues : (digitValue ∘ fun d => (digit d).toNat) = some := funext digitValue_digit
  rw [base64Decode, base64urlEncode, base64Units_digits, List.filterMap_map, hvalues, List.filterMap_some,
    octets_sextets]

example : utf8Decode (base64Decode "QUJD=QUJD".toList) = "ABC".toList := by decide +kernel

end Bytes
