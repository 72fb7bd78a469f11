-- SUMMARY: What the language provides on strings and numbers: trim, split and join, and the values of Number.
import QueueFlow.Shared.Uuid
import QueueFlow.Lib.Bytes

/-!
# Strings and numbers of the language

A text is a list of characters here; the functions below are those of `String.prototype` on it. The
result of `Number` is a rational number where it is finite.
-/

namespace QueueFlow

/-- White space and line terminators. -/
def isSpace (c : Char) : Bool :=
  let n := c.toNat
  (9 ≤ n && n ≤ 13) || n = 0x20 || n = 0xA0 || n = 0x1680 || (0x2000 ≤ n && n ≤ 0x200A) ||
    n = 0x2028 || n = 0x2029 || n = 0x202F || n = 0x205F || n = 0x3000 || n = 0xFEFF

def trim (t : Text) : Text := ((t.dropWhile isSpace).reverse.dropWhile isSpace).reverse

/-- `t.split(c)`; there is always a first part. -/
def split (c : Char) : Text → List Text
  | [] => [[]]
  | d :: t =>
      if d = c then [] :: split c t
      else
        match split c t with
        | part :: parts => (d :: part) :: parts
        | [] => [[d]]

/-- `parts.join(separator)`. -/
def join (separator : Text) : List Text → Text
  | [] => []
  | [part] => part
  | part :: parts => part ++ (separator ++ join separator parts)

/-- `t.startsWith(prefix)`, with what is left of `t` behind the prefix. -/
def afterPrefix (start t : Text) : Option Text :=
  if start.isPrefixOf t then some (t.drop start.length) else none

/-- What stands before and behind the first `c`. -/
def cutAt (c : Char) (t : Text) : Option (Text × Text) :=
  match t.dropWhile (· ≠ c) with
  | [] => none
  | _ :: rest => some (t.takeWhile (· ≠ c), rest)

inductive JsNumber where
  | nan
  /-- One of the two infinities. -/
  | infinite (negative : Bool)
  | finite (value : ℚ)
  deriving DecidableEq

/-- `Number.isFinite(n)`, with the number itself. -/
def JsNumber.finite? : JsNumber → Option ℚ
  | .finite q => some q
  | _ => none

/-- `String(n)`. -/
def decimal (n : Nat) : Text := Nat.toDigits 10 n

/-! ## decodeURIComponent -/

/-- One escaped byte. -/
def percentByte : Text → Option (UInt8 × Text)
  | '%' :: a :: b :: t => do
      let x ← Bytes.hexValue a
      let y ← Bytes.hexValue b
      pure (UInt8.ofNat (x * 16 + y), t)
  | _ => none

def percentBytes : Nat → Text → Option (List UInt8 × Text)
  | 0, t => some ([], t)
  | n + 1, t => do
      let (b, t) ← percentByte t
      let (bs, t) ← percentBytes n t
      pure (b :: bs, t)

/-- How many bytes belong to the one that a character starts with. -/
def continuation (b : UInt8) : Option Nat :=
  if b < 0x80 then some 0
  else if 0xC2 ≤ b ∧ b ≤ 0xDF then some 1
  else if 0xE0 ≤ b ∧ b ≤ 0xEF then some 2
  else if 0xF0 ≤ b ∧ b ≤ 0xF4 then some 3
  else none

/-- Every call takes a character off the text, so that its length is fuel enough. -/
def decodePercent : Nat → Text → Option Text
  | _, [] => some []
  | 0, _ :: _ => none
  | fuel + 1, c :: t =>
      if c = '%' then do
        let (b, t) ← percentByte (c :: t)
        let (bs, t) ← percentBytes (← continuation b) t
        let c ← ByteArray.utf8DecodeChar? (b :: bs).toByteArray 0
        (decodePercent fuel t).map (c :: ·)
      else (decodePercent fuel t).map (c :: ·)

/-- The text, or `none` where a `URIError` is thrown. -/
def decodeURIComponent (t : Text) : Option Text := decodePercent t.length t

/-! ## Laws -/

variable {c : Char} {t t' : Text}

theorem trim_of_forall (h : ∀ c ∈ t, isSpace c = false) : trim t = t := by
  have hdrop (t : Text) (h : ∀ c ∈ t, isSpace c = false) : t.dropWhile isSpace = t := by
    cases t with
    | nil => rfl
    | cons c t => rw [List.dropWhile_cons_of_neg (by simp [h c List.mem_cons_self])]
  rw [trim, hdrop t h, hdrop _ fun c hc => h c (List.mem_reverse.mp hc), List.reverse_reverse]

theorem split_ne_nil : split c t ≠ [] := by
  cases t with
  | nil => nofun
  | cons d t =>
      rw [split]
      split
      · nofun
      · split <;> nofun

theorem split_of_not_mem (h : c ∉ t) : split c t = [t] := by
  induction t with
  | nil => rfl
  | cons d t ih =>
    rw [split, if_neg (List.ne_of_not_mem_cons h).symm, ih (List.not_mem_of_not_mem_cons h)]

theorem split_append (h : c ∉ t) : split c (t ++ c :: t') = t :: split c t' := by
  induction t with
  | nil => rw [List.nil_append, split, if_pos rfl]
  | cons d t ih =>
    rw [List.cons_append, split, if_neg (List.ne_of_not_mem_cons h).symm,
      ih (List.not_mem_of_not_mem_cons h)]

theorem join_split (c : Char) (t : Text) : join [c] (split c t) = t := by
  induction t with
  | nil => rfl
  | cons d t ih =>
    obtain ⟨part, parts, hsplit⟩ := List.exists_cons_of_ne_nil (split_ne_nil (c := c) (t := t))
    rw [split]
    rw [hsplit] at ih
    split
    · rename_i hd
      rw [hsplit, join, ih, hd]
      · rfl
      · nofun
    · rw [hsplit]
      cases parts with
      | nil => exact congrArg (d :: ·) ih
      | cons p ps => exact congrArg (d :: ·) ih

theorem cutAt_append (h : c ∉ t) : cutAt c (t ++ c :: t') = some (t, t') := by
  have hall : ∀ d ∈ t, (fun d => decide (d ≠ c)) d = true := fun d hd =>
    decide_eq_true fun heq => h (heq ▸ hd)
  have hdrop : (t ++ c :: t').dropWhile (· ≠ c) = c :: t' := by
    rw [List.dropWhile_append_of_pos hall, List.dropWhile_cons_of_neg (by simp)]
  have htake : (t ++ c :: t').takeWhile (· ≠ c) = t := by
    rw [List.takeWhile_append_of_pos hall, List.takeWhile_cons_of_neg (by simp), List.append_nil]
  rw [cutAt, hdrop, htake]

theorem isDigit_of_mem_decimal {n : Nat} (h : c ∈ decimal n) : c.isDigit = true :=
  Nat.isDigit_of_mem_toDigits (by decide) (by decide) h

theorem decodeURIComponent_of_not_mem (h : '%' ∉ t) : decodeURIComponent t = some t := by
  unfold decodeURIComponent
  induction t with
  | nil => rfl
  | cons c t ih =>
    rw [List.length_cons, decodePercent, if_neg (List.ne_of_not_mem_cons h).symm,
      ih (List.not_mem_of_not_mem_cons h)]
    rfl

end QueueFlow
