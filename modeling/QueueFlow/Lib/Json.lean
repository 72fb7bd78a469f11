-- SUMMARY: JSON texts: a parser for the whole grammar, and records of strings written and read back.
import QueueFlow.Lib.Bytes

/-!
# JSON

Strings are sequences of UTF-16 units in the source language, so that an escape may name half of a
pair. The parser collects units and joins the pairs afterwards; a half that stays alone has no
character and is read as the replacement character, which is also what an encoder to UTF-8 would
make of it. Numbers are kept as they were written.
-/

inductive Json where
  | null
  | bool (b : Bool)
  | number (text : List Char)
  | string (s : List Char)
  | array (items : List Json)
  | object (fields : List (List Char × Json))

namespace Json

open Bytes

/-- The value of a key. A key that is given twice has the last value. -/
def field? (key : List Char) : Json → Option Json
  | .object fields => (fields.reverse.find? fun f => f.1 = key).map (·.2)
  | _ => none

def string? : Json → Option (List Char)
  | .string s => some s
  | _ => none

/-! ## UTF-16 -/

def isHigh (u : Nat) : Bool := 0xD800 ≤ u && u < 0xDC00

def isLow (u : Nat) : Bool := 0xDC00 ≤ u && u < 0xE000

/-- The character of a unit that is not part of a pair. -/
def ofUnit (u : Nat) : Char := if isHigh u || isLow u then Bytes.replacement else Char.ofNat u

def ofUnits : List Nat → List Char
  | u :: v :: us =>
      if isHigh u && isLow v then
        Char.ofNat (0x10000 + (u - 0xD800) * 0x400 + (v - 0xDC00)) :: ofUnits us
      else ofUnit u :: ofUnits (v :: us)
  | [u] => [ofUnit u]
  | [] => []

private theorem ofUnits_cons {u : Nat} (h : isHigh u = false) (us : List Nat) :
    ofUnits (u :: us) = ofUnit u :: ofUnits us := by
  cases us with
  | nil => rfl
  | cons v us => simp [ofUnits, h]

private theorem not_surrogate (c : Char) : isHigh c.toNat = false ∧ isLow c.toNat = false := by
  have h := c.valid
  simp only [UInt32.isValidChar, Nat.isValidChar] at h
  simp only [isHigh, isLow, Char.toNat, Bool.and_eq_false_iff, decide_eq_false_iff_not]
  omega

theorem ofUnits_units (c : Char) (us : List Nat) :
    ofUnits (units c ++ us) = c :: ofUnits us := by
  obtain ⟨hhigh, hlow⟩ := not_surrogate c
  by_cases hc : c.toNat < 0x10000
  · have hone : ofUnit c.toNat = c := by
      rw [ofUnit, hhigh, hlow]
      exact Char.ofNat_toNat c
    rw [units, if_pos hc, List.singleton_append, ofUnits_cons hhigh, hone]
  · have hmax : c.toNat < 0x110000 := by
      have h := c.valid
      simp only [UInt32.isValidChar, Nat.isValidChar] at h
      simp only [Char.toNat]
      omega
    have hpair : isHigh (0xD800 + (c.toNat - 0x10000) / 0x400) &&
        isLow (0xDC00 + (c.toNat - 0x10000) % 0x400) := by
      simp only [isHigh, isLow, Bool.and_eq_true, decide_eq_true_eq]
      omega
    have hjoin : 0x10000 + (0xD800 + (c.toNat - 0x10000) / 0x400 - 0xD800) * 0x400 +
        (0xDC00 + (c.toNat - 0x10000) % 0x400 - 0xDC00) = c.toNat := by omega
    rw [units, if_neg hc, List.cons_append, List.singleton_append, ofUnits, if_pos hpair, hjoin,
      Char.ofNat_toNat]

/-! ## Strings -/

def hex4 (a b c d : Char) : Option Nat := do
  let w ← hexValue a
  let x ← hexValue b
  let y ← hexValue c
  let z ← hexValue d
  pure (w * 4096 + x * 256 + y * 16 + z)

/-- The unit that a letter after a backslash stands for. -/
def escaped : Char → Option Nat
  | '"' => some 34
  | '\\' => some 92
  | '/' => some 47
  | 'b' => some 8
  | 'f' => some 12
  | 'n' => some 10
  | 'r' => some 13
  | 't' => some 9
  | _ => none

/-- The units up to the closing quote, and what is behind it. -/
def stringUnits : List Char → Option (List Nat × List Char)
  | '"' :: t => some ([], t)
  | '\\' :: 'u' :: a :: b :: c :: d :: t => do
      let u ← hex4 a b c d
      let (us, t) ← stringUnits t
      pure (u :: us, t)
  | '\\' :: e :: t => do
      let u ← escaped e
      let (us, t) ← stringUnits t
      pure (u :: us, t)
  | c :: t =>
      if c.toNat < 32 then none
      else do
        let (us, t) ← stringUnits t
        pure (units c ++ us, t)
  | [] => none

def readString (t : List Char) : Option (List Char × List Char) :=
  (stringUnits t).map fun (us, t) => (ofUnits us, t)

/-- How a character is written between quotes. -/
def escape (c : Char) : List Char :=
  if c = '"' then ['\\', '"']
  else if c = '\\' then ['\\', '\\']
  else if c.toNat = 8 then ['\\', 'b']
  else if c.toNat = 12 then ['\\', 'f']
  else if c.toNat = 10 then ['\\', 'n']
  else if c.toNat = 13 then ['\\', 'r']
  else if c.toNat = 9 then ['\\', 't']
  else if c.toNat < 32 then ['\\', 'u', '0', '0', hexChar (c.toNat / 16), hexChar (c.toNat % 16)]
  else [c]

def quote (s : List Char) : List Char := '"' :: (s.flatMap escape ++ ['"'])

private theorem units_of_lt {c : Char} (h : c.toNat < 128) : units c = [c.toNat] :=
  if_pos (by omega)

/-- A literal character takes neither of the two branches for backslashes. -/
private theorem stringUnits_literal {c : Char} (t : List Char) (hquote : c ≠ '"')
    (hslash : c ≠ '\\') (hc : ¬ c.toNat < 32) :
    stringUnits (c :: t) = (stringUnits t).map fun p => (units c ++ p.1, p.2) := by
  rw [stringUnits]
  · simp only [hc, if_false]
    cases stringUnits t <;> rfl
  · exact hquote
  · rintro a b c' d t' rfl
    exact absurd rfl hslash
  · rintro e t' rfl
    exact absurd rfl hslash

theorem stringUnits_escape (c : Char) (t : List Char) :
    stringUnits (escape c ++ t) = (stringUnits t).map fun p => (units c ++ p.1, p.2) := by
  have hbind : ∀ u : Nat, (do let p ← stringUnits t; pure (u :: p.1, p.2) :
      Option (List Nat × List Char)) = (stringUnits t).map fun p => ([u] ++ p.1, p.2) := by
    intro u
    cases stringUnits t <;> rfl
  unfold escape
  split
  case isTrue h =>
    subst h
    exact hbind 34
  split
  case isTrue h =>
    subst h
    exact hbind 92
  iterate 5
    split
    case isTrue h =>
      rw [units_of_lt (by omega), h]
      exact hbind _
  split
  case isTrue h =>
    have hhigh := hexValue_hexChar (c.toNat / 16) (by omega)
    have hlow := hexValue_hexChar (c.toNat % 16) (by omega)
    have hread : hex4 '0' '0' (hexChar (c.toNat / 16)) (hexChar (c.toNat % 16)) = some c.toNat := by
      have hzero : hexValue '0' = some 0 := by decide
      simp only [hex4, hzero, hhigh, hlow, Option.bind_eq_bind, Option.bind_some, Option.pure_def,
        Option.some.injEq]
      omega
    rw [units_of_lt (by omega)]
    simp only [List.cons_append, List.nil_append]
    rw [stringUnits, hread]
    exact hbind _
  case isFalse hquote hslash _ _ _ _ _ h => exact stringUnits_literal t hquote hslash h

theorem stringUnits_body (s t : List Char) :
    stringUnits (s.flatMap escape ++ '"' :: t) = some (s.flatMap units, t) := by
  induction s with
  | nil => rfl
  | cons c s ih =>
    rw [List.flatMap_cons, List.append_assoc, stringUnits_escape, ih]
    rfl

theorem ofUnits_flatMap (s : List Char) : ofUnits (s.flatMap units) = s := by
  induction s with
  | nil => rfl
  | cons c s ih => rw [List.flatMap_cons, ofUnits_units, ih]

theorem readString_body (s t : List Char) :
    readString (s.flatMap escape ++ '"' :: t) = some (s, t) := by
  simp only [readString, stringUnits_body, Option.map_some, ofUnits_flatMap]

/-! ## Numbers -/

def isDigit (c : Char) : Bool := 48 ≤ c.toNat && c.toNat ≤ 57

/-- At least one digit. -/
def readDigits (t : List Char) : Option (List Char × List Char) :=
  if t.takeWhile isDigit = [] then none else some (t.takeWhile isDigit, t.dropWhile isDigit)

def readSign (allowed : List Char) : List Char → List Char × List Char
  | c :: t => if c ∈ allowed then ([c], t) else ([], c :: t)
  | [] => ([], [])

/-- No leading zeros. -/
def readInt (t : List Char) : Option (List Char × List Char) :=
  match readDigits t with
  | some ('0' :: _ :: _, _) => none
  | digits => digits

def readFraction : List Char → Option (List Char × List Char)
  | '.' :: t => (readDigits t).map fun (ds, t) => ('.' :: ds, t)
  | t => some ([], t)

def readExponent : List Char → Option (List Char × List Char)
  | c :: t =>
      if c = 'e' ∨ c = 'E' then do
        let (sign, t) := readSign ['+', '-'] t
        let (ds, t) ← readDigits t
        pure (c :: (sign ++ ds), t)
      else some ([], c :: t)
  | [] => some ([], [])

def readNumber (t : List Char) : Option (Json × List Char) := do
  let (sign, t) := readSign ['-'] t
  let (int, t) ← readInt t
  let (fraction, t) ← readFraction t
  let (exponent, t) ← readExponent t
  pure (.number (sign ++ int ++ fraction ++ exponent), t)

/-! ## Values -/

def isSpace (c : Char) : Bool := c = ' ' || c = '\t' || c = '\n' || c = '\r'

def skipSpaces (t : List Char) : List Char := t.dropWhile isSpace

/-- `t` without the literal in front of it. -/
def readLiteral (literal : List Char) (value : Json) (t : List Char) : Option (Json × List Char) :=
  if literal.isPrefixOf t then some (value, t.drop literal.length) else none

mutual

/-- One value; every call consumes a character before the next, so that a text needs no more fuel
than it has characters. -/
def readValue : Nat → List Char → Option (Json × List Char)
  | 0, _ => none
  | fuel + 1, t =>
      match skipSpaces t with
      | '"' :: t => (readString t).map fun (s, t) => (.string s, t)
      | '{' :: t =>
          match skipSpaces t with
          | '}' :: t => some (.object [], t)
          | t => (readFields fuel t).map fun (fields, t) => (.object fields, t)
      | '[' :: t =>
          match skipSpaces t with
          | ']' :: t => some (.array [], t)
          | t => (readItems fuel t).map fun (items, t) => (.array items, t)
      | t =>
          readLiteral ['n', 'u', 'l', 'l'] .null t <|>
          readLiteral ['t', 'r', 'u', 'e'] (.bool true) t <|>
          readLiteral ['f', 'a', 'l', 's', 'e'] (.bool false) t <|>
          readNumber t

/-- The fields of an object, up to and with the closing brace. -/
def readFields : Nat → List Char → Option (List (List Char × Json) × List Char)
  | 0, _ => none
  | fuel + 1, t =>
      match skipSpaces t with
      | '"' :: t => do
          let (key, t) ← readString t
          match skipSpaces t with
          | ':' :: t => do
              let (value, t) ← readValue fuel t
              match skipSpaces t with
              | ',' :: t => do
                  let (fields, t) ← readFields fuel t
                  pure ((key, value) :: fields, t)
              | '}' :: t => pure ([(key, value)], t)
              | _ => none
          | _ => none
      | _ => none

/-- The items of an array, up to and with the closing bracket. -/
def readItems : Nat → List Char → Option (List Json × List Char)
  | 0, _ => none
  | fuel + 1, t => do
      let (value, t) ← readValue fuel t
      match skipSpaces t with
      | ',' :: t => do
          let (items, t) ← readItems fuel t
          pure (value :: items, t)
      | ']' :: t => pure ([value], t)
      | _ => none

end

def parse (t : List Char) : Option Json :=
  match readValue (t.length + 1) t with
  | some (value, rest) => if skipSpaces rest = [] then some value else none
  | none => none

/-! ## Records of strings -/

/-- The fields with the closing brace. -/
def fieldsText : List (List Char × List Char) → List Char
  | [] => ['}']
  | [f] => quote f.1 ++ ':' :: (quote f.2 ++ ['}'])
  | f :: fields => quote f.1 ++ ':' :: (quote f.2 ++ ',' :: fieldsText fields)

def stringifyRecord (fields : List (List Char × List Char)) : List Char := '{' :: fieldsText fields

def record (fields : List (List Char × List Char)) : Json :=
  .object (fields.map fun f => (f.1, .string f.2))

theorem skipSpaces_cons {c : Char} (t : List Char) (h : isSpace c = false) :
    skipSpaces (c :: t) = c :: t := by
  simp [skipSpaces, h]

theorem quote_append (s t : List Char) : quote s ++ t = '"' :: (s.flatMap escape ++ '"' :: t) := by
  simp [quote]

theorem readValue_quote (fuel : Nat) (s t : List Char) :
    readValue (fuel + 1) (quote s ++ t) = some (.string s, t) := by
  rw [quote_append, readValue, skipSpaces_cons _ (by decide)]
  simp only [readString_body, Option.map_some]

/-- What stands behind the key and the value of a field decides how the fields go on. -/
private theorem readFields_quote (fuel : Nat) (key value t : List Char) :
    readFields (fuel + 2) (quote key ++ ':' :: (quote value ++ t)) =
      match skipSpaces t with
      | ',' :: t => do
          let (fields, t) ← readFields (fuel + 1) t
          pure ((key, .string value) :: fields, t)
      | '}' :: t => pure ([(key, .string value)], t)
      | _ => none := by
  rw [quote_append, readFields, skipSpaces_cons _ (by decide)]
  simp only [readString_body, Option.bind_eq_bind, Option.bind_some,
    skipSpaces_cons (c := ':') _ (by decide), readValue_quote]

theorem readFields_fieldsText {fields : List (List Char × List Char)} (hne : fields ≠ []) {fuel : Nat}
    (hfuel : fields.length < fuel) (t : List Char) :
    readFields fuel (fieldsText fields ++ t) =
      some (fields.map fun f => (f.1, .string f.2), t) := by
  induction fields generalizing fuel with
  | nil => exact absurd rfl hne
  | cons f fields ih =>
    obtain ⟨fuel, rfl⟩ : ∃ n, fuel = n + 2 :=
      ⟨fuel - 2, by simp only [List.length_cons] at hfuel; omega⟩
    cases fields with
    | nil =>
        simp only [fieldsText, List.append_assoc, List.cons_append, List.nil_append]
        rw [readFields_quote, skipSpaces_cons _ (by decide)]
        rfl
    | cons g fields =>
        simp only [fieldsText, List.append_assoc, List.cons_append]
        rw [readFields_quote, skipSpaces_cons _ (by decide)]
        simp only [List.length_cons] at hfuel
        have hrest : readFields (fuel + 1) (fieldsText (g :: fields) ++ t) =
            some ((g :: fields).map fun f => (f.1, .string f.2), t) :=
          ih (List.cons_ne_nil g fields) (by simp only [List.length_cons]; omega)
        simp only [hrest]
        rfl

theorem length_lt_fieldsText (fields : List (List Char × List Char)) :
    fields.length < (fieldsText fields).length := by
  induction fields with
  | nil => exact Nat.zero_lt_one
  | cons f fields ih =>
    cases fields with
    | nil =>
        simp only [fieldsText, quote, List.length_append, List.length_cons]
        omega
    | cons g fields =>
        simp only [fieldsText, List.length_append, List.length_cons] at ih ⊢
        omega

/-- A record of strings is read back as it was written. -/
theorem parse_stringifyRecord (fields : List (List Char × List Char)) :
    parse (stringifyRecord fields) = some (record fields) := by
  have hvalue : readValue ((stringifyRecord fields).length + 1) (stringifyRecord fields) =
      some (record fields, []) := by
    rw [readValue, stringifyRecord, skipSpaces_cons _ (by decide)]
    cases fields with
    | nil => rfl
    | cons f fields =>
      have hread : readFields ((fieldsText (f :: fields)).length + 1) (fieldsText (f :: fields)) =
          some ((f :: fields).map fun f => (f.1, .string f.2), []) := by
        have := readFields_fieldsText (List.cons_ne_nil f fields)
          (Nat.lt_succ_of_lt (length_lt_fieldsText (f :: fields))) []
        rwa [List.append_nil] at this
      have hquote : ∃ t, fieldsText (f :: fields) = '"' :: t := by
        cases fields <;> exact ⟨_, rfl⟩
      obtain ⟨t, ht⟩ := hquote
      simp only [ht, List.length_cons, skipSpaces_cons (c := '"') t (by decide)] at hread ⊢
      change Option.map _ (readFields (t.length + 1 + 1) ('"' :: t)) = _
      rw [hread]
      rfl
  rw [parse, hvalue]
  rfl

end Json
