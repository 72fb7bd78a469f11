-- SUMMARY: Instants in milliseconds and their ISO 8601 texts, over the proleptic Gregorian calendar.
import Mathlib.Tactic.Common
import Mathlib.Tactic.Ring

/-!
# ISO 8601

An instant is a number of milliseconds since 1970. Days are counted from 1 March of the year 0, so
that a leap day is the last day of its year; 400 years have 146097 days, and in these a century
has 36524 and four years have 1461. The last century and the last of four years may be a day longer,
which is why their quotients are cut off at 3.
-/

namespace IsoTime

structure Date where
  year : Nat
  month : Nat
  day : Nat
  deriving DecidableEq, Repr

/-- The date of a day. Its year begins in March, so that January and February belong to the next. -/
def Date.ofDays (n : Nat) : Date :=
  let century := min (n % 146097 / 36524) 3
  let inCentury := n % 146097 - century * 36524
  let year := min (inCentury % 1461 / 365) 3
  let inYear := inCentury % 1461 - year * 365
  let march := n / 146097 * 400 + century * 100 + inCentury / 1461 * 4 + year
  let month := (5 * inYear + 2) / 153
  { year := if month < 10 then march else march + 1
    month := if month < 10 then month + 3 else month - 9
    day := inYear - (153 * month + 2) / 5 + 1 }

def Date.days (d : Date) : Nat :=
  let march := if d.month ≤ 2 then d.year - 1 else d.year
  let month := if d.month ≤ 2 then d.month + 9 else d.month - 3
  march / 400 * 146097 + march % 400 / 100 * 36524 + march % 100 / 4 * 1461 + march % 4 * 365 +
    (153 * month + 2) / 5 + (d.day - 1)

/-- The day is the sum of its full cycles and of what is left of it. -/
private theorem days_decompose (n : Nat) :
    ∃ era century four year inYear, century ≤ 3 ∧ four ≤ 24 ∧ year ≤ 3 ∧ inYear ≤ 365 ∧
      n = era * 146097 + century * 36524 + four * 1461 + year * 365 + inYear ∧
      Date.ofDays n =
        { year := if (5 * inYear + 2) / 153 < 10 then era * 400 + century * 100 + four * 4 + year
            else era * 400 + century * 100 + four * 4 + year + 1
          month := if (5 * inYear + 2) / 153 < 10 then (5 * inYear + 2) / 153 + 3
            else (5 * inYear + 2) / 153 - 9
          day := inYear - (153 * ((5 * inYear + 2) / 153) + 2) / 5 + 1 } := by
  refine ⟨n / 146097, min (n % 146097 / 36524) 3,
    (n % 146097 - min (n % 146097 / 36524) 3 * 36524) / 1461,
    min ((n % 146097 - min (n % 146097 / 36524) 3 * 36524) % 1461 / 365) 3,
    (n % 146097 - min (n % 146097 / 36524) 3 * 36524) % 1461 -
      min ((n % 146097 - min (n % 146097 / 36524) 3 * 36524) % 1461 / 365) 3 * 365,
    ?_, ?_, ?_, ?_, ?_, rfl⟩ <;> omega

@[simp]
theorem Date.days_ofDays (n : Nat) : (Date.ofDays n).days = n := by
  obtain ⟨era, century, four, year, inYear, hcentury, hfour, hyear, hday, hn, heq⟩ :=
    days_decompose n
  rw [heq, Date.days]
  by_cases hmonth : (5 * inYear + 2) / 153 < 10
  · simp only [hmonth, if_true]
    rw [if_neg (by omega), if_neg (by omega)]
    omega
  · simp only [hmonth, if_false]
    rw [if_pos (by omega), if_pos (by omega)]
    omega

/-- The day on which an instant lies; 719468 days lie between 1 March of the year 0 and 1970. -/
def date (ms : Nat) : Date := .ofDays (ms / 86400000 + 719468)

def year (ms : Nat) : Nat := (date ms).year

/-! ## Decimal digits -/

/-- The last `width` digits of a number. -/
def digits : Nat → Nat → List Char
  | 0, _ => []
  | width + 1, n => Char.ofNat (n / 10 ^ width % 10 + 48) :: digits width n

/-- A number of `width` digits, and what stands behind it. -/
def readNat : Nat → Nat → List Char → Option (Nat × List Char)
  | 0, acc, t => some (acc, t)
  | width + 1, acc, c :: t =>
      if 48 ≤ c.toNat ∧ c.toNat ≤ 57 then readNat width (acc * 10 + (c.toNat - 48)) t else none
  | _ + 1, _, [] => none

private theorem toNat_digit : ∀ d < 10, (Char.ofNat (d + 48)).toNat = d + 48 := by decide

private theorem readNat_digits_acc (width acc n : Nat) (t : List Char) :
    readNat width acc (digits width n ++ t) = some (acc * 10 ^ width + n % 10 ^ width, t) := by
  induction width generalizing acc with
  | zero => simp [readNat, digits, Nat.mod_one]
  | succ width ih =>
    have hdigit := toNat_digit (n / 10 ^ width % 10) (Nat.mod_lt _ (by omega))
    rw [digits, List.cons_append, readNat, if_pos (by omega), ih, hdigit, Nat.add_sub_cancel,
      Nat.mod_pow_succ, Nat.pow_succ]
    congr 2
    ring

theorem readNat_digits {width n : Nat} (h : n < 10 ^ width) (t : List Char) :
    readNat width 0 (digits width n ++ t) = some (n, t) := by
  rw [readNat_digits_acc, Nat.mod_eq_of_lt h, Nat.zero_mul, Nat.zero_add]

/-! ## Texts -/

/-- Four digits, or a sign and six. -/
def yearText (year : Nat) : List Char :=
  if year ≤ 9999 then digits 4 year else '+' :: digits 6 year

/-- The text of an instant; an error where it is further away from 1970 than a date may be. -/
def toISOString (ms : Nat) : Option (List Char) :=
  if 8640000000000000 < ms then none
  else some (yearText (date ms).year ++ '-' :: (digits 2 (date ms).month ++ '-' ::
    (digits 2 (date ms).day ++ 'T' :: (digits 2 (ms / 3600000 % 24) ++ ':' ::
    (digits 2 (ms / 60000 % 60) ++ ':' :: (digits 2 (ms / 1000 % 60) ++ '.' ::
    (digits 3 (ms % 1000) ++ ['Z'])))))))

def readYear : List Char → Option (Nat × List Char)
  | '+' :: t => readNat 6 0 t
  | t => readNat 4 0 t

/-- A number behind a separator. -/
def readField (separator : Char) (width : Nat) : List Char → Option (Nat × List Char)
  | c :: t => if c = separator then readNat width 0 t else none
  | [] => none

/-- The instant of a time of day on a date. -/
def Date.instant (d : Date) (hour minute second milli : Nat) : Nat :=
  (d.days - 719468) * 86400000 + hour * 3600000 + minute * 60000 + second * 1000 + milli

/-- The instant that the fields of a text name. -/
def readFields (t : List Char) : Option Nat := do
  let (year, t) ← readYear t
  let (month, t) ← readField '-' 2 t
  let (day, t) ← readField '-' 2 t
  let (hour, t) ← readField 'T' 2 t
  let (minute, t) ← readField ':' 2 t
  let (second, t) ← readField ':' 2 t
  let (milli, _) ← readField '.' 3 t
  pure ((Date.mk year month day).instant hour minute second milli)

/-- The instant of a text in the one format that `toISOString` writes. -/
def readISOString (t : List Char) : Option Nat :=
  (readFields t).filter fun ms => toISOString ms = some t

private theorem ofDays_bounds (n : Nat) :
    (Date.ofDays n).month < 10 ^ 2 ∧ (Date.ofDays n).day < 10 ^ 2 := by
  obtain ⟨era, century, four, year, inYear, -, -, -, hday, -, heq⟩ := days_decompose n
  rw [heq]
  constructor
  · dsimp only
    split <;> omega
  · dsimp only
    omega

private theorem year_ofDays (n : Nat) : (Date.ofDays n).year ≤ n / 146097 * 400 + 400 ∧
    n / 146097 * 400 ≤ (Date.ofDays n).year := by
  obtain ⟨era, century, four, year, inYear, hcentury, hfour, hyear, hday, hn, heq⟩ :=
    days_decompose n
  rw [heq]
  dsimp only
  split <;> omega

/-- An instant that has a text lies in a year that six digits can name. -/
theorem year_lt {ms : Nat} (h : ms ≤ 8640000000000000) : year ms < 1000000 := by
  have := (year_ofDays (ms / 86400000 + 719468)).1
  simp only [year, date]
  omega

/-- The years of four digits all have texts. -/
theorem le_of_year {ms : Nat} (h : year ms ≤ 9999) : ms ≤ 8640000000000000 := by
  have := (year_ofDays (ms / 86400000 + 719468)).2
  simp only [year, date] at h
  omega

theorem exists_toISOString {ms : Nat} (h : year ms ≤ 9999) : ∃ t, toISOString ms = some t := by
  unfold toISOString
  rw [if_neg (Nat.not_lt.mpr (le_of_year h))]
  exact ⟨_, rfl⟩

private theorem readYear_yearText {year : Nat} (h : year < 1000000) (t : List Char) :
    readYear (yearText year ++ t) = some (year, t) := by
  unfold yearText
  split
  · rename_i hfour
    have hdigit : Char.ofNat (year / 10 ^ 3 % 10 + 48) ≠ '+' := by
      intro heq
      have := toNat_digit (year / 10 ^ 3 % 10) (Nat.mod_lt _ (by omega))
      rw [heq] at this
      simp at this
    rw [← readNat_digits (show year < 10 ^ 4 by omega) t, digits, List.cons_append, readYear]
    intro t' heq
    exact hdigit (List.cons.inj heq).1
  · exact readNat_digits (show year < 10 ^ 6 by omega) t

private theorem readField_digits {width n : Nat} (c : Char) (h : n < 10 ^ width) (t : List Char) :
    readField c width (c :: (digits width n ++ t)) = some (n, t) := by
  rw [readField, if_pos rfl, readNat_digits h]

private theorem instant_date (ms : Nat) :
    (date ms).instant (ms / 3600000 % 24) (ms / 60000 % 60) (ms / 1000 % 60) (ms % 1000) = ms := by
  have hdays : (date ms).days = ms / 86400000 + 719468 := Date.days_ofDays _
  rw [Date.instant, hdays]
  omega

private theorem readFields_text {ms : Nat} {t : List Char} (h : toISOString ms = some t) :
    readFields t = some ms := by
  unfold toISOString at h
  split at h
  · cases h
  rename_i hms
  cases h
  have hyear : (date ms).year < 1000000 := year_lt (by omega)
  obtain ⟨hmonth, hday⟩ : (date ms).month < 10 ^ 2 ∧ (date ms).day < 10 ^ 2 := ofDays_bounds _
  have hhour : ms / 3600000 % 24 < 10 ^ 2 := by omega
  have hminute : ms / 60000 % 60 < 10 ^ 2 := by omega
  have hsecond : ms / 1000 % 60 < 10 ^ 2 := by omega
  have hmilli : ms % 1000 < 10 ^ 3 := by omega
  unfold readFields
  rw [readYear_yearText hyear, Option.bind_eq_bind, Option.bind_some]
  dsimp only
  rw [readField_digits '-' hmonth, Option.bind_some, readField_digits '-' hday, Option.bind_some,
    readField_digits 'T' hhour, Option.bind_some, readField_digits ':' hminute, Option.bind_some,
    readField_digits ':' hsecond, Option.bind_some, readField_digits '.' hmilli, Option.bind_some]
  exact congrArg some (instant_date ms)

/-- A text is read back as the instant that it was written for. -/
theorem readISOString_toISOString {ms : Nat} {t : List Char} (h : toISOString ms = some t) :
    readISOString t = some ms := by
  rw [readISOString, readFields_text h, Option.filter_some, if_pos (decide_eq_true h)]

end IsoTime
