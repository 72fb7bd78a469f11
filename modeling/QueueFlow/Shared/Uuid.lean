-- SUMMARY: Job ids as Postgres and the queue read them: the uuid input and output syntax, and the regular expression isUuid.
import Mathlib

/-!
# Job ids

A job id exists in two forms. Postgres holds a 128-bit value and accepts several
spellings of it; Redis holds whatever text was pushed, and compares texts byte
for byte. `uuidIn` and `uuidOut` are Postgres' input and output functions,
`isUuid` is the test of `shared/types.ts` that guards every id read from Redis.
-/

namespace QueueFlow

/-- The strings that travel through Redis. -/
abbrev Text := List Char

abbrev Hex := Fin 16

instance : LawfulBEq Text := inferInstance

instance instNeZeroHex : NeZero 16 := ⟨by decide⟩

/-- Four hexadecimal digits. -/
structure Block where
  w : Hex
  x : Hex
  y : Hex
  z : Hex
  deriving DecidableEq, Repr

/-- A uuid value: eight blocks of sixteen bits. -/
structure Uuid where
  b₀ : Block
  b₁ : Block
  b₂ : Block
  b₃ : Block
  b₄ : Block
  b₅ : Block
  b₆ : Block
  b₇ : Block
  deriving DecidableEq, Repr

/-! ## Postgres output -/

def hexDigit (d : Hex) : Char :=
  ['0', '1', '2', '3', '4', '5', '6', '7', '8', '9', 'a', 'b', 'c', 'd', 'e', 'f'].get d

def Block.text (b : Block) : Text :=
  [hexDigit b.w, hexDigit b.x, hexDigit b.y, hexDigit b.z]

/-- The canonical text: lower case, hyphens after 8, 12, 16 and 20 digits. -/
def uuidOut (u : Uuid) : Text :=
  u.b₀.text ++ (u.b₁.text ++ '-' :: (u.b₂.text ++ '-' :: (u.b₃.text ++ '-' :: (u.b₄.text ++
    '-' :: (u.b₅.text ++ (u.b₆.text ++ u.b₇.text))))))

/-! ## Postgres input -/

def readHex (c : Char) : Option Hex :=
  let n := c.toNat
  if 48 ≤ n ∧ n ≤ 57 then some (Fin.ofNat 16 (n - 48))
  else if 97 ≤ n ∧ n ≤ 102 then some (Fin.ofNat 16 (n - 87))
  else if 65 ≤ n ∧ n ≤ 70 then some (Fin.ofNat 16 (n - 55))
  else none

def readBlock : Text → Option (Block × Text)
  | c₀ :: c₁ :: c₂ :: c₃ :: t => do
      let w ← readHex c₀
      let x ← readHex c₁
      let y ← readHex c₂
      let z ← readHex c₃
      pure (⟨w, x, y, z⟩, t)
  | _ => none

def skipHyphen : Text → Text
  | '-' :: t => t
  | t => t

/-- Eight blocks, with an optional hyphen between any two of them. -/
def readUuid (t : Text) : Option (Uuid × Text) := do
  let (b₀, t) ← readBlock t
  let (b₁, t) ← readBlock (skipHyphen t)
  let (b₂, t) ← readBlock (skipHyphen t)
  let (b₃, t) ← readBlock (skipHyphen t)
  let (b₄, t) ← readBlock (skipHyphen t)
  let (b₅, t) ← readBlock (skipHyphen t)
  let (b₆, t) ← readBlock (skipHyphen t)
  let (b₇, t) ← readBlock (skipHyphen t)
  pure (⟨b₀, b₁, b₂, b₃, b₄, b₅, b₆, b₇⟩, t)

/-- The uuid that Postgres reads from a text, or `none` where it raises an error. -/
def uuidIn (t : Text) : Option Uuid :=
  match t with
  | '{' :: t =>
      match readUuid t with
      | some (u, ['}']) => some u
      | _ => none
  | t =>
      match readUuid t with
      | some (u, []) => some u
      | _ => none

/-! ## The test of the queue -/

/-- Match a text against one character class for each position. -/
def fits : List (Char → Bool) → Text → Bool
  | [], [] => true
  | p :: ps, c :: t => p c && fits ps t
  | _, _ => false

def isHyphen (c : Char) : Bool := c == '-'

/-- A hexadecimal digit of either case whose value satisfies `p`. -/
def isHex (p : Hex → Bool) (c : Char) : Bool := (readHex c).any p

def anyHex : Char → Bool := isHex fun _ => true

/-- The version digit, `[1-8]`. -/
def isVersion : Char → Bool := isHex fun d => 1 ≤ d.val && d.val ≤ 8

/-- The variant digit, `[89ab]`. -/
def isVariant : Char → Bool := isHex fun d => 8 ≤ d.val && d.val ≤ 11

/-- The regular expression UUID_RE, with its flag `i`. -/
def UUID_RE : List (Char → Bool) :=
  [anyHex, anyHex, anyHex, anyHex, anyHex, anyHex, anyHex, anyHex, isHyphen,
   anyHex, anyHex, anyHex, anyHex, isHyphen,
   isVersion, anyHex, anyHex, anyHex, isHyphen,
   isVariant, anyHex, anyHex, anyHex, isHyphen,
   anyHex, anyHex, anyHex, anyHex, anyHex, anyHex, anyHex, anyHex, anyHex, anyHex, anyHex, anyHex]

def isUuid (value : Text) : Bool := fits UUID_RE value

/-- The values that `crypto.randomUUID` returns: version 4, variant `10`. -/
def Uuid.isRandom (u : Uuid) : Bool := u.b₃.w.val == 4 && 8 ≤ u.b₄.w.val && u.b₄.w.val ≤ 11

/-- The text is one that the queue accepts, and Postgres reads the job's id from it. -/
def Names (id : Text) (job : Uuid) : Prop := isUuid id = true ∧ uuidIn id = some job

instance (id : Text) (job : Uuid) : Decidable (Names id job) :=
  inferInstanceAs (Decidable (_ ∧ _))

/-! ## The canonical text is read back -/

theorem readHex_hexDigit (d : Hex) : readHex (hexDigit d) = some d := by
  revert d
  decide

theorem hexDigit_ne_hyphen (d : Hex) : hexDigit d ≠ '-' := by
  revert d
  decide

theorem hexDigit_ne_brace (d : Hex) : hexDigit d ≠ '{' := by
  revert d
  decide

theorem readBlock_text (b : Block) (t : Text) : readBlock (b.text ++ t) = some (b, t) := by
  simp [readBlock, Block.text, readHex_hexDigit]

theorem skipHyphen_hyphen (t : Text) : skipHyphen ('-' :: t) = t := rfl

theorem skipHyphen_of_ne {c : Char} (t : Text) (h : c ≠ '-') : skipHyphen (c :: t) = c :: t := by
  unfold skipHyphen
  split
  · rename_i heq
    exact absurd (List.cons.inj heq).1 h
  · rfl

theorem skipHyphen_text (b : Block) (t : Text) : skipHyphen (b.text ++ t) = b.text ++ t :=
  skipHyphen_of_ne _ (hexDigit_ne_hyphen b.w)

theorem readUuid_uuidOut (u : Uuid) : readUuid (uuidOut u) = some (u, []) := by
  have h₇ : readBlock u.b₇.text = some (u.b₇, []) := by
    simpa using readBlock_text u.b₇ []
  have s₇ : skipHyphen u.b₇.text = u.b₇.text := by
    simpa using skipHyphen_text u.b₇ []
  simp only [readUuid, uuidOut, readBlock_text, skipHyphen_text, skipHyphen_hyphen, h₇, s₇,
    Option.bind_eq_bind, Option.bind_some, Option.pure_def]

theorem uuidIn_uuidOut (u : Uuid) : uuidIn (uuidOut u) = some u := by
  have hread := readUuid_uuidOut u
  unfold uuidIn
  split
  · rename_i t heq
    exact absurd (List.cons.inj heq).1 (hexDigit_ne_brace u.b₀.w)
  · simp [hread]

theorem uuidOut_inj {u v : Uuid} (h : uuidOut u = uuidOut v) : u = v := by
  have := uuidIn_uuidOut v
  rw [← h, uuidIn_uuidOut] at this
  exact Option.some.inj this

/-! ## What the test accepts -/

theorem isHex_hexDigit (p : Hex → Bool) (d : Hex) : isHex p (hexDigit d) = p d := by
  simp [isHex, readHex_hexDigit]

theorem isUuid_uuidOut (u : Uuid) :
    isUuid (uuidOut u) =
      ((1 ≤ u.b₃.w.val && u.b₃.w.val ≤ 8) && (8 ≤ u.b₄.w.val && u.b₄.w.val ≤ 11)) := by
  simp [isUuid, UUID_RE, uuidOut, Block.text, fits, anyHex, isVersion, isVariant, isHex_hexDigit,
    isHyphen]

/-- The ids that the API generates pass the test. -/
theorem isUuid_of_isRandom {u : Uuid} (h : u.isRandom = true) : isUuid (uuidOut u) = true := by
  rw [isUuid_uuidOut]
  simp only [Uuid.isRandom, Bool.and_eq_true, beq_iff_eq, decide_eq_true_eq] at h ⊢
  omega

theorem fits_cons {p : Char → Bool} {ps : List (Char → Bool)} {t : Text}
    (h : fits (p :: ps) t = true) : ∃ c t', t = c :: t' ∧ p c = true ∧ fits ps t' = true := by
  cases t with
  | nil => simp [fits] at h
  | cons c t =>
      simp only [fits, Bool.and_eq_true] at h
      exact ⟨c, t, rfl, h.1, h.2⟩

theorem fits_hyphen {ps : List (Char → Bool)} {t : Text} (h : fits (isHyphen :: ps) t = true) :
    ∃ t', t = '-' :: t' ∧ fits ps t' = true := by
  obtain ⟨c, t', rfl, hc, ht⟩ := fits_cons h
  exact ⟨t', by simpa [isHyphen] using hc, ht⟩

theorem readHex_of_isHex {p : Hex → Bool} {c : Char} (h : isHex p c = true) :
    ∃ d, readHex c = some d := by
  cases hr : readHex c with
  | none => simp [isHex, hr] at h
  | some d => exact ⟨d, rfl⟩

theorem isHex_ne_hyphen {p : Hex → Bool} {c : Char} (h : isHex p c = true) : c ≠ '-' := by
  rintro rfl
  simp [isHex, readHex] at h

theorem isHex_ne_brace {p : Hex → Bool} {c : Char} (h : isHex p c = true) : c ≠ '{' := by
  rintro rfl
  simp [isHex, readHex] at h

/-- Four positions that want hexadecimal digits are read as a block, and no
hyphen is skipped before it. -/
theorem fits_block {p q r s : Hex → Bool} {ps : List (Char → Bool)} {t : Text}
    (h : fits (isHex p :: isHex q :: isHex r :: isHex s :: ps) t = true) :
    ∃ b t', readBlock t = some (b, t') ∧ skipHyphen t = t ∧ fits ps t' = true := by
  obtain ⟨c₀, t₀, rfl, h₀, ht⟩ := fits_cons h
  obtain ⟨c₁, t₁, rfl, h₁, ht⟩ := fits_cons ht
  obtain ⟨c₂, t₂, rfl, h₂, ht⟩ := fits_cons ht
  obtain ⟨c₃, t₃, rfl, h₃, ht⟩ := fits_cons ht
  obtain ⟨w, hw⟩ := readHex_of_isHex h₀
  obtain ⟨x, hx⟩ := readHex_of_isHex h₁
  obtain ⟨y, hy⟩ := readHex_of_isHex h₂
  obtain ⟨z, hz⟩ := readHex_of_isHex h₃
  exact ⟨⟨w, x, y, z⟩, t₃, by simp [readBlock, hw, hx, hy, hz],
    skipHyphen_of_ne _ (isHex_ne_hyphen h₀), ht⟩

/-- Every text that the test accepts is one that Postgres reads. -/
theorem uuidIn_of_isUuid {t : Text} (h : isUuid t = true) : ∃ u, uuidIn t = some u := by
  have hbrace : ∀ t', t ≠ '{' :: t' := by
    rintro t' rfl
    obtain ⟨c, _, heq, hc, -⟩ := fits_cons h
    exact isHex_ne_brace hc (List.cons.inj heq).1.symm
  obtain ⟨b₀, t₀, h₀, -, ht⟩ := fits_block h
  obtain ⟨b₁, t₁, h₁, s₁, ht⟩ := fits_block ht
  obtain ⟨t₁', rfl, ht⟩ := fits_hyphen ht
  obtain ⟨b₂, t₂, h₂, -, ht⟩ := fits_block ht
  obtain ⟨t₂', rfl, ht⟩ := fits_hyphen ht
  obtain ⟨b₃, t₃, h₃, -, ht⟩ := fits_block ht
  obtain ⟨t₃', rfl, ht⟩ := fits_hyphen ht
  obtain ⟨b₄, t₄, h₄, -, ht⟩ := fits_block ht
  obtain ⟨t₄', rfl, ht⟩ := fits_hyphen ht
  obtain ⟨b₅, t₅, h₅, -, ht⟩ := fits_block ht
  obtain ⟨b₆, t₆, h₆, s₆, ht⟩ := fits_block ht
  obtain ⟨b₇, t₇, h₇, s₇, ht⟩ := fits_block ht
  have hnil : t₇ = [] := by
    cases t₇ with
    | nil => rfl
    | cons c t => simp [fits] at ht
  subst hnil
  have hread : readUuid t = some (⟨b₀, b₁, b₂, b₃, b₄, b₅, b₆, b₇⟩, []) := by
    simp only [readUuid, h₀, s₁, h₁, skipHyphen_hyphen, h₂, h₃, h₄, h₅, s₆, h₆, s₇, h₇,
      Option.bind_eq_bind, Option.bind_some, Option.pure_def]
  refine ⟨⟨b₀, b₁, b₂, b₃, b₄, b₅, b₆, b₇⟩, ?_⟩
  unfold uuidIn
  split
  · exact absurd rfl (hbrace _)
  · simp [hread]

end QueueFlow
