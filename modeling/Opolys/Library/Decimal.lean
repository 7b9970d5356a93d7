import Mathlib.Data.List.Basic
import Mathlib.Data.UInt
import Mathlib.Tactic.Common
import Opolys.Library.MachineInt
import Opolys.Library.Utf8

/-!
# Decimal numbers in words

The integer parser of the standard library reads digits one by one, checks every product and every
sum, and takes one plus sign in front. What it accepts is exactly the digits, possibly behind a
plus sign, whose value is a word.
-/

namespace Decimal

/-- The value of digits. -/
def value (digits : List Char) : ℕ := Nat.ofDigitChars 10 digits 0

/-- Every character is a decimal digit. -/
def AllDigits (digits : List Char) : Prop := ∀ c ∈ digits, c.isDigit = true

instance (digits : List Char) : Decidable (AllDigits digits) := List.decidableBAll _ _

@[simp] theorem allDigits_nil : AllDigits [] := by
  intro c hc
  cases hc

@[simp] theorem allDigits_cons {c : Char} {digits : List Char} :
    AllDigits (c :: digits) ↔ c.isDigit = true ∧ AllDigits digits := List.forall_mem_cons

@[simp] theorem allDigits_append {ds es : List Char} :
    AllDigits (ds ++ es) ↔ AllDigits ds ∧ AllDigits es := List.forall_mem_append

@[simp] theorem allDigits_replicate_zero (n : ℕ) : AllDigits (List.replicate n '0') := by
  intro c hc
  rw [List.eq_of_mem_replicate hc]
  rfl

theorem isDigit_ascii {c : Char} (h : c.isDigit = true) : c.utf8Size = 1 := by
  have hbounds := Char.isDigit_iff_toNat.mp h
  have hnine : '9'.toNat = 57 := rfl
  apply Char.utf8Size_eq_one_iff.mpr
  rw [UInt32.le_iff_toNat_le]
  show c.toNat ≤ 127
  omega

theorem AllDigits.size_eq {digits : List Char} (h : AllDigits digits) :
    Utf8.size digits = digits.length := Utf8.size_of_ascii fun c hc => isDigit_ascii (h c hc)

theorem AllDigits.notMem {digits : List Char} (h : AllDigits digits) {c : Char}
    (hc : c.isDigit = false) : c ∉ digits := by
  intro hmem
  rw [h c hmem] at hc
  cases hc

theorem allDigits_toDigits (n : ℕ) : AllDigits (Nat.toDigits 10 n) := fun _ hc =>
  Nat.isDigit_of_mem_toDigits (by decide) (by decide) hc

theorem value_toDigits (n : ℕ) : value (Nat.toDigits 10 n) = n := Nat.ofDigitChars_ten_toDigits

/-- Zeros behind the digits are powers of ten. -/
theorem value_append_zeros (digits : List Char) (n : ℕ) :
    value (digits ++ List.replicate n '0') = value digits * 10 ^ n := by
  unfold value
  rw [Nat.ofDigitChars_append, Nat.ofDigitChars_replicate_zero, Nat.mul_comm]

/-- Zeros in front change nothing. -/
theorem value_zeros_append (digits : List Char) (n : ℕ) :
    value (List.replicate n '0' ++ digits) = value digits := by
  unfold value
  rw [Nat.ofDigitChars_append, Nat.ofDigitChars_replicate_zero, Nat.mul_zero]

/-! ## The parser -/

/-- Why a number cannot be read. -/
inductive ParseIntError where
  | empty
  | invalidDigit
  | posOverflow
deriving DecidableEq

/-- The text of an error. -/
def ParseIntError.text : ParseIntError → String
  | .empty => "cannot parse integer from empty string"
  | .invalidDigit => "invalid digit found in string"
  | .posOverflow => "number too large to fit in target type"

/-- Read digits behind a result. -/
def digitsLoop : List Char → ℕ → Except ParseIntError ℕ
  | [], result => .ok result
  | c :: cs, result =>
    if c.isDigit then
      let product := result * 10
      if 2 ^ 64 ≤ product then .error .posOverflow
      else
        let sum := product + (c.toNat - '0'.toNat)
        if 2 ^ 64 ≤ sum then .error .posOverflow else digitsLoop cs sum
    else .error .invalidDigit

/-- Read a word. -/
def parseWord : List Char → Except ParseIntError UInt64
  | [] => .error .empty
  | ['+'] => .error .invalidDigit
  | '+' :: digits => (digitsLoop digits 0).map UInt64.ofNat
  | digits => (digitsLoop digits 0).map UInt64.ofNat

theorem le_ofDigitChars (digits : List Char) (result : ℕ) :
    result ≤ Nat.ofDigitChars 10 digits result := by
  rw [Nat.ofDigitChars_eq_ofDigitChars_zero]
  have hpos : 1 ≤ 10 ^ digits.length := Nat.one_le_pow _ _ (by omega)
  have := Nat.mul_le_mul_right result hpos
  omega

theorem digitsLoop_eq_ok {digits : List Char} {result n : ℕ} (h : result < 2 ^ 64) :
    digitsLoop digits result = .ok n ↔
      AllDigits digits ∧ Nat.ofDigitChars 10 digits result = n ∧ n < 2 ^ 64 := by
  induction digits generalizing result with
  | nil =>
    simp [digitsLoop]
    omega
  | cons c cs ih =>
    have hle := le_ofDigitChars cs (10 * result + (c.toNat - '0'.toNat))
    unfold digitsLoop
    rw [allDigits_cons, Nat.ofDigitChars_cons]
    by_cases hc : c.isDigit = true
    · rw [if_pos hc]
      dsimp only
      by_cases hproduct : 2 ^ 64 ≤ result * 10
      · rw [if_pos hproduct]
        constructor
        · intro h
          cases h
        · rintro ⟨-, rfl, hn⟩
          omega
      rw [if_neg hproduct]
      by_cases hsum : 2 ^ 64 ≤ result * 10 + (c.toNat - '0'.toNat)
      · rw [if_pos hsum]
        constructor
        · intro h
          cases h
        · rintro ⟨-, rfl, hn⟩
          omega
      · rw [if_neg hsum, ih (by omega), Nat.mul_comm result]
        simp [hc]
    · rw [if_neg hc]
      simp [hc]

theorem readDigits_eq_ok {digits : List Char} {v : UInt64} :
    (digitsLoop digits 0).map UInt64.ofNat = .ok v ↔
      AllDigits digits ∧ value digits = v.toNat := by
  constructor
  · intro h
    cases hloop : digitsLoop digits 0 with
    | error e =>
      rw [hloop] at h
      cases h
    | ok n =>
      rw [hloop] at h
      cases h
      obtain ⟨hdigits, hvalue, hn⟩ := (digitsLoop_eq_ok (by norm_num)).mp hloop
      rw [MachineInt.toNat_ofNat_of_lt hn]
      exact ⟨hdigits, hvalue⟩
  · rintro ⟨hdigits, hvalue⟩
    have hloop : digitsLoop digits 0 = .ok v.toNat :=
      (digitsLoop_eq_ok (by norm_num)).mpr ⟨hdigits, hvalue, v.toNat_lt⟩
    rw [hloop]
    show Except.ok (UInt64.ofNat v.toNat) = .ok v
    rw [UInt64.ofNat_toNat]

/-- A word is read exactly from its digits, possibly behind a plus sign. -/
theorem parseWord_eq_ok {cs : List Char} {v : UInt64} :
    parseWord cs = .ok v ↔ ∃ digits, (cs = digits ∨ cs = '+' :: digits) ∧ digits ≠ [] ∧
      AllDigits digits ∧ value digits = v.toNat := by
  have hplus : ('+').isDigit = false := rfl
  unfold parseWord
  split
  · -- an empty text
    simp
  · -- a single sign
    constructor
    · intro h
      cases h
    · rintro ⟨digits, hcs, hne, hdigits, -⟩
      rcases hcs with rfl | hcs
      · simp [hplus] at hdigits
      · cases hcs
        exact absurd rfl hne
  · -- digits behind a sign
    rename_i digits hne
    rw [readDigits_eq_ok]
    constructor
    · rintro ⟨hdigits, hvalue⟩
      refine ⟨digits, Or.inr rfl, ?_, hdigits, hvalue⟩
      rintro rfl
      exact hne rfl
    · rintro ⟨digits', hcs, -, hdigits, hvalue⟩
      rcases hcs with rfl | hcs
      · simp [hplus] at hdigits
      · cases hcs
        exact ⟨hdigits, hvalue⟩
  · -- digits alone
    rename_i hempty hsign hbehind
    rw [readDigits_eq_ok]
    constructor
    · rintro ⟨hdigits, hvalue⟩
      refine ⟨cs, Or.inl rfl, ?_, hdigits, hvalue⟩
      rintro rfl
      exact hempty rfl
    · rintro ⟨digits', hcs, -, hdigits, hvalue⟩
      rcases hcs with rfl | hcs
      · exact ⟨hdigits, hvalue⟩
      · exact absurd hcs (hbehind digits')

end Decimal
