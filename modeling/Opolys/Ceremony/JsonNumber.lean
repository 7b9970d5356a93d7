import Mathlib.Algebra.Order.Floor.Defs
import Mathlib.Data.Rat.Floor
import Mathlib.Data.List.DropRight
import Mathlib.Data.List.TakeWhile
import Opolys.Library.Decimal
import Opolys.Library.Readable

/-!
# Canonical numbers

The ceremony writes a number of a JSON document with at most six places, rounded to the nearest, and
without zeros behind them. What is written is the value in millionths, which can be read back.
-/

namespace Opolys

open Decimal (AllDigits value)

/-- A number of a document. A floating-point value is taken as the rational it stands for. -/
inductive JsonNumber where
  | posInt (n : UInt64)
  | negInt (n : Int64)
  | float (x : ℚ)
deriving DecidableEq

namespace JsonNumber

def asI64 : JsonNumber → Option Int64
  | posInt n => if n.toNat < 2 ^ 63 then some n.toInt64 else none
  | negInt n => some n
  | float _ => none

def asU64 : JsonNumber → Option UInt64
  | posInt n => some n
  | negInt _ => none
  | float _ => none

def asF64 : JsonNumber → ℚ
  | posInt n => n.toNat
  | negInt n => n.toInt
  | float x => x

end JsonNumber

def intText (n : ℤ) : List Char :=
  (if n < 0 then ['-'] else []) ++ Nat.toDigits 10 n.natAbs

/-- The nearest integer, or the even one of two. -/
def roundHalfEven (x : ℚ) : ℤ :=
  let n := ⌊x⌋
  if 2 * (x - n) < 1 then n
  else if 1 < 2 * (x - n) then n + 1
  else if n % 2 = 0 then n else n + 1

/-- A number with six places. -/
def fixedSix (x : ℚ) : List Char :=
  let n := roundHalfEven (x * 10 ^ 6)
  let places := Nat.toDigits 10 (n.natAbs % 10 ^ 6)
  (if x < 0 then ['-'] else []) ++ Nat.toDigits 10 (n.natAbs / 10 ^ 6) ++
    '.' :: (List.replicate (6 - places.length) '0' ++ places)

/-- Drop the zeros at the end of a number with a dot, and the dot if it is then the end. -/
def trimPlaces (out : List Char) : List Char :=
  let out := if '.' ∈ out then out.rdropWhile (· == '0') else out
  if out.getLast? = some '.' then out.dropLast else out

def canonicalJsonNumber (number : JsonNumber) : List Char :=
  match number.asI64 with
  | some value => intText value.toInt
  | none =>
    match number.asU64 with
    | some value => Nat.toDigits 10 value.toNat
    | none =>
      let out := trimPlaces (fixedSix number.asF64)
      if out = ['-', '0'] then ['0'] else out

/-! ## Numbers in millionths -/

/-- Six places. -/
def sixPlaces (k : ℕ) : List Char :=
  List.replicate (6 - (Nat.toDigits 10 k).length) '0' ++ Nat.toDigits 10 k

/-- The places up to the last that is not zero. -/
def shortPlaces (k : ℕ) : List Char := (sixPlaces k).rdropWhile (· == '0')

/-- The places of a number, behind a dot where there are any. -/
def placesText (k : ℕ) : List Char := if shortPlaces k = [] then [] else '.' :: shortPlaces k

/-- An integer number of millionths. -/
def millionthsText (n : ℤ) : List Char :=
  (if n < 0 then ['-'] else []) ++ Nat.toDigits 10 (n.natAbs / 10 ^ 6) ++
    placesText (n.natAbs % 10 ^ 6)

theorem length_sixPlaces {k : ℕ} (hk : k < 10 ^ 6) : (sixPlaces k).length = 6 := by
  have hlength : (Nat.toDigits 10 k).length ≤ 6 :=
    (Nat.length_toDigits_le_iff (by decide) (by decide)).mpr hk
  simp [sixPlaces]
  omega

theorem allDigits_sixPlaces (k : ℕ) : AllDigits (sixPlaces k) :=
  Decimal.allDigits_append.mpr
    ⟨Decimal.allDigits_replicate_zero _, Decimal.allDigits_toDigits k⟩

theorem allDigits_shortPlaces (k : ℕ) : AllDigits (shortPlaces k) := by
  intro c hc
  exact allDigits_sixPlaces k c ((List.rdropWhile_prefix _ (sixPlaces k)).subset hc)

/-- The dropped zeros do not change the value. -/
theorem value_shortPlaces {k : ℕ} (hk : k < 10 ^ 6) :
    value (shortPlaces k) * 10 ^ (6 - (shortPlaces k).length) = k := by
  have hsplit : (sixPlaces k).rdropWhile (· == '0') ++ (sixPlaces k).rtakeWhile (· == '0') =
      sixPlaces k := List.rdropWhile_append_rtakeWhile
  have hzeros : (sixPlaces k).rtakeWhile (· == '0') =
      List.replicate ((sixPlaces k).rtakeWhile (· == '0')).length '0' := by
    apply List.eq_replicate_of_mem
    intro c hc
    simpa using List.mem_rtakeWhile_imp hc
  have hlength := congrArg List.length hsplit
  rw [List.length_append, length_sixPlaces hk] at hlength
  have hdrop : 6 - (shortPlaces k).length = ((sixPlaces k).rtakeWhile (· == '0')).length := by
    unfold shortPlaces
    omega
  rw [hdrop, ← Decimal.value_append_zeros, ← hzeros]
  show value (List.rdropWhile _ _ ++ _) = k
  rw [hsplit]
  unfold sixPlaces
  rw [Decimal.value_zeros_append, Decimal.value_toDigits]

theorem placesText_inj {j k : ℕ} (h : placesText j = placesText k) :
    shortPlaces j = shortPlaces k := by
  unfold placesText at h
  by_cases hj : shortPlaces j = []
  · by_cases hk : shortPlaces k = []
    · rw [hj, hk]
    · simp [hj, hk] at h
  · by_cases hk : shortPlaces k = []
    · simp [hj, hk] at h
    · simpa [hj, hk] using h

/-- The digits determine the millionths. -/
theorem natAbs_eq_of_digits {m n : ℕ}
    (h : Nat.toDigits 10 (m / 10 ^ 6) ++ placesText (m % 10 ^ 6) =
      Nat.toDigits 10 (n / 10 ^ 6) ++ placesText (n % 10 ^ 6)) : m = n := by
  have hstop (k : ℕ) : ∀ c ∈ (placesText k).head?, ¬c.isDigit = true := by
    intro c hc
    unfold placesText at hc
    split at hc
    · cases hc
    · cases hc
      decide
  obtain ⟨hwhole, hplaces⟩ := Readable.append_inj_of_run
    (Decimal.allDigits_toDigits _) (Decimal.allDigits_toDigits _) (hstop _) (hstop _) h
  have hdiv := congrArg value hwhole
  rw [Decimal.value_toDigits, Decimal.value_toDigits] at hdiv
  have hmod : m % 10 ^ 6 = n % 10 ^ 6 := by
    rw [← value_shortPlaces (Nat.mod_lt m (by norm_num)), placesText_inj hplaces,
      value_shortPlaces (Nat.mod_lt n (by norm_num))]
  omega

theorem digits_ne_dash (k : ℕ) (t rest : List Char) : Nat.toDigits 10 k ++ t ≠ '-' :: rest := by
  intro h
  have hdash : '-' ∉ Nat.toDigits 10 k := (Decimal.allDigits_toDigits k).notMem rfl
  cases hdigits : Nat.toDigits 10 k with
  | nil => exact Nat.toDigits_ne_nil hdigits
  | cons c digits =>
    rw [hdigits] at h hdash
    cases h
    exact hdash List.mem_cons_self

/-- The text determines the millionths. -/
theorem millionthsText_injective : Function.Injective millionthsText := by
  intro m n h
  unfold millionthsText at h
  by_cases hm : m < 0
  · by_cases hn : n < 0
    · rw [if_pos hm, if_pos hn, List.append_assoc, List.append_assoc] at h
      have habs := natAbs_eq_of_digits (List.append_cancel_left h)
      omega
    · rw [if_pos hm, if_neg hn, List.append_assoc, List.nil_append] at h
      exact absurd h.symm (digits_ne_dash _ _ _)
  · by_cases hn : n < 0
    · rw [if_neg hm, if_pos hn, List.append_assoc _ _ (placesText (n.natAbs % 10 ^ 6)),
        List.nil_append] at h
      exact absurd h (digits_ne_dash _ _ _)
    · rw [if_neg hm, if_neg hn, List.nil_append, List.nil_append] at h
      have habs := natAbs_eq_of_digits h
      omega

/-- A value in millionths. -/
def JsonNumber.millionths : JsonNumber → ℤ
  | .posInt n => n.toNat * 10 ^ 6
  | .negInt n => n.toInt * 10 ^ 6
  | .float x => roundHalfEven (x * 10 ^ 6)

theorem intText_eq (n : ℤ) : intText n = millionthsText (n * 10 ^ 6) := by
  have hdiv : (n * 10 ^ 6).natAbs / 10 ^ 6 = n.natAbs := by omega
  have hmod : (n * 10 ^ 6).natAbs % 10 ^ 6 = 0 := by omega
  have hsign : n * 10 ^ 6 < 0 ↔ n < 0 := by omega
  have hplaces : placesText 0 = [] := by decide
  unfold intText millionthsText
  rw [hdiv, hmod, hplaces, List.append_nil]
  simp only [hsign]

theorem trimPlaces_eq (whole : List Char) (k : ℕ) :
    trimPlaces (whole ++ '.' :: sixPlaces k) = whole ++ placesText k := by
  have hdrop : (whole ++ '.' :: sixPlaces k).rdropWhile (· == '0') =
      whole ++ '.' :: shortPlaces k := by
    unfold shortPlaces List.rdropWhile
    rw [List.reverse_append, List.reverse_cons, List.append_assoc, List.dropWhile_append]
    by_cases hempty : (sixPlaces k).reverse.dropWhile (· == '0') = []
    · simp [hempty]
    · simp [hempty]
  have hout : (if '.' ∈ whole ++ '.' :: sixPlaces k then
      (whole ++ '.' :: sixPlaces k).rdropWhile (· == '0') else whole ++ '.' :: sixPlaces k) =
      whole ++ '.' :: shortPlaces k := by
    rw [if_pos (by simp), hdrop]
  unfold trimPlaces placesText
  simp only [hout]
  by_cases hshort : shortPlaces k = []
  · simp [hshort]
  · have hlast : (whole ++ '.' :: shortPlaces k).getLast? ≠ some '.' := by
      intro h
      rw [List.getLast?_append, List.getLast?_cons_of_ne_nil hshort,
        List.getLast?_eq_some_getLast hshort, Option.some_or] at h
      have hdigit := allDigits_shortPlaces k _ (List.getLast_mem hshort)
      rw [Option.some.inj h] at hdigit
      cases hdigit
    rw [if_neg hlast, if_neg hshort]

theorem roundHalfEven_nonneg {x : ℚ} (h : 0 ≤ x) : 0 ≤ roundHalfEven x := by
  have hfloor : 0 ≤ ⌊x⌋ := Int.floor_nonneg.mpr h
  unfold roundHalfEven
  dsimp only
  split
  · exact hfloor
  · split
    · omega
    · split <;> omega

theorem roundHalfEven_nonpos {x : ℚ} (h : x ≤ 0) : roundHalfEven x ≤ 0 := by
  have hle : (⌊x⌋ : ℚ) ≤ x := Int.floor_le x
  have hfloor : ⌊x⌋ ≤ 0 := by exact_mod_cast hle.trans h
  unfold roundHalfEven
  dsimp only
  by_cases hzero : ⌊x⌋ = 0
  · -- the value is zero
    have hx : x = 0 := by
      rw [hzero] at hle
      exact le_antisymm h (by simpa using hle)
    subst hx
    simp
  · split
    · exact hfloor
    · split
      · omega
      · split <;> omega

theorem fixedSix_eq (x : ℚ) : fixedSix x =
    ((if x < 0 then ['-'] else []) ++
        Nat.toDigits 10 ((roundHalfEven (x * 10 ^ 6)).natAbs / 10 ^ 6)) ++
      '.' :: sixPlaces ((roundHalfEven (x * 10 ^ 6)).natAbs % 10 ^ 6) := rfl

/-- A number is written as its millionths. -/
theorem canonicalJsonNumber_eq (number : JsonNumber) :
    canonicalJsonNumber number = millionthsText number.millionths := by
  cases number with
  | posInt n =>
    unfold canonicalJsonNumber JsonNumber.asI64
    by_cases hn : n.toNat < 2 ^ 63
    · simp only [if_pos hn]
      have hword : n.toInt64.toInt = n.toNat := BitVec.toInt_eq_toNat_of_lt (by
        show 2 * n.toNat < 2 ^ 64
        omega)
      rw [intText_eq, hword]
      rfl
    · simp only [if_neg hn]
      show Nat.toDigits 10 n.toNat = millionthsText (n.toNat * 10 ^ 6)
      rw [← intText_eq]
      unfold intText
      rw [if_neg (by omega), List.nil_append, Int.natAbs_natCast]
  | negInt n => exact intText_eq n.toInt
  | float x =>
    show (if trimPlaces (fixedSix x) = ['-', '0'] then ['0'] else trimPlaces (fixedSix x)) =
      millionthsText (roundHalfEven (x * 10 ^ 6))
    rw [fixedSix_eq, trimPlaces_eq]
    by_cases hx : x < 0
    · have hn : roundHalfEven (x * 10 ^ 6) ≤ 0 :=
        roundHalfEven_nonpos (mul_nonpos_of_nonpos_of_nonneg hx.le (by norm_num))
      generalize roundHalfEven (x * 10 ^ 6) = n at hn
      rw [if_pos hx]
      by_cases hzero : n = 0
      · -- rounded to zero from below
        subst hzero
        decide
      · have hdigits : ['-'] ++ Nat.toDigits 10 (n.natAbs / 10 ^ 6) ++
            placesText (n.natAbs % 10 ^ 6) ≠ ['-', '0'] := by
          intro h
          have habs : n.natAbs = 0 := natAbs_eq_of_digits (List.cons.inj h).2
          omega
        rw [if_neg hdigits]
        unfold millionthsText
        rw [if_pos (lt_of_le_of_ne hn hzero)]
    · have hn : 0 ≤ roundHalfEven (x * 10 ^ 6) :=
        roundHalfEven_nonneg (mul_nonneg (not_lt.mp hx) (by norm_num))
      generalize roundHalfEven (x * 10 ^ 6) = n at hn
      rw [if_neg hx, List.nil_append, if_neg (digits_ne_dash _ _ _)]
      unfold millionthsText
      rw [if_neg (not_lt.mpr hn), List.nil_append]

end Opolys
