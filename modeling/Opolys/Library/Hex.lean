import Mathlib.Data.UInt
import Mathlib.Tactic.Common

/-!
# Hexadecimal text

Two digits for each byte. Writing uses lower case, reading takes both.
-/

namespace Hex

/-- The value of a digit. -/
def digitValue (c : Char) : Option ℕ :=
  if '0' ≤ c ∧ c ≤ '9' then some (c.toNat - '0'.toNat)
  else if 'a' ≤ c ∧ c ≤ 'f' then some (c.toNat - 'a'.toNat + 10)
  else if 'A' ≤ c ∧ c ≤ 'F' then some (c.toNat - 'A'.toNat + 10)
  else none

/-- The bytes that digits stand for. -/
def bytes : List Char → Except String (List UInt8)
  | [] => .ok []
  | [_] => .error "Odd number of digits"
  | high :: low :: digits =>
    match digitValue high, digitValue low with
    | some x, some y => (bytes digits).map (UInt8.ofNat (16 * x + y) :: ·)
    | _, _ => .error "Invalid character"

/-- The two digits of a byte. -/
def digits (b : UInt8) : List Char := [Nat.digitChar (b.toNat / 16), Nat.digitChar (b.toNat % 16)]

theorem digitValue_digitChar {n : ℕ} (h : n < 16) : digitValue (Nat.digitChar n) = some n := by
  have hall : ∀ m < 16, digitValue (Nat.digitChar m) = some m := by decide
  exact hall n h

/-- What is written can be read back. -/
theorem bytes_flatMap_digits (bs : List UInt8) : bytes (bs.flatMap digits) = .ok bs := by
  induction bs with
  | nil => rfl
  | cons b bs ih =>
    have hlt := b.toNat_lt
    have hvalue : UInt8.ofNat (16 * (b.toNat / 16) + b.toNat % 16) = b := by
      rw [Nat.div_add_mod, UInt8.ofNat_toNat]
    rw [List.flatMap_cons]
    show bytes (Nat.digitChar (b.toNat / 16) :: Nat.digitChar (b.toNat % 16) ::
      bs.flatMap digits) = .ok (b :: bs)
    unfold bytes
    rw [digitValue_digitChar (by omega), digitValue_digitChar (by omega), ih]
    show Except.ok (UInt8.ofNat (16 * (b.toNat / 16) + b.toNat % 16) :: bs) = .ok (b :: bs)
    rw [hvalue]

end Hex
