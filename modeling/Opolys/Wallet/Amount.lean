import Opolys.Core.Types
import Opolys.Library.Decimal
import Opolys.Library.Utf8

/-!
# Amounts as text

The wallet reads an amount by splitting it at dots, padding the fraction to six places and handing
both parts to the integer parser. That parser takes a plus sign, so the wallet takes one in front of
the whole part and one in front of the fraction, where it also counts as a place. Without such a
sign an amount is read exactly, and no text makes the wallet panic.
-/

namespace Opolys

open Codec (Borsh)
open Decimal (AllDigits value parseWord)
open MachineInt (checkedAdd checkedMul)

namespace Wallet

/-! ## Reading and writing -/

/-- Read a part of an amount. -/
def readWord (context : String) (cs : List Char) : Except String UInt64 :=
  match parseWord cs with
  | .ok word => .ok word
  | .error e => .error s!"{context}: {e.text}"

/-- The amount, where it fits. -/
def fitting : Option FlakeAmount → Except String FlakeAmount
  | some amount => .ok amount
  | none => .error "Amount is too large"

/-- Read an amount in OPL. No result at all is a panic: a slice that does not end between two
characters. -/
def parseOplAmount (s : String) : Option (Except String FlakeAmount) :=
  match s.toList.splitOn '.' with
  | [whole] =>
    match readWord "Invalid amount" whole with
    | .ok whole => some (fitting (checkedMul whole flakesPerOpl))
    | .error e => some (.error e)
  | [whole, frac] =>
    match readWord "Invalid whole amount" whole with
    | .error e => some (.error e)
    | .ok whole =>
      if Utf8.size frac > 6 then some (.error "Too many decimal places (max 6)")
      else
        let fracPadded := frac ++ List.replicate (6 - frac.length) '0'
        match Utf8.slice fracPadded 0 6 with
        | none => none
        | some digits =>
          match readWord "Invalid fraction" digits with
          | .error e => some (.error e)
          | .ok frac =>
            some (fitting ((checkedMul whole flakesPerOpl).bind fun base => checkedAdd base frac))
  | _ => some (.error "Invalid amount format")

/-- The digits of an amount in OPL, with six places. -/
def amountDigits (flakes : FlakeAmount) : List Char :=
  let places := Nat.toDigits 10 (flakes % flakesPerOpl).toNat
  Nat.toDigits 10 (flakes / flakesPerOpl).toNat ++
    '.' :: (List.replicate (6 - places.length) '0' ++ places)

/-- An amount with its unit. -/
def formatFlakes (flakes : FlakeAmount) : String :=
  String.ofList (amountDigits flakes) ++ " OPL"

/-! ## What a text stands for -/

/-- The parts of an amount: the whole part and the fraction, each possibly with a plus sign. -/
structure AmountText where
  wholeSign : Bool
  whole : List Char
  fraction : Option (Bool × List Char)

namespace AmountText

def sign (signed : Bool) : List Char := if signed then ['+'] else []

/-- The fraction as it is written. -/
def places (fraction : Bool × List Char) : List Char := sign fraction.1 ++ fraction.2

def text (a : AmountText) : List Char :=
  sign a.wholeSign ++ a.whole ++
    match a.fraction with
    | none => []
    | some fraction => '.' :: places fraction

/-- The value in flakes, where what is written of the fraction counts as places. -/
def flakes (a : AmountText) : ℕ :=
  value a.whole * 10 ^ 6 +
    match a.fraction with
    | none => 0
    | some fraction => value fraction.2 * 10 ^ (6 - (places fraction).length)

/-- One or more digits, and at most six places. -/
structure WellFormed (a : AmountText) : Prop where
  whole_ne : a.whole ≠ []
  whole_digits : AllDigits a.whole
  fraction_digits : ∀ fraction, a.fraction = some fraction → AllDigits fraction.2
  fraction_length : ∀ fraction, a.fraction = some fraction → (places fraction).length ≤ 6

/-- There is no plus sign. -/
def Unsigned (a : AmountText) : Prop :=
  a.wholeSign = false ∧ ∀ fraction, a.fraction = some fraction → fraction.1 = false

end AmountText

/-! ## Splitting at dots -/

theorem splitOn_cases {α : Type*} [BEq α] [LawfulBEq α] (sep : α) (cs : List α) :
    (sep ∉ cs ∧ cs.splitOn sep = [cs]) ∨
      (∃ a b, cs = a ++ sep :: b ∧ sep ∉ a ∧ sep ∉ b ∧ cs.splitOn sep = [a, b]) ∨
      ∃ a b c rest, cs.splitOn sep = a :: b :: c :: rest ∧ 2 ≤ cs.count sep := by
  by_cases hfirst : sep ∈ cs
  · right
    obtain ⟨a, b, rfl, ha⟩ := List.eq_append_cons_of_mem hfirst
    rw [List.splitOn_append_cons_self_of_not_mem ha]
    by_cases hsecond : sep ∈ b
    · right
      obtain ⟨c, d, rfl, hc⟩ := List.eq_append_cons_of_mem hsecond
      obtain ⟨e, rest, hrest⟩ := List.exists_cons_of_ne_nil (List.splitOn_ne_nil sep d)
      refine ⟨a, c, e, rest, ?_, ?_⟩
      · rw [List.splitOn_append_cons_self_of_not_mem hc, hrest]
      · simp
        omega
    · left
      exact ⟨a, b, rfl, ha, hsecond, by rw [List.splitOn_eq_singleton hsecond]⟩
  · exact Or.inl ⟨hfirst, List.splitOn_eq_singleton hfirst⟩

/-! ## Slicing the fraction -/

/-- A fraction of at most six bytes has six bytes after padding, and a character ends there. -/
theorem slice_padded {frac : List Char} (h : Utf8.size frac ≤ 6) :
    Utf8.slice (frac ++ List.replicate (6 - frac.length) '0') 0 6 =
      some (frac ++ List.replicate (6 - Utf8.size frac) '0') := by
  have hzeros (n : ℕ) : Utf8.size (List.replicate n '0') = n := by
    rw [Utf8.size_of_ascii, List.length_replicate]
    intro c hc
    rw [List.eq_of_mem_replicate hc]
    rfl
  have hlength := Utf8.length_le_size frac
  have hsplit : frac ++ List.replicate (6 - frac.length) '0' =
      (frac ++ List.replicate (6 - Utf8.size frac) '0') ++
        List.replicate (Utf8.size frac - frac.length) '0' := by
    rw [List.append_assoc, ← List.replicate_add]
    congr 2
    omega
  have hat : Utf8.splitAt (frac ++ List.replicate (6 - frac.length) '0') 6 =
      some (frac ++ List.replicate (6 - Utf8.size frac) '0',
        List.replicate (Utf8.size frac - frac.length) '0') := by
    apply Utf8.splitAt_eq_some.mpr
    refine ⟨hsplit, ?_⟩
    rw [Utf8.size_append, hzeros]
    omega
  unfold Utf8.slice
  rw [if_pos (Nat.zero_le 6), Utf8.splitAt_zero, Nat.sub_zero]
  simp only [hat, Option.map_some]

/-! ## What is accepted -/

theorem readWord_eq_ok {context : String} {cs : List Char} {word : UInt64} :
    readWord context cs = .ok word ↔ parseWord cs = .ok word := by
  unfold readWord
  cases parseWord cs <;> simp

theorem fitting_eq_ok {o : Option FlakeAmount} {amount : FlakeAmount} :
    fitting o = .ok amount ↔ o = some amount := by
  cases o <;> simp [fitting]

open AmountText (sign places)

theorem AmountText.size_places {fraction : Bool × List Char} (h : AllDigits fraction.2) :
    Utf8.size (places fraction) = (places fraction).length := by
  have hplus : ('+').utf8Size = 1 := rfl
  obtain ⟨signed, digits⟩ := fraction
  cases signed <;> simp [places, sign, h.size_eq, hplus]
  omega

/-- The whole part: digits, possibly behind a plus sign. -/
theorem parseWord_whole {cs : List Char} {word : UInt64} :
    parseWord cs = .ok word ↔ ∃ signed digits, cs = sign signed ++ digits ∧ digits ≠ [] ∧
      AllDigits digits ∧ value digits = word.toNat := by
  rw [Decimal.parseWord_eq_ok]
  constructor
  · rintro ⟨digits, hcs, h⟩
    rcases hcs with rfl | rfl
    · exact ⟨false, cs, rfl, h⟩
    · exact ⟨true, digits, rfl, h⟩
  · rintro ⟨signed, digits, rfl, h⟩
    cases signed
    · exact ⟨digits, Or.inl rfl, h⟩
    · exact ⟨digits, Or.inr rfl, h⟩

/-- The fraction: at most six places, of which a plus sign may be the first. -/
theorem parseWord_fraction {frac : List Char} (hsize : Utf8.size frac ≤ 6) {word : UInt64} :
    parseWord (frac ++ List.replicate (6 - Utf8.size frac) '0') = .ok word ↔
      ∃ fraction, frac = places fraction ∧ AllDigits fraction.2 ∧
        value fraction.2 * 10 ^ (6 - (places fraction).length) = word.toNat := by
  rw [Decimal.parseWord_eq_ok]
  constructor
  · rintro ⟨digits, hcs, -, hdigits, hvalue⟩
    rcases hcs with rfl | hcs
    · obtain ⟨hfrac, -⟩ := Decimal.allDigits_append.mp hdigits
      refine ⟨(false, frac), rfl, hfrac, ?_⟩
      rw [Decimal.value_append_zeros, hfrac.size_eq] at hvalue
      exact hvalue
    · cases frac with
      | nil =>
        simp [List.replicate_succ] at hcs
      | cons c frac =>
        rw [List.cons_append] at hcs
        cases hcs
        obtain ⟨hfrac, -⟩ := Decimal.allDigits_append.mp hdigits
        have hplus : ('+').utf8Size = 1 := rfl
        refine ⟨(true, frac), rfl, hfrac, ?_⟩
        rw [Decimal.value_append_zeros, Utf8.size_cons, hfrac.size_eq, hplus] at hvalue
        show value frac * 10 ^ (6 - (frac.length + 1)) = word.toNat
        rw [Nat.add_comm frac.length]
        exact hvalue
  · rintro ⟨fraction, rfl, hdigits, hvalue⟩
    rw [AmountText.size_places hdigits] at hsize ⊢
    obtain ⟨signed, digits⟩ := fraction
    have hall : AllDigits (digits ++ List.replicate (6 - (places (signed, digits)).length) '0') :=
      Decimal.allDigits_append.mpr ⟨hdigits, Decimal.allDigits_replicate_zero _⟩
    refine ⟨_, ?_, ?_, hall, ?_⟩
    · cases signed
      · exact Or.inl rfl
      · exact Or.inr rfl
    · -- six places cannot all be a sign
      intro hempty
      have hlength := congrArg List.length hempty
      rw [List.length_append, List.length_replicate, List.length_nil] at hlength
      have hplaces : (places (signed, digits)).length ≤ digits.length + 1 := by
        cases signed <;> simp [places, sign]
      omega
    · rw [Decimal.value_append_zeros]
      exact hvalue

/-- No text makes the wallet panic. -/
theorem exists_parseOplAmount (s : String) : ∃ result, parseOplAmount s = some result := by
  unfold parseOplAmount
  split
  · split <;> exact ⟨_, rfl⟩
  · split
    · exact ⟨_, rfl⟩
    · split
      · exact ⟨_, rfl⟩
      · rename_i hsize
        simp only [slice_padded (not_lt.mp hsize)]
        split <;> exact ⟨_, rfl⟩
  · exact ⟨_, rfl⟩

theorem AmountText.notMem_sign_append {signed : Bool} {digits : List Char} (h : AllDigits digits) :
    '.' ∉ sign signed ++ digits := by
  have hdigits := h.notMem (c := '.') rfl
  cases signed <;> simp [sign, hdigits]

theorem AmountText.splitOn_text {a : AmountText} (h : a.WellFormed) :
    a.text.splitOn '.' = (sign a.wholeSign ++ a.whole) :: a.fraction.toList.map places := by
  have hwhole : '.' ∉ sign a.wholeSign ++ a.whole := notMem_sign_append h.whole_digits
  unfold text
  cases hfraction : a.fraction with
  | none => simpa using List.splitOn_eq_singleton hwhole
  | some fraction =>
    have hplaces : '.' ∉ places fraction := notMem_sign_append (h.fraction_digits _ hfraction)
    rw [List.splitOn_append_cons_self_of_not_mem hwhole, List.splitOn_eq_singleton hplaces]
    rfl

/-- What stands for an amount is read as the amount. -/
theorem parseOplAmount_text {s : String} {a : AmountText} (h : a.WellFormed)
    (htext : a.text = s.toList) {amount : FlakeAmount} (hflakes : a.flakes = amount.toNat) :
    parseOplAmount s = some (.ok amount) := by
  have hunit : flakesPerOpl.toNat = 10 ^ 6 := rfl
  have hamount := amount.toNat_lt
  have hsplit := AmountText.splitOn_text h
  unfold AmountText.flakes at hflakes
  have hfits : value a.whole < 2 ^ 64 := by omega
  have hword : parseWord (sign a.wholeSign ++ a.whole) = .ok (UInt64.ofNat (value a.whole)) :=
    parseWord_whole.mpr ⟨a.wholeSign, a.whole, rfl, h.whole_ne, h.whole_digits,
      (MachineInt.toNat_ofNat_of_lt hfits).symm⟩
  unfold parseOplAmount
  rw [← htext, hsplit]
  cases hfraction : a.fraction with
  | none =>
    rw [hfraction] at hflakes
    dsimp only at hflakes
    have hproduct : checkedMul (UInt64.ofNat (value a.whole)) flakesPerOpl = some amount := by
      rw [MachineInt.checkedMul_eq_some, MachineInt.toNat_ofNat_of_lt hfits, hunit]
      omega
    simp only [Option.toList_none, List.map_nil, readWord_eq_ok.mpr hword]
    rw [fitting_eq_ok.mpr hproduct]
  | some fraction =>
    rw [hfraction] at hflakes
    have hdigits := h.fraction_digits _ hfraction
    have hsize : Utf8.size (places fraction) ≤ 6 := by
      rw [AmountText.size_places hdigits]
      exact h.fraction_length _ hfraction
    dsimp only at hflakes
    generalize hplaces : value fraction.2 * 10 ^ (6 - (places fraction).length) = n at hflakes
    have hn : n < 2 ^ 64 := by omega
    have hfrac :
        parseWord (places fraction ++ List.replicate (6 - Utf8.size (places fraction)) '0') =
          .ok (UInt64.ofNat n) :=
      (parseWord_fraction hsize).mpr ⟨fraction, rfl, hdigits,
        by rw [hplaces, MachineInt.toNat_ofNat_of_lt hn]⟩
    have hbase : value a.whole * 10 ^ 6 < 2 ^ 64 := by omega
    have hproduct : checkedMul (UInt64.ofNat (value a.whole)) flakesPerOpl =
        some (UInt64.ofNat (value a.whole * 10 ^ 6)) := by
      rw [MachineInt.checkedMul_eq_some, MachineInt.toNat_ofNat_of_lt hfits, hunit,
        MachineInt.toNat_ofNat_of_lt hbase]
    have hsum : checkedAdd (UInt64.ofNat (value a.whole * 10 ^ 6)) (UInt64.ofNat n) =
        some amount := by
      rw [MachineInt.checkedAdd_eq_some, MachineInt.toNat_ofNat_of_lt hbase,
        MachineInt.toNat_ofNat_of_lt hn]
      omega
    simp only [Option.toList_some, List.map_cons, List.map_nil, readWord_eq_ok.mpr hword,
      if_neg (not_lt.mpr hsize), slice_padded hsize, readWord_eq_ok.mpr hfrac]
    rw [hproduct, Option.bind_some, fitting_eq_ok.mpr hsum]

/-- What is read as an amount stands for it. -/
theorem of_parseOplAmount {s : String} {amount : FlakeAmount}
    (h : parseOplAmount s = some (.ok amount)) :
    ∃ a : AmountText, a.WellFormed ∧ a.text = s.toList ∧ a.flakes = amount.toNat := by
  have hunit : flakesPerOpl.toNat = 10 ^ 6 := rfl
  unfold parseOplAmount at h
  rcases splitOn_cases '.' s.toList with ⟨-, hsplit⟩ | ⟨whole, frac, hcs, -, -, hsplit⟩ |
    ⟨a, b, c, rest, hsplit, -⟩
  · -- no dot
    rw [hsplit] at h
    dsimp only at h
    split at h
    · rename_i word hword
      obtain ⟨signed, digits, htext, hne, hdigits, hvalue⟩ :=
        parseWord_whole.mp (readWord_eq_ok.mp hword)
      have hproduct := MachineInt.checkedMul_eq_some.mp (fitting_eq_ok.mp (Option.some.inj h))
      refine ⟨⟨signed, digits, none⟩, ⟨hne, hdigits, ?_, ?_⟩, ?_, ?_⟩
      · intro fraction hfraction
        cases hfraction
      · intro fraction hfraction
        cases hfraction
      · rw [htext]
        exact List.append_nil _
      · unfold AmountText.flakes
        dsimp only
        rw [hproduct, hunit, hvalue, Nat.add_zero]
    · cases h
  · -- one dot
    rw [hsplit] at h
    dsimp only at h
    split at h
    · cases h
    · rename_i word hword
      obtain ⟨signed, digits, rfl, hne, hdigits, hvalue⟩ :=
        parseWord_whole.mp (readWord_eq_ok.mp hword)
      by_cases hsize : Utf8.size frac > 6
      · rw [if_pos hsize] at h
        cases h
      rw [if_neg hsize, slice_padded (not_lt.mp hsize)] at h
      dsimp only at h
      split at h
      · cases h
      · rename_i fracWord hfrac
        obtain ⟨fraction, rfl, hfracDigits, hfracValue⟩ :=
          (parseWord_fraction (not_lt.mp hsize)).mp (readWord_eq_ok.mp hfrac)
        obtain ⟨base, hbase, hsum⟩ :=
          Option.bind_eq_some_iff.mp (fitting_eq_ok.mp (Option.some.inj h))
        have hproduct := MachineInt.checkedMul_eq_some.mp hbase
        have htotal := MachineInt.checkedAdd_eq_some.mp hsum
        refine ⟨⟨signed, digits, some fraction⟩, ⟨hne, hdigits, ?_, ?_⟩, hcs.symm, ?_⟩
        · intro other hother
          cases hother
          exact hfracDigits
        · intro other hother
          cases hother
          rw [← AmountText.size_places hfracDigits]
          exact not_lt.mp hsize
        · unfold AmountText.flakes
          dsimp only
          rw [htotal, hproduct, hunit, hvalue, hfracValue]
  · -- more dots
    rw [hsplit] at h
    cases h

theorem parseOplAmount_eq_ok {s : String} {amount : FlakeAmount} :
    parseOplAmount s = some (.ok amount) ↔
      ∃ a : AmountText, a.WellFormed ∧ a.text = s.toList ∧ a.flakes = amount.toNat := by
  constructor
  · exact of_parseOplAmount
  · rintro ⟨a, ha, htext, hflakes⟩
    exact parseOplAmount_text ha htext hflakes

/-! ## Writing and reading back -/

/-- What the wallet writes stands for the amount. -/
theorem parseOplAmount_format (amount : FlakeAmount) :
    parseOplAmount (String.ofList (amountDigits amount)) = some (.ok amount) := by
  have hunit : flakesPerOpl.toNat = 10 ^ 6 := rfl
  have hrest : (amount % flakesPerOpl).toNat < 10 ^ 6 := by
    rw [UInt64.toNat_mod, hunit]
    exact Nat.mod_lt _ (by norm_num)
  have hlength : (Nat.toDigits 10 (amount % flakesPerOpl).toNat).length ≤ 6 :=
    (Nat.length_toDigits_le_iff (by decide) (by decide)).mpr hrest
  have hdigits := Decimal.allDigits_toDigits (amount % flakesPerOpl).toNat
  apply parseOplAmount_text
    (a := ⟨false, Nat.toDigits 10 (amount / flakesPerOpl).toNat, some (false,
      List.replicate (6 - (Nat.toDigits 10 (amount % flakesPerOpl).toNat).length) '0' ++
        Nat.toDigits 10 (amount % flakesPerOpl).toNat)⟩)
  · refine ⟨Nat.toDigits_ne_nil, Decimal.allDigits_toDigits _, ?_, ?_⟩
    · intro fraction hfraction
      cases hfraction
      exact Decimal.allDigits_append.mpr ⟨Decimal.allDigits_replicate_zero _, hdigits⟩
    · intro fraction hfraction
      cases hfraction
      show (List.replicate _ '0' ++ _).length ≤ 6
      rw [List.length_append, List.length_replicate]
      omega
  · rw [String.toList_ofList]
    rfl
  · show value (Nat.toDigits 10 (amount / flakesPerOpl).toNat) * 10 ^ 6 +
        value (List.replicate _ '0' ++ _) * 10 ^ (6 - (List.replicate _ '0' ++ _).length) =
      amount.toNat
    rw [List.length_append, List.length_replicate, Decimal.value_toDigits,
      Decimal.value_zeros_append, Decimal.value_toDigits, Nat.sub_add_cancel hlength, Nat.sub_self,
      pow_zero, Nat.mul_one, UInt64.toNat_div, UInt64.toNat_mod, hunit]
    exact Nat.div_add_mod' _ _

/-! ## Signs -/

/-- A sign is seen in the text. -/
theorem AmountText.unsigned_iff {a : AmountText} (h : a.WellFormed) :
    a.Unsigned ↔ '+' ∉ a.text := by
  have hwhole := h.whole_digits.notMem (c := '+') rfl
  unfold Unsigned text
  cases hfraction : a.fraction with
  | none => cases hsigned : a.wholeSign <;> simp [sign, hwhole]
  | some fraction =>
    obtain ⟨signed, digits⟩ := fraction
    have hdigits := (h.fraction_digits _ hfraction).notMem (c := '+') rfl
    dsimp only at hdigits
    cases hsigned : a.wholeSign <;> cases signed <;> simp [sign, places, hwhole, hdigits]

/-- No text makes the wallet panic, and what it writes it reads back. A text is read exactly as
decimal digits with at most six places if and only if it is not an amount with a plus sign in front
of the whole part or of the fraction. -/
theorem amount_exact_iff (s : String) :
    (∃ result, parseOplAmount s = some result) ∧
    ((∀ amount, parseOplAmount s = some (.ok amount) ↔
        ∃ a : AmountText, a.WellFormed ∧ a.Unsigned ∧ a.text = s.toList ∧
          a.flakes = amount.toNat) ↔
      ¬∃ a : AmountText, a.WellFormed ∧ ¬a.Unsigned ∧ a.text = s.toList ∧ a.flakes < 2 ^ 64) ∧
    ∀ amount, formatFlakes amount = String.ofList (amountDigits amount) ++ " OPL" ∧
      parseOplAmount (String.ofList (amountDigits amount)) = some (.ok amount) := by
  refine ⟨exists_parseOplAmount s, ⟨?_, ?_⟩, fun amount => ⟨rfl, parseOplAmount_format amount⟩⟩
  · rintro hexact ⟨a, ha, hsigned, htext, hfits⟩
    have hread := parseOplAmount_text ha htext (MachineInt.toNat_ofNat_of_lt hfits).symm
    obtain ⟨b, hb, hunsigned, htext', -⟩ := (hexact _).mp hread
    rw [AmountText.unsigned_iff ha, htext] at hsigned
    rw [AmountText.unsigned_iff hb, htext'] at hunsigned
    exact hsigned hunsigned
  · intro hnone amount
    rw [parseOplAmount_eq_ok]
    constructor
    · rintro ⟨a, ha, htext, hflakes⟩
      refine ⟨a, ha, ?_, htext, hflakes⟩
      by_contra hsigned
      exact hnone ⟨a, ha, hsigned, htext, by
        rw [hflakes]
        exact amount.toNat_lt⟩
    · rintro ⟨a, ha, -, htext, hflakes⟩
      exact ⟨a, ha, htext, hflakes⟩

/-- `1.+5` is read as 1.05 OPL, although it has a sign in the fraction. -/
theorem signed_amount_read : ∃ s : String, ∃ amount, parseOplAmount s = some (.ok amount) ∧
    ¬∃ a : AmountText, a.WellFormed ∧ a.Unsigned ∧ a.text = s.toList ∧
      a.flakes = amount.toNat := by
  refine ⟨"1.+5", 1050000, ?_, ?_⟩
  · apply parseOplAmount_text (a := ⟨false, ['1'], some (true, ['5'])⟩)
    · refine ⟨by simp, by decide, ?_, ?_⟩
      · intro fraction hfraction
        cases hfraction
        decide
      · intro fraction hfraction
        cases hfraction
        decide
    · rfl
    · rfl
  · rintro ⟨a, ha, hunsigned, htext, -⟩
    rw [AmountText.unsigned_iff ha, htext] at hunsigned
    exact hunsigned (by decide)

end Wallet

end Opolys
