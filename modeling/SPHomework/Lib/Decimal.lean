import Mathlib.Tactic
import SPHomework.Lib.CString

set_option autoImplicit false

/-!
# Decimal numerals, and what `strtol` with base 0 makes of them
-/

namespace SPHomework.Lib

def digitNumber (byte : UInt8) : Nat := byte.toNat - 48

def decimalFrom (value : Nat) (digits : CStr) : Nat :=
  match digits with
  | [] => value
  | byte :: rest => decimalFrom (digitNumber byte + 10 * value) rest

def decimalValue (digits : CStr) : Nat := decimalFrom 0 digits

-- What `"%d"` prints for a natural number.
def decimal (number : Nat) : CStr := ofChars (Nat.toDigits 10 number)

theorem decimalFrom_append (value : Nat) (first second : CStr) :
    decimalFrom value (first ++ second) = decimalFrom (decimalFrom value first) second := by
  induction first generalizing value with
  | nil => rfl
  | cons byte rest ih => rw [List.cons_append, decimalFrom, decimalFrom, ih]

theorem decimalValue_snoc (digits : CStr) (byte : UInt8) :
    decimalValue (digits ++ [byte]) = digitNumber byte + 10 * decimalValue digits := by
  rw [decimalValue, decimalFrom_append, decimalFrom, decimalFrom, decimalValue]

theorem decimalFrom_lt (value more : Nat) (digits : CStr) (less : value < more) :
    decimalFrom value digits < decimalFrom more digits := by
  induction digits generalizing value more with
  | nil => exact less
  | cons byte rest ih => exact ih _ _ (by omega)

theorem le_decimalFrom (value : Nat) (digits : CStr) : value ≤ decimalFrom value digits := by
  induction digits generalizing value with
  | nil => exact Nat.le_refl value
  | cons byte rest ih =>
    have grows := ih (digitNumber byte + 10 * value)
    rw [decimalFrom]
    omega

theorem isDigit_iff (byte : UInt8) : isDigit byte = true ↔ 48 ≤ byte.toNat ∧ byte.toNat ≤ 57 := by
  simp [isDigit, ascii, UInt8.le_iff_toNat_le]

theorem digitNumber_lt (byte : UInt8) (digit : isDigit byte = true) : digitNumber byte < 10 := by
  have range := (isDigit_iff byte).mp digit
  unfold digitNumber
  omega

theorem digitOf_digit (base : Nat) (byte : UInt8) (digit : isDigit byte = true) :
    digitOf base byte = if digitNumber byte < base then some (digitNumber byte) else none := by
  by_cases small : byte.toNat - 48 < base <;>
    simp [digitOf, digitValue, digit, digitNumber, Option.filter, small]

theorem digitOf_lt (base : Nat) (byte : UInt8) (digit : Nat) (read : digitOf base byte = some digit) :
    digit < base := by
  simpa using (Option.filter_eq_some_iff.mp read).2

-- In base ten or below, the letters are no digits.
theorem digitOf_other (base : Nat) (small : base ≤ 10) (byte : UInt8) (other : isDigit byte = false) :
    digitOf base byte = none := by
  have letters : ∀ digit, digitValue byte = some digit → 10 ≤ digit := by
    intro digit read
    simp only [digitValue, other, Bool.false_eq_true, if_false] at read
    split_ifs at read with lower upper
    · simp only [Bool.and_eq_true, decide_eq_true_eq, UInt8.le_iff_toNat_le, ascii] at lower
      have from97 : 97 ≤ byte.toNat := lower.1
      have equal := Option.some.inj read
      omega
    · simp only [Bool.and_eq_true, decide_eq_true_eq, UInt8.le_iff_toNat_le, ascii] at upper
      have from65 : 65 ≤ byte.toNat := upper.1
      have equal := Option.some.inj read
      omega
  unfold digitOf
  rw [Option.filter_eq_none_iff]
  intro digit read
  have large := letters digit read
  simp only [decide_eq_true_eq]
  omega

-- `strtol` reads digits up to the first byte that is none.
def digitsIn (base : Nat) (text : CStr) : CStr := text.takeWhile fun byte => (digitOf base byte).isSome

theorem magnitude_lt (base value : Nat) (text : CStr) :
    magnitude base value text < (value + 1) * base ^ (digitsIn base text).length := by
  induction text generalizing value with
  | nil => simp [magnitude, digitsIn]
  | cons byte rest ih =>
    rcases read : digitOf base byte with _ | digit
    · simp [magnitude, digitsIn, read]
    · have less := digitOf_lt base byte digit read
      have later := ih (value * base + digit)
      simp only [magnitude, digitsIn, read, List.takeWhile_cons, Option.isSome_some, if_true,
        List.length_cons] at later ⊢
      calc magnitude base (value * base + digit) rest
          < (value * base + digit + 1) * base ^ (digitsIn base rest).length := later
        _ ≤ ((value + 1) * base) * base ^ (digitsIn base rest).length := by
            apply Nat.mul_le_mul_right
            rw [Nat.add_mul]
            omega
        _ = (value + 1) * base ^ ((digitsIn base rest).length + 1) := by rw [pow_succ]; ring

theorem magnitude_bound (base : Nat) (positive : 0 < base) (text : CStr) :
    magnitude base 0 text < base ^ text.length := by
  have inside : (digitsIn base text).length ≤ text.length := (List.takeWhile_prefix _).length_le
  calc magnitude base 0 text
      < base ^ (digitsIn base text).length := by simpa using magnitude_lt base 0 text
    _ ≤ base ^ text.length := Nat.pow_le_pow_right positive inside

theorem magnitude_digit (base value : Nat) (byte : UInt8) (rest : CStr) (digit : isDigit byte = true)
    (less : digitNumber byte < base) :
    magnitude base value (byte :: rest) = magnitude base (value * base + digitNumber byte) rest := by
  simp [magnitude, digitOf_digit base byte digit, less]

theorem magnitude_stop (base value : Nat) (byte : UInt8) (rest : CStr) (digit : isDigit byte = true)
    (large : ¬ digitNumber byte < base) : magnitude base value (byte :: rest) = value := by
  simp [magnitude, digitOf_digit base byte digit, large]

theorem magnitude_ten (value : Nat) (digits : CStr) (all : digits.all isDigit = true) :
    magnitude 10 value digits = decimalFrom value digits := by
  induction digits generalizing value with
  | nil => rfl
  | cons byte rest ih =>
    rw [List.all_cons, Bool.and_eq_true] at all
    rw [magnitude_digit 10 value byte rest all.1 (digitNumber_lt byte all.1), ih _ all.2, decimalFrom,
      Nat.add_comm, Nat.mul_comm]

theorem magnitude_eight_le (value : Nat) (digits : CStr) (all : digits.all isDigit = true) :
    magnitude 8 value digits ≤ decimalFrom value digits := by
  induction digits generalizing value with
  | nil => exact Nat.le_refl value
  | cons byte rest ih =>
    rw [List.all_cons, Bool.and_eq_true] at all
    by_cases octal : digitNumber byte < 8
    · have below := ih (value * 8 + digitNumber byte) all.2
      rw [magnitude_digit 8 value byte rest all.1 octal, decimalFrom]
      rcases Nat.eq_zero_or_pos value with rfl | positive
      · simpa using below
      · have apart := decimalFrom_lt (value * 8 + digitNumber byte) (digitNumber byte + 10 * value)
          rest (by omega)
        omega
    · rw [magnitude_stop 8 value byte rest all.1 octal]
      exact le_decimalFrom value (byte :: rest)

-- After a digit other than 0, one more digit tells the two bases apart.
theorem magnitude_eight_lt (value : Nat) (byte : UInt8) (rest : CStr) (positive : 0 < value)
    (all : (byte :: rest).all isDigit = true) :
    magnitude 8 value (byte :: rest) < decimalFrom value (byte :: rest) := by
  rw [List.all_cons, Bool.and_eq_true] at all
  rw [decimalFrom]
  by_cases octal : digitNumber byte < 8
  · rw [magnitude_digit 8 value byte rest all.1 octal]
    calc magnitude 8 (value * 8 + digitNumber byte) rest
        ≤ decimalFrom (value * 8 + digitNumber byte) rest := magnitude_eight_le _ rest all.2
      _ < decimalFrom (digitNumber byte + 10 * value) rest := decimalFrom_lt _ _ rest (by omega)
  · have grows := le_decimalFrom (digitNumber byte + 10 * value) rest
    rw [magnitude_stop 8 value byte rest all.1 octal]
    omega

theorem magnitude_eight_iff (digits : CStr) (all : digits.all isDigit = true) :
    magnitude 8 0 digits = decimalValue digits ↔ decimalValue digits ≤ 7 := by
  unfold decimalValue
  induction digits with
  | nil => simp [magnitude, decimalFrom]
  | cons byte rest ih =>
    rw [List.all_cons, Bool.and_eq_true] at all
    have grows := le_decimalFrom (digitNumber byte) rest
    rw [decimalFrom, Nat.mul_zero, Nat.add_zero]
    by_cases octal : digitNumber byte < 8
    · rw [magnitude_digit 8 0 byte rest all.1 octal, Nat.zero_mul, Nat.zero_add]
      rcases Nat.eq_zero_or_pos (digitNumber byte) with zero | positive
      · rw [zero]
        exact ih all.2
      · cases rest with
        | nil => simpa [magnitude, decimalFrom] using Nat.le_of_lt_succ octal
        | cons second rest =>
          have less := magnitude_eight_lt (digitNumber byte) second rest positive all.2
          have large := le_decimalFrom (digitNumber second + 10 * digitNumber byte) rest
          rw [decimalFrom] at less ⊢
          omega
    · rw [magnitude_stop 8 0 byte rest all.1 octal]
      omega

theorem unsignedOf_digits (first : UInt8) (rest : CStr) (all : (first :: rest).all isDigit = true) :
    unsignedOf (first :: rest) =
      if first = ascii '0' then magnitude 8 0 (first :: rest) else decimalValue (first :: rest) := by
  rw [decimalValue, ← magnitude_ten 0 _ all]
  cases rest with
  | nil => rfl
  | cons mark rest =>
    have noMark : mark ≠ ascii 'x' ∧ mark ≠ ascii 'X' := by
      have digit : isDigit mark = true := by simp_all
      constructor <;> rintro rfl <;> exact absurd digit (by decide)
    cases rest with
    | nil => rfl
    | cons digit rest => simp [unsignedOf, noMark.1, noMark.2]

theorem unsignedOf_ten (first : UInt8) (rest : CStr) (leading : first ≠ ascii '0') :
    unsignedOf (first :: rest) = magnitude 10 0 (first :: rest) := by
  rcases rest with _ | ⟨mark, _ | ⟨digit, rest⟩⟩ <;> simp [unsignedOf, leading]

-- After the prefix the number is octal, or hexadecimal and two bytes shorter.
theorem unsignedOf_zero (rest : CStr) :
    unsignedOf (ascii '0' :: rest) < 8 ^ (rest.length + 1) ∨
      unsignedOf (ascii '0' :: rest) < 16 ^ (rest.length - 1) := by
  have octal := magnitude_bound 8 (by decide) (ascii '0' :: rest)
  rcases rest with _ | ⟨mark, _ | ⟨digit, rest⟩⟩
  · exact Or.inl octal
  · exact Or.inl octal
  · by_cases prefixed : (mark = ascii 'x' ∨ mark = ascii 'X') ∧ (digitOf 16 digit).isSome
    · right
      simpa [unsignedOf, prefixed] using magnitude_bound 16 (by decide) (digit :: rest)
    · left
      rw [List.length_cons] at octal
      simpa only [unsignedOf, prefixed, if_true, if_false] using octal

-- A number of base ten that needs all its places is made of digits.
theorem digits_of_magnitude (text : CStr) (large : 10 ^ (text.length - 1) ≤ magnitude 10 0 text)
    (positive : 1 < text.length) : text.all isDigit = true := by
  have less := magnitude_lt 10 0 text
  have part : digitsIn 10 text <+: text := List.takeWhile_prefix _
  have places : text.length ≤ (digitsIn 10 text).length := by
    by_contra short
    have below : 10 ^ (digitsIn 10 text).length ≤ 10 ^ (text.length - 1) :=
      Nat.pow_le_pow_right (by decide) (by omega)
    omega
  have whole : digitsIn 10 text = text := part.eq_of_length_le places
  rw [List.all_eq_true]
  intro byte member
  rw [← whole] at member
  have read := List.mem_takeWhile_imp member
  by_contra other
  rw [digitOf_other 10 (by decide) byte (by simpa using other)] at read
  exact absurd read (by decide)

theorem isDigit_proper (byte : UInt8) (digit : isDigit byte = true) :
    isSpace byte = false ∧ byte ≠ ascii '-' ∧ byte ≠ ascii '+' := by
  have range := (isDigit_iff byte).mp digit
  refine ⟨?_, ?_, ?_⟩
  · simp [isSpace, UInt8.le_iff_toNat_le, ← UInt8.toNat_inj]
    omega
  · rintro rfl
    exact absurd digit (by decide)
  · rintro rfl
    exact absurd digit (by decide)

theorem strtol_digits (first : UInt8) (rest : CStr) (all : (first :: rest).all isDigit = true) :
    strtol (first :: rest) = min longMax (unsignedOf (first :: rest)) := by
  have digit : isDigit first = true := by simp_all
  obtain ⟨noSpace, noMinus, noPlus⟩ := isDigit_proper first digit
  simp [strtol, noSpace, noMinus, noPlus]

theorem strtol_minus (digits : CStr) :
    strtol (ascii '-' :: digits) = max longMin (-(unsignedOf digits : Int)) := by
  have noSpace : isSpace (ascii '-') = false := by decide
  simp [strtol, noSpace]

theorem decimal_step (number : Nat) :
    decimal number =
      if number < 10 then [ascii (Nat.digitChar number)]
      else decimal (number / 10) ++ [ascii (Nat.digitChar (number % 10))] := by
  unfold decimal
  rw [Nat.toDigits_eq_if (by decide)]
  split <;> simp [ofChars]

theorem digitChar_digitNumber (byte : UInt8) (digit : isDigit byte = true) :
    ascii (Nat.digitChar (digitNumber byte)) = byte := by
  have range := (isDigit_iff byte).mp digit
  have back : ∀ number, number < 10 → (ascii (Nat.digitChar number)).toNat = number + 48 := by decide
  rw [← UInt8.toNat_inj, back _ (digitNumber_lt byte digit), digitNumber]
  omega

-- A numeral without leading zero is the decimal of its value.
theorem decimal_decimalValue (first : UInt8) (rest : CStr) (all : (first :: rest).all isDigit = true)
    (leading : first ≠ ascii '0') : decimal (decimalValue (first :: rest)) = first :: rest := by
  induction rest using List.reverseRecOn with
  | nil =>
    have digit : isDigit first = true := by simpa using all
    have value : decimalValue [first] = digitNumber first := by simp [decimalValue, decimalFrom]
    rw [value, decimal_step, if_pos (digitNumber_lt first digit), digitChar_digitNumber first digit]
  | append_singleton rest last ih =>
    rw [← List.cons_append, List.all_append, Bool.and_eq_true] at all
    have digit : isDigit last = true := by simpa using all.2
    have small := digitNumber_lt last digit
    have positive : 0 < decimalValue (first :: rest) := by
      have grows := le_decimalFrom (digitNumber first) rest
      have notZero : digitNumber first ≠ 0 := by
        intro zero
        have same := digitChar_digitNumber first (by simp_all)
        rw [zero] at same
        exact leading same.symm
      simp only [decimalValue, decimalFrom, Nat.mul_zero, Nat.add_zero]
      omega
    have quotient : (digitNumber last + 10 * decimalValue (first :: rest)) / 10
        = decimalValue (first :: rest) := by omega
    have remainder : (digitNumber last + 10 * decimalValue (first :: rest)) % 10
        = digitNumber last := by omega
    rw [← List.cons_append, decimalValue_snoc, decimal_step, if_neg (by omega), quotient, remainder,
      ih all.1, digitChar_digitNumber last digit]

-- The digits of a decimal integer, which may have a minus sign.
def digitsOf (word : CStr) : CStr :=
  match word with
  | [] => []
  | first :: rest => if first = ascii '-' then rest else first :: rest

def IsDecimal (word : CStr) : Prop := digitsOf word ≠ [] ∧ (digitsOf word).all isDigit = true

instance (word : CStr) : Decidable (IsDecimal word) := inferInstanceAs (Decidable (_ ∧ _))

def integerValue (word : CStr) : Int :=
  if word.head? = some (ascii '-') then -(decimalValue (digitsOf word) : Int)
  else decimalValue (digitsOf word)

def LeadingZero (word : CStr) : Prop := (digitsOf word).head? = some (ascii '0')

instance (word : CStr) : Decidable (LeadingZero word) := inferInstanceAs (Decidable (_ = _))

theorem unsignedOf_le (word : CStr) (decimal : IsDecimal word) :
    unsignedOf (digitsOf word) ≤ decimalValue (digitsOf word) := by
  obtain ⟨some_, all⟩ := decimal
  rcases split : digitsOf word with _ | ⟨first, rest⟩
  · exact absurd split some_
  · rw [split] at all
    rw [unsignedOf_digits first rest all]
    split_ifs
    · exact magnitude_eight_le 0 _ all
    · exact Nat.le_refl _

-- Base detection agrees with base ten unless a leading zero hides a number above 7.
theorem unsignedOf_iff (word : CStr) (decimal : IsDecimal word) :
    unsignedOf (digitsOf word) = decimalValue (digitsOf word) ↔
      (LeadingZero word → decimalValue (digitsOf word) ≤ 7) := by
  obtain ⟨some_, all⟩ := decimal
  unfold LeadingZero
  rcases split : digitsOf word with _ | ⟨first, rest⟩
  · exact absurd split some_
  · rw [split] at all
    rw [unsignedOf_digits first rest all]
    split_ifs with zero
    · simp [zero, ← magnitude_eight_iff _ (zero ▸ all)]
    · simp [zero]

theorem strtol_decimal (word : CStr) (decimal : IsDecimal word) :
    strtol word =
      if word.head? = some (ascii '-') then max longMin (-(unsignedOf (digitsOf word) : Int))
      else min longMax (unsignedOf (digitsOf word)) := by
  rcases word with _ | ⟨first, rest⟩
  · exact absurd rfl decimal.1
  · by_cases minus : first = ascii '-'
    · subst minus
      simpa [digitsOf] using strtol_minus rest
    · have all : (first :: rest).all isDigit = true := by simpa [digitsOf, minus] using decimal.2
      simpa [digitsOf, minus] using strtol_digits first rest all

theorem nat_text_length (number digits : Nat) (positive : 0 < digits) (small : number < 10 ^ digits) :
    (toString number).length ≤ digits := (Nat.length_repr_le_iff positive).mpr small

-- How much room `"%d"` takes at most.
theorem int_text_length (value : Int) (digits : Nat) (positive : 0 < digits) (small : value.natAbs < 10 ^ digits) :
    (toString value).length ≤ digits + 1 := by
  have short : value.natAbs.repr.length ≤ digits := nat_text_length value.natAbs digits positive small
  rw [Int.toString_eq_repr, Int.repr_eq_if]
  split_ifs with nonneg
  · rw [show value.toNat = value.natAbs by omega]
    exact short.trans (Nat.le_succ _)
  · rw [show (-value).toNat = value.natAbs by omega, String.length_append, show "-".length = 1 from rfl]
    omega

end SPHomework.Lib
