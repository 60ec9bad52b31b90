import SPHomework.Booking.Request
import SPHomework.Lib.Decimal

set_option autoImplicit false

/-!
# The numbers a client may write: bookings and ids
-/

namespace SPHomework.Booking

open Lib

def FitsInt (value : Int) : Prop := -2147483648 ≤ value ∧ value < 2147483648

instance (value : Int) : Decidable (FitsInt value) := inferInstanceAs (Decidable (_ ∧ _))

theorem toInt_fits (value : Int) (fits : FitsInt value) : (toInt value).toInt = value := by
  obtain ⟨low, high⟩ := fits
  rw [toInt, BitVec.toInt_ofInt]
  simp only [Int.bmod]
  omega

theorem isint_error (word : CStr) (nonempty : word ≠ []) :
    (isint word).2 = false ↔ IsDecimal word := by
  have accepted : ∀ a b : Bool, ((if a || b then (toInt (strtol word), false) else (-1, true)) : CInt × Bool).2
      = false ↔ a = true ∨ b = true := by
    intro a b
    cases a <;> cases b <;> simp
  unfold isint
  rw [accepted]
  match word with
  | [] => exact absurd rfl nonempty
  | [first] =>
    by_cases minus : first = ascii '-'
    · subst minus
      decide
    · simp [IsDecimal, digitsOf, minus]
  | first :: second :: rest =>
    by_cases minus : first = ascii '-'
    · subst minus
      have noDigit : isDigit (ascii '-') = false := by decide
      simp [IsDecimal, digitsOf, noDigit]
    · simp [IsDecimal, digitsOf, minus]

theorem isint_value (word : CStr) (accepted : (isint word).2 = false) :
    (isint word).1 = toInt (strtol word) := by
  unfold isint at accepted ⊢
  dsimp only at accepted ⊢
  split_ifs at accepted ⊢ with digits
  rfl

-- `isint` as its loops have it: the decimal integers of an `int`, with their value.
def ParsesDecimal (word : CStr) : Prop :=
  ((isint word).2 = false ↔ IsDecimal word ∧ FitsInt (integerValue word)) ∧
    ((isint word).2 = false → (isint word).1.toInt = integerValue word)

theorem isint_agrees (word : CStr) (decimal : IsDecimal word) (fits : FitsInt (integerValue word)) :
    (toInt (strtol word)).toInt = integerValue word ↔
      (LeadingZero word → decimalValue (digitsOf word) ≤ 7) := by
  have below := unsignedOf_le word decimal
  have exact_ : strtol word =
      if word.head? = some (ascii '-') then -(unsignedOf (digitsOf word) : Int)
      else unsignedOf (digitsOf word) := by
    rw [strtol_decimal word decimal]
    obtain ⟨low, high⟩ := fits
    unfold integerValue at low high
    split_ifs at low high ⊢
    · exact max_eq_right (by unfold longMin; omega)
    · exact min_eq_right (by unfold longMax; omega)
  have inside : FitsInt (strtol word) := by
    rw [exact_]
    obtain ⟨low, high⟩ := fits
    unfold integerValue at low high
    unfold FitsInt
    split_ifs at low high ⊢ <;> omega
  rw [toInt_fits _ inside, exact_, ← unsignedOf_iff word decimal, integerValue]
  split_ifs <;> omega

/-- `isint` keeps its word except on the decimal integers that do not fit an `int` and on those
that base 0 reads in base eight. -/
theorem isint_decimal_iff (word : CStr) (nonempty : word ≠ []) :
    ParsesDecimal word ↔
      (IsDecimal word → FitsInt (integerValue word) ∧
        (LeadingZero word → decimalValue (digitsOf word) ≤ 7)) := by
  unfold ParsesDecimal
  rw [isint_error word nonempty]
  constructor
  · rintro ⟨accepts, value⟩ decimal
    have fits := (accepts.mp decimal).2
    have same := value decimal
    rw [isint_value word ((isint_error word nonempty).mpr decimal)] at same
    exact ⟨fits, (isint_agrees word decimal fits).mp same⟩
  · intro condition
    constructor
    · constructor
      · intro decimal
        exact ⟨decimal, (condition decimal).1⟩
      · exact And.left
    · intro decimal
      rw [isint_value word ((isint_error word nonempty).mpr decimal)]
      exact (isint_agrees word decimal (condition decimal).1).mpr (condition decimal).2

theorem isint_decimal_minus :
    ParsesDecimal (ofChars ['-', '1', '2']) ∧ (isint (ofChars ['-', '1', '2'])).1.toInt = -12 :=
  ⟨(isint_decimal_iff _ (by decide)).mpr (by decide), by decide +kernel⟩

-- "010" is ten to the loops and eight to `strtol`.
theorem isint_octal : ¬ ParsesDecimal (ofChars ['0', '1', '0']) := by
  intro parses
  have value : (isint (ofChars ['0', '1', '0'])).1.toInt = 8 := by decide +kernel
  have ten := parses.2 (by decide +kernel)
  rw [value] at ten
  exact absurd ten (by decide +kernel)

theorem unsignedOf_short (text : CStr) (limit : Nat) (few : limit ≤ 6) (short : text.length ≤ limit) :
    unsignedOf text < 10 ^ limit := by
  rcases text with _ | ⟨first, rest⟩
  · exact Nat.pow_pos (by decide)
  · rw [List.length_cons] at short
    by_cases zero : first = ascii '0'
    · subst zero
      rcases unsignedOf_zero rest with octal | hexadecimal
      · calc unsignedOf (ascii '0' :: rest) < 8 ^ (rest.length + 1) := octal
          _ ≤ 8 ^ limit := Nat.pow_le_pow_right (by decide) short
          _ ≤ 10 ^ limit := Nat.pow_le_pow_left (by decide) limit
      · calc unsignedOf (ascii '0' :: rest) < 16 ^ (rest.length - 1) := hexadecimal
          _ ≤ 16 ^ (limit - 2) := Nat.pow_le_pow_right (by decide) (by omega)
          _ ≤ 10 ^ limit := by interval_cases limit <;> decide
    · rw [unsignedOf_ten first rest zero]
      calc magnitude 10 0 (first :: rest) < 10 ^ (first :: rest).length :=
            magnitude_bound 10 (by decide) _
        _ ≤ 10 ^ limit := Nat.pow_le_pow_right (by decide) (by simpa using short)

theorem strtol_fits (text : CStr) (six : text.length = 6) : FitsInt (strtol text) := by
  have suffix : text.dropWhile isSpace <:+ text := List.dropWhile_suffix _
  have short := suffix.length_le
  unfold strtol FitsInt
  rcases split : text.dropWhile isSpace with _ | ⟨first, rest⟩
  · decide
  · rw [split, List.length_cons] at short
    have behind := unsignedOf_short rest 6 (by decide) (by omega)
    have whole := unsignedOf_short (first :: rest) 6 (by decide) (by simp; omega)
    simp only [longMax, longMin]
    split_ifs <;> omega

-- A string of six bytes with so large a value has no room for anything but its digits.
theorem strtol_id (text : CStr) (six : text.length = 6) (large : 902001 ≤ strtol text) :
    text.all isDigit = true ∧ strtol text = decimalValue text ∧ text.head? ≠ some (ascii '0') := by
  have suffix : text.dropWhile isSpace <:+ text := List.dropWhile_suffix _
  have short := suffix.length_le
  unfold strtol at large ⊢
  rcases split : text.dropWhile isSpace with _ | ⟨first, rest⟩
  · rw [split] at large
    exact absurd large (by decide)
  · rw [split] at large short suffix
    rw [List.length_cons] at short
    dsimp only at large ⊢
    split_ifs at large ⊢ with minus plus
    · have limit : (max longMin (-(unsignedOf rest : Int))) ≤ 0 := by
        apply max_le (by decide)
        omega
      omega
    · have less := unsignedOf_short rest 5 (by decide) (by omega)
      have limit : min longMax (unsignedOf rest : Int) ≤ unsignedOf rest := min_le_right _ _
      omega
    · have limit : min longMax (unsignedOf (first :: rest) : Int) ≤ unsignedOf (first :: rest) :=
        min_le_right _ _
      have all_ : 6 ≤ (first :: rest).length := by
        by_contra less
        have small := unsignedOf_short (first :: rest) 5 (by decide) (by omega)
        omega
      have whole : first :: rest = text := suffix.eq_of_length_le (by omega)
      subst whole
      have leading : first ≠ ascii '0' := by
        rintro rfl
        rw [List.length_cons] at six
        have bound := unsignedOf_zero rest
        rw [Nat.succ.inj six] at bound
        omega
      have less := magnitude_bound 10 (by decide) (first :: rest)
      rw [six] at less
      rw [unsignedOf_ten first rest leading] at large limit ⊢
      have digits : (first :: rest).all isDigit = true := by
        apply digits_of_magnitude
        · rw [six]
          omega
        · omega
      rw [magnitude_ten 0 _ digits, ← decimalValue] at less ⊢
      refine ⟨digits, ?_, by simpa using leading⟩
      apply min_eq_right
      unfold longMax
      omega

theorem validId_decimal (id : Nat) (low : 902001 ≤ id) (high : id ≤ 902020) :
    validId (decimal id) = id := by
  interval_cases id <;> decide +kernel

/-- The ids that `validId` accepts are the twenty strings `902001` to `902020`. -/
theorem validId_exact (text : CStr) :
    (0 < validId text ↔ ∃ id, 902001 ≤ id ∧ id ≤ 902020 ∧ text = decimal id) ∧
      (∀ id : Nat, 902001 ≤ id → id ≤ 902020 → text = decimal id → validId text = id) ∧
      (¬ 0 < validId text → validId text = -1) ∧
      (∀ record, recordOf text = some record → record < 20) := by
  refine ⟨⟨?_, ?_⟩, ?_, ?_, recordOf_lt text⟩
  · intro valid
    unfold validId at valid
    dsimp only at valid
    split_ifs at valid with range
    · rw [toInt_fits _ (strtol_fits text range.2.2)] at range
      obtain ⟨digits, value, leading⟩ := strtol_id text range.2.2 range.1
      rw [value] at range
      refine ⟨decimalValue text, by omega, by omega, ?_⟩
      rcases text with _ | ⟨first, rest⟩
      · exact absurd range.2.2 (by decide)
      · exact (decimal_decimalValue first rest digits (by simpa using leading)).symm
    · omega
  · rintro ⟨id, low, high, rfl⟩
    rw [validId_decimal id low high]
    omega
  · rintro id low high rfl
    exact validId_decimal id low high
  · intro invalid
    unfold validId at invalid ⊢
    dsimp only at invalid ⊢
    split_ifs at invalid ⊢ with range
    · omega
    · rfl

end SPHomework.Booking
