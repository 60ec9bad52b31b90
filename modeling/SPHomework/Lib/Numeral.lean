import SPHomework.Lib.Decimal

set_option autoImplicit false

/-!
# The text of a number

How much of a text `strtol` converts with base 10, and when a text that is
followed by other bytes holds the whole of its number.
-/

namespace SPHomework.Lib

def isSign (byte : UInt8) : Bool := byte = ascii '-' || byte = ascii '+'

-- How many digits a text starts with.
def leading (text : CStr) : Nat := (text.takeWhile isDigit).length

/-- Where `strtol(text, &end, 10)` leaves `end`: after the last digit, and at the start if there is no
number. -/
def strtolEnd : CStr → Nat
  | [] => 0
  | byte :: rest =>
    if isSpace byte then if strtolEnd rest = 0 then 0 else strtolEnd rest + 1
    else if isSign byte then if leading rest = 0 then 0 else leading rest + 1
    else leading (byte :: rest)

/-- After some bytes the number has not begun, goes on with the digits that follow, or has ended. -/
inductive Scan where
  | blank
  | digits
  | ended
  deriving DecidableEq

def Scan.next : Scan → UInt8 → Scan
  | .blank, byte =>
    if isSpace byte then .blank else if isSign byte || isDigit byte then .digits else .ended
  | .digits, byte => if isDigit byte then .digits else .ended
  | .ended, _ => .ended

-- What follows does not go on with the number, nor begins one that has not begun.
def Scan.Settled (scan : Scan) (after : List UInt8) : Prop :=
  match scan with
  | .blank => strtolEnd after = 0
  | .digits => leading after = 0
  | .ended => True

def Settled (text after : List UInt8) : Prop := (text.foldl Scan.next .blank).Settled after

theorem leading_digit {byte : UInt8} {rest : CStr} (digit : isDigit byte = true) :
    leading (byte :: rest) = leading rest + 1 := by
  rw [leading, List.takeWhile_cons_of_pos digit, List.length_cons, leading]

theorem leading_other {byte : UInt8} {rest : CStr} (other : isDigit byte = false) : leading (byte :: rest) = 0 := by
  rw [leading, List.takeWhile_cons_of_neg (by rw [other]; decide), List.length_nil]

theorem scan_ended (text : List UInt8) : text.foldl Scan.next .ended = .ended := by
  induction text with
  | nil => rfl
  | cons byte rest ih => exact ih

theorem leading_append (text after : List UInt8) :
    leading (text ++ after) ≤ text.length ↔ (text.foldl Scan.next .digits).Settled after := by
  induction text with
  | nil => exact Nat.le_zero
  | cons byte rest ih =>
    by_cases digit : isDigit byte = true
    · rw [List.cons_append, leading_digit digit, List.length_cons, Nat.add_le_add_iff_right, ih,
        List.foldl_cons, Scan.next, if_pos digit]
    · rw [List.cons_append, leading_other (by simpa using digit), List.foldl_cons, Scan.next, if_neg digit,
        scan_ended]
      exact iff_of_true (Nat.zero_le _) trivial

theorem strtolEnd_append (text after : List UInt8) :
    strtolEnd (text ++ after) ≤ text.length ↔ Settled text after := by
  unfold Settled
  induction text with
  | nil => exact Nat.le_zero
  | cons byte rest ih =>
    rw [List.cons_append, strtolEnd, List.foldl_cons, Scan.next, List.length_cons]
    by_cases space : isSpace byte = true
    · rw [if_pos space, if_pos space, ← ih]
      split <;> omega
    rw [if_neg space, if_neg space]
    by_cases sign : isSign byte = true
    · have goes : (isSign byte || isDigit byte) = true := by rw [sign, Bool.true_or]
      rw [if_pos sign, goes, if_pos rfl, ← leading_append]
      split <;> omega
    rw [if_neg sign]
    by_cases digit : isDigit byte = true
    · have goes : (isSign byte || isDigit byte) = true := by rw [digit, Bool.or_true]
      rw [goes, if_pos rfl, leading_digit digit, ← leading_append, Nat.add_le_add_iff_right]
    · rw [if_neg (by simp [sign, digit]), leading_other (by simpa using digit), scan_ended]
      exact iff_of_true (Nat.zero_le _) trivial

theorem cString_cons {byte : UInt8} {rest : List UInt8} (proper : byte ≠ 0) :
    cString (byte :: rest) = byte :: cString rest :=
  List.takeWhile_cons_of_pos (by simpa using proper)

-- A buffer is read byte by byte up to a NUL.
@[elab_as_elim]
theorem cString_induction {motive : List UInt8 → Prop} (nil : motive []) (zero : ∀ rest, motive (0 :: rest))
    (other : ∀ byte rest, byte ≠ 0 → motive rest → motive (byte :: rest)) (buffer : List UInt8) :
    motive buffer := by
  induction buffer with
  | nil => exact nil
  | cons byte rest ih =>
    by_cases null : byte = 0
    · exact null ▸ zero rest
    · exact other byte rest null ih

-- NUL is neither a space nor a sign nor a digit.
theorem leading_zero (rest : List UInt8) : leading (0 :: rest) = 0 := leading_other (by decide)

theorem strtolEnd_zero (rest : List UInt8) : strtolEnd (0 :: rest) = 0 := by
  rw [strtolEnd, if_neg (by decide), if_neg (by decide), leading_zero]

-- A NUL ends every number.
theorem settled_zero (text rest : List UInt8) : Settled text (0 :: rest) := by
  unfold Settled
  cases text.foldl Scan.next .blank with
  | blank => exact strtolEnd_zero rest
  | digits => exact leading_zero rest
  | ended => trivial

theorem leading_cString (buffer : List UInt8) : leading (cString buffer) = leading buffer := by
  induction buffer using cString_induction with
  | nil => rfl
  | zero rest => exact (leading_zero rest).symm
  | other byte rest proper ih =>
    rw [cString_cons proper]
    by_cases digit : isDigit byte = true
    · rw [leading_digit digit, leading_digit digit, ih]
    · rw [leading_other (by simpa using digit), leading_other (by simpa using digit)]

theorem strtolEnd_cString (buffer : List UInt8) : strtolEnd (cString buffer) = strtolEnd buffer := by
  induction buffer using cString_induction with
  | nil => rfl
  | zero rest => exact (strtolEnd_zero rest).symm
  | other byte rest proper ih =>
    have same : leading (byte :: cString rest) = leading (byte :: rest) := by
      rw [← cString_cons proper, leading_cString]
    rw [cString_cons proper, strtolEnd, strtolEnd, ih, leading_cString, same]

theorem magnitude_other (value : Nat) {byte : UInt8} (rest : CStr) (other : isDigit byte = false) :
    magnitude 10 value (byte :: rest) = value := by
  simp [magnitude, digitOf_other 10 (by decide) byte other]

theorem magnitude_none (value : Nat) (text : CStr) (none_ : leading text = 0) : magnitude 10 value text = value := by
  cases text with
  | nil => rfl
  | cons byte rest =>
    by_cases digit : isDigit byte = true
    · rw [leading_digit digit] at none_
      cases none_
    · exact magnitude_other value rest (by simpa using digit)

theorem magnitude_append (value : Nat) (text after : CStr) (inside : leading (text ++ after) ≤ text.length) :
    magnitude 10 value (text ++ after) = magnitude 10 value text := by
  induction text generalizing value with
  | nil => exact magnitude_none value after (Nat.le_zero.mp inside)
  | cons byte rest ih =>
    rw [List.cons_append] at inside ⊢
    by_cases digit : isDigit byte = true
    · rw [leading_digit digit, List.length_cons, Nat.add_le_add_iff_right] at inside
      have less := digitNumber_lt byte digit
      rw [magnitude_digit 10 value byte _ digit less, magnitude_digit 10 value byte _ digit less, ih _ inside]
    · have other : isDigit byte = false := by simpa using digit
      rw [magnitude_other value _ other, magnitude_other value _ other]

theorem magnitude_cString (value : Nat) (buffer : List UInt8) :
    magnitude 10 value (cString buffer) = magnitude 10 value buffer := by
  induction buffer using cString_induction generalizing value with
  | nil => rfl
  | zero rest => exact (magnitude_other value rest (by decide)).symm
  | other byte rest proper ih =>
    rw [cString_cons proper]
    simp only [magnitude]
    split
    · rfl
    · exact ih _

end SPHomework.Lib
