import Mathlib.Data.List.TakeWhile
import Mathlib.Data.Int.Order.Basic
import Mathlib.Tactic.SplitIfs

set_option autoImplicit false

/-!
# The C string functions

A C string is the list of its bytes before the terminating NUL.
-/

namespace SPHomework.Lib

abbrev CStr := List UInt8

def ascii (character : Char) : UInt8 := UInt8.ofNat character.toNat

def ofChars (characters : List Char) : CStr := characters.map ascii

-- The string a buffer holds: the bytes before its first NUL.
def cString (buffer : List UInt8) : CStr := buffer.takeWhile (· ≠ 0)

def strstr : CStr → CStr → Option Nat
  | [], needle => if needle = [] then some 0 else none
  | byte :: rest, needle =>
    if needle.isPrefixOf (byte :: rest) then some 0 else (strstr rest needle).map (· + 1)

-- One call of `strtok`: the token, and what the saved pointer is left at.
def strtok (saved : CStr) (delimiters : List UInt8) : Option CStr × CStr :=
  let text := saved.dropWhile (· ∈ delimiters)
  if text = [] then (none, [])
  else (some (text.takeWhile (· ∉ delimiters)), (text.dropWhile (· ∉ delimiters)).drop 1)

def isDigit (byte : UInt8) : Bool := ascii '0' ≤ byte && byte ≤ ascii '9'

def isSpace (byte : UInt8) : Bool := byte = 32 || (9 ≤ byte && byte ≤ 13)

def digitValue (byte : UInt8) : Option Nat :=
  if isDigit byte then some (byte.toNat - 48)
  else if ascii 'a' ≤ byte && byte ≤ ascii 'z' then some (byte.toNat - 87)
  else if ascii 'A' ≤ byte && byte ≤ ascii 'Z' then some (byte.toNat - 55)
  else none

def digitOf (base : Nat) (byte : UInt8) : Option Nat :=
  (digitValue byte).filter (· < base)

def magnitude (base : Nat) : Nat → CStr → Nat
  | value, [] => value
  | value, byte :: rest =>
    match digitOf base byte with
    | none => value
    | some digit => magnitude base (value * base + digit) rest

def longMax : Int := 0x7fffffffffffffff

def longMin : Int := -0x8000000000000000

def unsignedOf (text : CStr) : Nat :=
  match text with
  | zero :: mark :: digit :: rest =>
    if zero = ascii '0' then
      if (mark = ascii 'x' ∨ mark = ascii 'X') ∧ (digitOf 16 digit).isSome then
        magnitude 16 0 (digit :: rest)
      else magnitude 8 0 text
    else magnitude 10 0 text
  | zero :: _ => if zero = ascii '0' then magnitude 8 0 text else magnitude 10 0 text
  | [] => 0

/-- `strtol(text, NULL, 0)`: white space, a sign, the base by prefix, saturation to `long`. -/
def strtol (text : CStr) : Int :=
  match text.dropWhile isSpace with
  | [] => 0
  | first :: rest =>
    if first = ascii '-' then max longMin (-(unsignedOf rest : Int))
    else if first = ascii '+' then min longMax (unsignedOf rest)
    else min longMax (unsignedOf (first :: rest))

/-- The sign of `strcmp`: bytes compare as unsigned, and a proper prefix comes first. -/
def strcmp : CStr → CStr → Ordering
  | [], [] => .eq
  | [], _ :: _ => .lt
  | _ :: _, [] => .gt
  | left :: lefts, right :: rights =>
    if left < right then .lt else if right < left then .gt else strcmp lefts rights

theorem strcmp_self (text : CStr) : strcmp text text = .eq := by
  induction text with
  | nil => rfl
  | cons byte rest ih => simp [strcmp, ih]

theorem strcmp_swap (left right : CStr) : strcmp right left = (strcmp left right).swap := by
  induction left generalizing right with
  | nil => cases right <;> rfl
  | cons byte rest ih =>
    cases right with
    | nil => rfl
    | cons other rights =>
      simp only [strcmp, ih rights]
      by_cases less : byte < other
      · have notLess : ¬ other < byte := UInt8.lt_asymm less
        simp [less, notLess]
      · by_cases more : other < byte <;> simp [less, more]

theorem strcmp_eq (left right : CStr) (equal : strcmp left right = .eq) : left = right := by
  induction left generalizing right with
  | nil => cases right <;> simp_all [strcmp]
  | cons byte rest ih =>
    cases right with
    | nil => simp [strcmp] at equal
    | cons other rights =>
      simp only [strcmp] at equal
      split_ifs at equal with less more
      have same : byte = other := UInt8.le_antisymm (UInt8.not_lt.mp more) (UInt8.not_lt.mp less)
      rw [same, ih rights equal]

theorem strcmp_trans (first second third : CStr) (one : strcmp first second ≠ .gt)
    (two : strcmp second third ≠ .gt) : strcmp first third ≠ .gt := by
  induction first generalizing second third with
  | nil => cases third <;> simp [strcmp]
  | cons a firsts ih =>
    cases second with
    | nil => simp [strcmp] at one
    | cons b seconds =>
      cases third with
      | nil => simp [strcmp] at two
      | cons c thirds =>
        simp only [strcmp] at one two ⊢
        split_ifs at one two ⊢ <;> grind

-- Strings that go on with one byte below all of theirs compare as before.
theorem strcmp_append (left right suffix : CStr) (mark : UInt8)
    (above : ∀ byte ∈ left, mark < byte) (above' : ∀ byte ∈ right, mark < byte) :
    strcmp (left ++ mark :: suffix) (right ++ mark :: suffix) = strcmp left right := by
  induction left generalizing right with
  | nil =>
    cases right with
    | nil => exact strcmp_self _
    | cons other rights =>
      have high := above' other (List.mem_cons_self ..)
      simp [strcmp, high]
  | cons byte rest ih =>
    cases right with
    | nil =>
      have high := above byte (List.mem_cons_self ..)
      have notLess : ¬ byte < mark := UInt8.lt_asymm high
      simp [strcmp, high, notLess]
    | cons other rights =>
      simp only [List.cons_append, strcmp]
      rw [ih rights (fun byte member => above byte (List.mem_cons_of_mem _ member))
        fun byte member => above' byte (List.mem_cons_of_mem _ member)]

theorem strstr_le (text needle : CStr) (position : Nat) (found : strstr text needle = some position) :
    position ≤ text.length := by
  induction text generalizing position with
  | nil =>
    simp only [strstr] at found
    split_ifs at found
    simp_all
  | cons byte rest ih =>
    simp only [strstr] at found
    split_ifs at found
    · exact Option.some.inj found ▸ Nat.zero_le _
    · obtain ⟨before, inside, rfl⟩ := Option.map_eq_some_iff.mp found
      simpa using ih before inside

theorem cString_append (text rest : List UInt8) (proper : ∀ byte ∈ text, byte ≠ 0) :
    cString (text ++ 0 :: rest) = text := by
  unfold cString
  rw [List.takeWhile_append_of_pos (by simpa using proper)]
  simp

theorem cString_self_iff (text after : List UInt8) (proper : ∀ byte ∈ text, byte ≠ 0) :
    cString (text ++ after) = text ↔ ∀ byte, after.head? = some byte → byte = 0 := by
  have split : cString (text ++ after) = text ++ cString after :=
    List.takeWhile_append_of_pos (by simpa using proper)
  rw [split, List.append_right_eq_self]
  cases after with
  | nil => simp [cString]
  | cons byte rest => by_cases zero : byte = 0 <;> simp [cString, zero]

theorem take_proper (buffer : List UInt8) (length : Nat) (inside : length ≤ (cString buffer).length) :
    ∀ byte ∈ buffer.take length, byte ≠ 0 := by
  have whole : cString buffer ++ buffer.dropWhile (· ≠ 0) = buffer := List.takeWhile_append_dropWhile
  rw [← whole, List.take_append_of_le_length inside]
  intro byte member
  simpa using List.mem_takeWhile_imp (List.mem_of_mem_take member)

end SPHomework.Lib
