import Mathlib.Data.List.DropRight
import SPHomework.Lib.Numeral

set_option autoImplicit false

/-!
# Formatted input

`scanf` takes the items of a format from a stream one after the other, and stops
at the first that is not there. What was written with blanks in between is read
back.
-/

namespace SPHomework.Lib

/-- `%d` and `%u`, `%s` with the most bytes it may take, and `%c`. -/
inductive Conversion where
  | numeral
  | word (width : Option Nat)
  | byte
  deriving DecidableEq

-- White space in a format takes as many blanks as there are.
inductive Directive where
  | space
  | item (conversion : Conversion)
  deriving DecidableEq

def skipSpace (input : List UInt8) : List UInt8 := input.dropWhile isSpace

def nonblank (input : List UInt8) : CStr := input.takeWhile fun byte => !isSpace byte

def wordItem : Option Nat → List UInt8 → CStr
  | none, text => nonblank text
  | some most, text => (nonblank text).take most

-- A sign without digits is gone all the same.
def signLength (input : List UInt8) : Nat := if (input.head?.map isSign).getD false then 1 else 0

/-- What a conversion takes, and what is left. A numeral or a word stands behind blanks. -/
def Conversion.take : Conversion → List UInt8 → Option CStr × List UInt8
  | .numeral, input =>
    let text := skipSpace input
    if strtolEnd text = 0 then (none, text.drop (signLength text))
    else (some (text.take (strtolEnd text)), text.drop (strtolEnd text))
  | .word width, input =>
    let text := skipSpace input
    if text = [] then (none, [])
    else (some (wordItem width text), text.drop (wordItem width text).length)
  | .byte, [] => (none, [])
  | .byte, first :: rest => (some [first], rest)

/-- The items that are converted, and what is left. -/
def scanf : List Directive → List UInt8 → List CStr × List UInt8
  | [], input => ([], input)
  | .space :: format, input => scanf format (skipSpace input)
  | .item conversion :: format, input =>
    match conversion.take input with
    | (none, rest) => ([], rest)
    | (some text, rest) => (text :: (scanf format rest).1, (scanf format rest).2)

-- What stands between two items.
structure Gap where
  blanks : List UInt8
  some_ : blanks ≠ []
  blank : ∀ byte ∈ blanks, isSpace byte = true

def Blank (text : List UInt8) : Prop := ∀ byte ∈ text, isSpace byte = true

theorem blank_single (byte : UInt8) (space : isSpace byte = true) : Blank [byte] :=
  List.forall_mem_singleton.mpr space

theorem blank_space : Blank [32] := blank_single 32 rfl

theorem blank_newline : Blank [10] := blank_single 10 rfl

-- A blank, and the end of a line.
def Gap.space : Gap := ⟨[32], List.cons_ne_nil _ _, blank_space⟩

def Gap.newline : Gap := ⟨[10], List.cons_ne_nil _ _, blank_newline⟩

-- What follows an item that ends there: nothing, or a blank.
def BlankAhead (after : List UInt8) : Prop := ∀ byte ∈ after.head?, isSpace byte = true

theorem Gap.ahead (gap : Gap) (after : List UInt8) : BlankAhead (gap.blanks ++ after) := by
  obtain ⟨first, rest, split⟩ := List.exists_cons_of_ne_nil gap.some_
  intro byte head
  have same : first = byte := by simpa [split] using head
  exact gap.blank byte (by simp [split, same])

theorem Blank.ahead {text : List UInt8} (blank : Blank text) : BlankAhead text := fun byte head =>
  blank byte (List.mem_of_head? head)

def IsWord (word : CStr) : Prop := word ≠ [] ∧ ∀ byte ∈ word, isSpace byte = false

theorem skipSpace_blank (blanks input : List UInt8) (blank : Blank blanks) :
    skipSpace (blanks ++ input) = skipSpace input := by
  rw [skipSpace, List.dropWhile_append_of_pos blank, skipSpace]

theorem skipSpace_word (word after : List UInt8) (proper : IsWord word) : skipSpace (word ++ after) = word ++ after := by
  obtain ⟨first, rest, rfl⟩ := List.exists_cons_of_ne_nil proper.1
  have begins := proper.2 first (List.mem_cons_self ..)
  exact List.dropWhile_cons_of_neg (by simpa using begins)

theorem nonblank_word (word after : List UInt8) (proper : IsWord word) (stops : BlankAhead after) :
    nonblank (word ++ after) = word := by
  rw [nonblank, List.takeWhile_append_of_pos (by simpa using proper.2)]
  cases after with
  | nil => simp
  | cons byte rest =>
    have separates := stops byte rfl
    simp [separates]

theorem isDigit_space (byte : UInt8) (digit : isDigit byte = true) : isSpace byte = false :=
  (isDigit_proper byte digit).1

theorem isSpace_digit (byte : UInt8) (space : isSpace byte = true) : isDigit byte = false := by
  by_contra digit
  rw [isDigit_space byte (by simpa using digit)] at space
  cases space

theorem decimal_word (word : CStr) (decimal : IsDecimal word) : IsWord word := by
  refine ⟨fun empty => decimal.1 (by rw [empty]; rfl), fun byte member => ?_⟩
  have all := List.all_eq_true.mp decimal.2
  cases word with
  | nil => cases member
  | cons first rest =>
    by_cases minus : first = ascii '-'
    · rw [digitsOf, if_pos minus] at all
      rcases List.mem_cons.mp member with rfl | later
      · rw [minus]
        decide
      · exact isDigit_space byte (all byte later)
    · rw [digitsOf, if_neg minus] at all
      exact isDigit_space byte (all byte member)

theorem leading_whole (digits after : CStr) (all : digits.all isDigit = true) (stops : BlankAhead after) :
    leading (digits ++ after) = digits.length := by
  rw [leading, List.takeWhile_append_of_pos (by simpa using all)]
  cases after with
  | nil => simp
  | cons byte rest =>
    have other := isSpace_digit byte (stops byte rfl)
    simp [other]

theorem strtolEnd_decimal (word after : CStr) (decimal : IsDecimal word) (stops : BlankAhead after) :
    strtolEnd (word ++ after) = word.length := by
  have begins := (decimal_word word decimal).2
  obtain ⟨some_, all⟩ := decimal
  rcases word with _ | ⟨first, rest⟩
  · exact absurd rfl some_
  have noSpace := begins first (List.mem_cons_self ..)
  rw [List.cons_append, strtolEnd, if_neg (by simp [noSpace])]
  by_cases minus : first = ascii '-'
  · rw [digitsOf, if_pos minus] at some_ all
    have length := leading_whole rest after all stops
    have positive : rest.length ≠ 0 := by simpa using some_
    rw [if_pos (by rw [minus]; decide), length, if_neg positive, List.length_cons]
  · rw [digitsOf, if_neg minus] at all
    have digit : isDigit first = true := by simp_all
    rw [if_neg (by simp [isSign, minus, (isDigit_proper first digit).2.2]), ← List.cons_append,
      leading_whole _ after all stops]

variable (format : List Directive)

-- The rules for what was written: one for each conversion.
theorem scanf_numeral (blanks word after : List UInt8) (blank : Blank blanks) (decimal : IsDecimal word)
    (stops : BlankAhead after) : scanf (.item .numeral :: format) (blanks ++ (word ++ after)) =
      (word :: (scanf format after).1, (scanf format after).2) := by
  have length := strtolEnd_decimal word after decimal stops
  have proper := decimal_word word decimal
  have positive : word.length ≠ 0 := by simpa using proper.1
  simp only [scanf, Conversion.take, skipSpace_blank blanks _ blank, skipSpace_word word after proper, length,
    if_neg positive, List.take_left, List.drop_left]

theorem scanf_word (width : Option Nat) (blanks word after : List UInt8) (blank : Blank blanks)
    (proper : IsWord word) (fits : ∀ most ∈ width, word.length ≤ most) (stops : BlankAhead after) :
    scanf (.item (.word width) :: format) (blanks ++ (word ++ after)) =
      (word :: (scanf format after).1, (scanf format after).2) := by
  have whole : wordItem width (word ++ after) = word := by
    cases width with
    | none => exact nonblank_word word after proper stops
    | some most => rw [wordItem, nonblank_word word after proper stops, List.take_of_length_le (fits most rfl)]
  simp [scanf, Conversion.take, skipSpace_blank blanks _ blank, skipSpace_word word after proper, whole, proper.1]

theorem skipSpace_skipSpace (input : List UInt8) : skipSpace (skipSpace input) = skipSpace input :=
  List.dropWhile_idempotent _ _

-- Blanks of the format before a numeral or a word change nothing.
theorem scanf_space_item (conversion : Conversion) (skips : conversion ≠ .byte) (input : List UInt8) :
    scanf (.space :: .item conversion :: format) input = scanf (.item conversion :: format) input := by
  cases conversion with
  | numeral => simp only [scanf, Conversion.take, skipSpace_skipSpace]
  | word width => simp only [scanf, Conversion.take, skipSpace_skipSpace]
  | byte => exact absurd rfl skips

theorem scanf_space_byte (blanks : List UInt8) (byte : UInt8) (after : List UInt8) (blank : Blank blanks)
    (seen : isSpace byte = false) : scanf (.space :: .item .byte :: format) (blanks ++ byte :: after) =
      ([byte] :: (scanf format after).1, (scanf format after).2) := by
  have start : skipSpace (byte :: after) = byte :: after := List.dropWhile_cons_of_neg (by simp [seen])
  rw [scanf, skipSpace_blank blanks _ blank, start]
  rfl

-- What an item is, whatever the input.
def Conversion.Item : Conversion → CStr → Prop
  | .numeral, text => text ≠ [] ∧ strtolEnd text = text.length
  | .word width, text => (∀ most ∈ width, text.length ≤ most) ∧ ∀ byte ∈ text, isSpace byte = false
  | .byte, text => text.length = 1

def conversions (format : List Directive) : List Conversion :=
  format.filterMap fun
    | .space => none
    | .item conversion => some conversion

theorem strtolEnd_take (text : List UInt8) : strtolEnd (text.take (strtolEnd text)) = strtolEnd text := by
  induction text with
  | nil => rfl
  | cons byte rest ih =>
    have digits : ∀ text : CStr, leading (text.take (leading text)) = leading text := by
      intro text
      have whole : text.take (leading text) = text.takeWhile isDigit :=
        (List.prefix_iff_eq_take.mp (List.takeWhile_prefix isDigit)).symm
      rw [whole, leading, leading, List.takeWhile_takeWhile]
      simp
    rw [strtolEnd]
    split_ifs with space none_ sign none_
    · rfl
    · simp [strtolEnd, space, ih, none_]
    · rfl
    · simp [strtolEnd, space, sign, digits, none_]
    · cases count : leading (byte :: rest) with
      | zero => rfl
      | succ less =>
        have same := digits (byte :: rest)
        rw [count, List.take_succ_cons] at same
        rw [List.take_succ_cons, strtolEnd, if_neg space, if_neg sign, same]

theorem strtolEnd_le (text : List UInt8) : strtolEnd text ≤ text.length := by
  have taken := strtolEnd_append text []
  rw [List.append_nil] at taken
  refine taken.mpr ?_
  unfold Settled
  cases text.foldl Scan.next .blank <;> simp [Scan.Settled, strtolEnd, leading]

theorem Conversion.take_item (conversion : Conversion) (input : List UInt8) (text : CStr)
    (taken : (conversion.take input).1 = some text) : conversion.Item text := by
  cases conversion with
  | numeral =>
    simp only [Conversion.take] at taken
    split_ifs at taken with none_
    obtain rfl := Option.some.inj taken
    have length : ((skipSpace input).take (strtolEnd (skipSpace input))).length = strtolEnd (skipSpace input) := by
      rw [List.length_take]
      exact Nat.min_eq_left (strtolEnd_le _)
    refine ⟨fun empty => none_ ?_, ?_⟩
    · rw [← length, empty, List.length_nil]
    · rw [strtolEnd_take, length]
  | word width =>
    simp only [Conversion.take] at taken
    split_ifs at taken with none_
    obtain rfl := Option.some.inj taken
    have part : wordItem width (skipSpace input) <+: nonblank (skipSpace input) := by
      cases width with
      | none => exact List.prefix_refl _
      | some most => exact List.take_prefix ..
    refine ⟨?_, fun byte member => ?_⟩
    · rintro most rfl
      simp only [wordItem, List.length_take]
      omega
    · simpa using List.mem_takeWhile_imp (part.subset member)
  | byte =>
    cases input with
    | nil => cases taken
    | cons byte rest =>
      obtain rfl := Option.some.inj taken
      rfl

/-- The items are those of the first conversions. -/
theorem scanf_items (input : List UInt8) : ∃ done, done <+: conversions format ∧
    List.Forall₂ Conversion.Item done (scanf format input).1 := by
  induction format generalizing input with
  | nil => exact ⟨[], List.prefix_refl _, .nil⟩
  | cons directive format ih =>
    cases directive with
    | space => exact ih _
    | item conversion =>
      rw [scanf]
      split
      · exact ⟨[], List.nil_prefix, .nil⟩
      · rename_i text rest some_
        obtain ⟨done, part, items⟩ := ih rest
        have first := conversion.take_item input text (by rw [some_])
        exact ⟨conversion :: done, (List.prefix_cons_inj conversion).mpr part, .cons first items⟩

section

variable {A W : Type}

/-- A loop that reads `count` values one after the other. -/
def readMany (read : List UInt8 → Option (A × List UInt8)) : Nat → List UInt8 → Option (List A × List UInt8)
  | 0, input => some ([], input)
  | count + 1, input => do
    let first ← read input
    let later ← readMany read count first.2
    return (first.1 :: later.1, later.2)

-- What each round writes is read back, if each may be followed by the next.
theorem readMany_written (read : List UInt8 → Option (A × List UInt8)) (text : W → List UInt8) (value : W → A)
    (back : ∀ written after, BlankAhead after → read (text written ++ after) = some (value written, after))
    (ahead : ∀ written after, BlankAhead (text written ++ after)) (list : List W) (after : List UInt8)
    (stops : BlankAhead after) :
    readMany read list.length (list.flatMap text ++ after) = some (list.map value, after) := by
  induction list with
  | nil => rfl
  | cons written list ih =>
    have next : BlankAhead (list.flatMap text ++ after) := by
      cases list with
      | nil => exact stops
      | cons other list =>
        rw [List.flatMap_cons, List.append_assoc]
        exact ahead other _
    rw [List.length_cons, readMany, List.flatMap_cons, List.append_assoc, back written _ next]
    simp [ih]

-- What holds of each value that is read, whatever the input.
theorem readMany_all (read : List UInt8 → Option (A × List UInt8)) (Ok : A → Prop)
    (ok : ∀ input value rest, read input = some (value, rest) → Ok value) (count : Nat) (input : List UInt8)
    (values : List A) (rest : List UInt8) (done : readMany read count input = some (values, rest)) :
    values.length = count ∧ ∀ value ∈ values, Ok value := by
  induction count generalizing input values with
  | zero =>
    obtain ⟨rfl, rfl⟩ := Prod.mk.inj (Option.some.inj done)
    simp
  | succ count ih =>
    simp only [readMany, Option.bind_eq_bind, Option.bind_eq_some_iff] at done
    obtain ⟨⟨value, after⟩, first, ⟨later, rest'⟩, others, done⟩ := done
    obtain ⟨rfl, rfl⟩ := Prod.mk.inj (Option.some.inj done)
    obtain ⟨length, all⟩ := ih after later others
    refine ⟨by rw [List.length_cons, length], ?_⟩
    intro other member
    rcases List.mem_cons.mp member with rfl | inside
    · exact ok input other after first
    · exact all other inside

end

end SPHomework.Lib
