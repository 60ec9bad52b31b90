import SPHomework.Lib.Numeral

set_option autoImplicit false

/-!
# The text that `strtod` converts

`subject` is the longest beginning of a text that has the form of a number. The
double it converts to is not computed here.
-/

namespace SPHomework.Lib

-- How many bytes of a kind a text starts with.
def runLength (kind : UInt8 → Bool) (text : CStr) : Nat := (text.takeWhile kind).length

def isHexDigit (byte : UInt8) : Bool := (digitOf 16 byte).isSome

/-- Digits that may hold a point, with at least one digit. -/
def mantissa (kind : UInt8 → Bool) (text : CStr) : Nat :=
  match text.drop (runLength kind text) with
  | [] => runLength kind text
  | mark :: rest =>
    if mark = ascii '.' ∧ 0 < runLength kind text + runLength kind rest then
      runLength kind text + 1 + runLength kind rest
    else runLength kind text

def exponent (marks : List UInt8) (text : CStr) : Nat :=
  match text with
  | [] => 0
  | mark :: rest =>
    let sign := (rest.take 1).countP isSign
    if mark ∈ marks ∧ 0 < leading (rest.drop sign) then 1 + sign + leading (rest.drop sign) else 0

def lower (byte : UInt8) : UInt8 := if ascii 'A' ≤ byte && byte ≤ ascii 'Z' then byte + 32 else byte

-- Without regard to case.
def startsWith (word : List Char) (text : CStr) : Bool := (text.take word.length).map lower = ofChars word

def isNanChar (byte : UInt8) : Bool :=
  isDigit byte || (ascii 'a' ≤ lower byte && lower byte ≤ ascii 'z') || byte = ascii '_'

-- The `(...)` after `nan`.
def nanChars (text : CStr) : Nat :=
  match text with
  | [] => 0
  | mark :: rest =>
    let chars := runLength isNanChar rest
    if mark = ascii '(' ∧ (rest.drop chars).head? = some (ascii ')') then chars + 2 else 0

-- The length of the number without its sign.
def number (text : CStr) : Nat :=
  if startsWith ['0', 'x'] text ∧ 0 < mantissa isHexDigit (text.drop 2) then
    let size := 2 + mantissa isHexDigit (text.drop 2)
    size + exponent [ascii 'p', ascii 'P'] (text.drop size)
  else if startsWith ['i', 'n', 'f', 'i', 'n', 'i', 't', 'y'] text then 8
  else if startsWith ['i', 'n', 'f'] text then 3
  else if startsWith ['n', 'a', 'n'] text then 3 + nanChars (text.drop 3)
  else if mantissa isDigit text = 0 then 0
  else mantissa isDigit text + exponent [ascii 'e', ascii 'E'] (text.drop (mantissa isDigit text))

def subject (text : CStr) : CStr :=
  match text.dropWhile isSpace with
  | [] => []
  | first :: rest =>
    if isSign first then if number rest = 0 then [] else first :: rest.take (number rest)
    else (first :: rest).take (number (first :: rest))

-- Digits, and a point with the digits of a fraction if there is one.
def isUnsigned (text : CStr) : Bool :=
  leading text ≠ 0 &&
    match text.drop (leading text) with
    | [] => true
    | mark :: rest => mark = ascii '.' && rest.all isDigit

def isPlain (text : CStr) : Bool :=
  match text with
  | [] => false
  | first :: rest => if isSign first then isUnsigned rest else isUnsigned (first :: rest)

-- The bytes with which a plain number would go on.
def goesOn (byte : UInt8) : Bool := isDigit byte || byte ∈ ofChars ['.', 'e', 'E', 'x', 'X']

theorem runLength_append (kind : UInt8 → Bool) (text after : CStr) (all : text.all kind = true)
    (stops : ∀ byte, after.head? = some byte → kind byte = false) : runLength kind (text ++ after) = text.length := by
  unfold runLength
  rw [List.takeWhile_append_of_pos (by simpa using all)]
  cases after with
  | nil => simp
  | cons byte rest =>
    have other := stops byte rfl
    simp [other]

/-- The shape of a plain number without sign. -/
theorem isUnsigned_cases (text : CStr) (plain : isUnsigned text = true) :
    ∃ first whole fraction, text = first :: whole ++ fraction ∧ (first :: whole).all isDigit = true ∧
      (fraction = [] ∨ ∃ digits, fraction = ascii '.' :: digits ∧ digits.all isDigit = true) := by
  simp only [isUnsigned, Bool.and_eq_true, decide_eq_true_eq] at plain
  obtain ⟨some_, tail⟩ := plain
  have parts : text.takeWhile isDigit ++ text.dropWhile isDigit = text := List.takeWhile_append_dropWhile
  have rest : (text.takeWhile isDigit ++ text.dropWhile isDigit).drop (leading text) = text.dropWhile isDigit :=
    List.drop_left' rfl
  rw [parts] at rest
  rw [rest] at tail
  rcases digits : text.takeWhile isDigit with _ | ⟨first, whole⟩
  · simp [leading, digits] at some_
  refine ⟨first, whole, text.dropWhile isDigit, by rw [← digits, parts], ?_, ?_⟩
  · rw [← digits, List.all_eq_true]
    exact fun byte member => List.mem_takeWhile_imp member
  · rcases fraction : text.dropWhile isDigit with _ | ⟨mark, more⟩
    · exact .inl rfl
    · rw [fraction] at tail
      simp only [Bool.and_eq_true, decide_eq_true_eq] at tail
      exact .inr ⟨more, by rw [tail.1], tail.2⟩

theorem isUnsigned_bytes (text : CStr) (plain : isUnsigned text = true) (byte : UInt8) (member : byte ∈ text) :
    isDigit byte = true ∨ byte = ascii '.' := by
  obtain ⟨first, whole, fraction, rfl, all, form⟩ := isUnsigned_cases text plain
  rcases List.mem_append.mp member with front | back
  · exact .inl (List.all_eq_true.mp all byte front)
  · rcases form with rfl | ⟨digits, rfl, all'⟩
    · cases back
    · rcases List.mem_cons.mp back with rfl | later
      · exact .inr rfl
      · exact .inl (List.all_eq_true.mp all' byte later)

theorem isPlain_bytes (text : CStr) (plain : isPlain text = true) (byte : UInt8) (member : byte ∈ text) :
    isDigit byte = true ∨ isSign byte = true ∨ byte = ascii '.' := by
  cases text with
  | nil => cases member
  | cons first rest =>
    rw [isPlain] at plain
    by_cases sign : isSign first = true
    · rw [if_pos sign] at plain
      rcases List.mem_cons.mp member with rfl | later
      · exact .inr (.inl sign)
      · exact (isUnsigned_bytes rest plain byte later).imp_right .inr
    · rw [if_neg sign] at plain
      exact (isUnsigned_bytes _ plain byte member).imp_right .inr

theorem runLength_drop (kind : UInt8 → Bool) (text after : CStr) (all : text.all kind = true)
    (stops : ∀ byte, after.head? = some byte → kind byte = false) :
    (text ++ after).drop (runLength kind (text ++ after)) = after := by
  rw [runLength_append kind text after all stops, List.drop_left]

-- What ends a plain number: no byte with which it would go on.
def Ends (after : CStr) : Prop := ∀ byte, after.head? = some byte → goesOn byte = false

theorem Ends.digit {after : CStr} (ends : Ends after) (byte : UInt8) (next : after.head? = some byte) :
    isDigit byte = false := by
  have other := ends byte next
  simp only [goesOn, Bool.or_eq_false_iff] at other
  exact other.1

theorem Ends.mark {after : CStr} (ends : Ends after) (byte : UInt8) (next : after.head? = some byte) :
    byte ≠ ascii '.' ∧ byte ≠ ascii 'e' ∧ byte ≠ ascii 'E' ∧ byte ≠ ascii 'x' ∧ byte ≠ ascii 'X' := by
  have other := ends byte next
  simp only [goesOn, Bool.or_eq_false_iff, decide_eq_false_iff_not] at other
  simpa [ofChars] using other.2

theorem mantissa_plain (text after : CStr) (plain : isUnsigned text = true) (ends : Ends after) :
    mantissa isDigit (text ++ after) = text.length := by
  obtain ⟨first, whole, fraction, rfl, all, form⟩ := isUnsigned_cases text plain
  rw [List.append_assoc, mantissa]
  rcases form with rfl | ⟨digits, rfl, all'⟩
  · rw [List.nil_append, List.append_nil, runLength_drop isDigit _ _ all ends.digit,
      runLength_append isDigit _ _ all ends.digit]
    cases after with
    | nil => rfl
    | cons byte rest => exact if_neg fun both => (ends.mark byte rfl).1 both.1
  · have stops : ∀ byte, (ascii '.' :: digits ++ after).head? = some byte → isDigit byte = false := by
      intro byte next
      obtain rfl := Option.some.inj next
      decide
    rw [runLength_drop isDigit _ _ all stops, runLength_append isDigit _ _ all stops]
    simp only [List.cons_append, runLength_append isDigit digits after all' ends.digit, List.length_cons,
      List.length_append]
    rw [if_pos ⟨trivial, by omega⟩]
    omega

-- A digit is not the start of a word, and no hexadecimal number is plain.
theorem startsWith_digit (first : UInt8) (rest : CStr) (letter : Char) (word : List Char)
    (digit : isDigit first = true) (other : isDigit (ascii letter) = false) :
    startsWith (letter :: word) (first :: rest) = false := by
  have same : lower first = first := by
    have range := (isDigit_iff first).mp digit
    rw [lower, if_neg]
    simp only [ascii, Bool.and_eq_true, decide_eq_true_eq, UInt8.le_iff_toNat_le]
    intro both
    have low : 65 ≤ first.toNat := both.1
    omega
  have apart : first ≠ ascii letter := by
    rintro rfl
    rw [digit] at other
    cases other
  simp [startsWith, ofChars, same, apart]

theorem lower_x (byte : UInt8) (same : lower byte = ascii 'x') : byte = ascii 'x' ∨ byte = ascii 'X' := by
  unfold lower at same
  split at same
  · right
    have back : byte = ascii 'x' - 32 := by rw [← same, UInt8.add_sub_cancel]
    exact back
  · exact .inl same

theorem startsWith_hex (first : UInt8) (rest : CStr)
    (other : ∀ byte, rest.head? = some byte → byte ≠ ascii 'x' ∧ byte ≠ ascii 'X') :
    startsWith ['0', 'x'] (first :: rest) = false := by
  cases rest with
  | nil => simp [startsWith, ofChars]
  | cons second rest =>
    obtain ⟨small, large⟩ := other second rfl
    have apart : lower second ≠ ascii 'x' := fun same => (lower_x second same).elim small large
    simp [startsWith, ofChars, apart]

theorem number_plain (text after : CStr) (plain : isUnsigned text = true) (ends : Ends after) :
    number (text ++ after) = text.length := by
  have size := mantissa_plain text after plain ends
  obtain ⟨first, whole, fraction, same, all, form⟩ := isUnsigned_cases text plain
  have digit : isDigit first = true := by simp_all
  have begins : text ++ after = first :: (whole ++ fraction ++ after) := by simp [same]
  have hexadecimal : startsWith ['0', 'x'] (text ++ after) = false := by
    rw [begins]
    apply startsWith_hex
    intro byte next
    -- what comes after the first digit: a digit, the point or the end
    cases whole with
    | cons second whole =>
      obtain rfl := Option.some.inj next
      have digit : isDigit second = true := by simp_all
      constructor <;> rintro rfl <;> cases digit
    | nil =>
      rcases form with rfl | ⟨digits, rfl, _⟩
      · exact (ends.mark byte next).2.2.2
      · obtain rfl := Option.some.inj next
        decide
  have positive : text.length ≠ 0 := by simp [same]
  have stop : exponent [ascii 'e', ascii 'E'] after = 0 := by
    cases after with
    | nil => rfl
    | cons byte rest =>
      obtain ⟨_, small, large, _⟩ := ends.mark byte rfl
      simp [exponent, small, large]
  rw [number, hexadecimal, begins, startsWith_digit _ _ _ _ digit (by decide),
    startsWith_digit _ _ _ _ digit (by decide), startsWith_digit _ _ _ _ digit (by decide), ← begins, size,
    List.drop_left, stop]
  simp [positive]

/-- `strtod` converts the whole of a plain number and nothing of what follows. -/
theorem subject_plain (text after : CStr) (plain : isPlain text = true) (ends : Ends after) :
    subject (text ++ after) = text := by
  cases text with
  | nil => cases plain
  | cons first rest =>
    rw [isPlain] at plain
    have visible : isSpace first = false := by
      by_cases sign : isSign first = true
      · simp only [isSign, Bool.or_eq_true, decide_eq_true_eq] at sign
        rcases sign with rfl | rfl <;> decide
      · rw [if_neg sign] at plain
        obtain ⟨first', _, _, same, all, _⟩ := isUnsigned_cases _ plain
        obtain rfl : first = first' := (List.cons.inj same).1
        exact (isDigit_proper first (by simp_all)).1
    rw [List.cons_append, subject, List.dropWhile_cons_of_neg (by rw [visible]; decide)]
    by_cases sign : isSign first = true
    · rw [if_pos sign] at plain
      obtain ⟨_, _, _, same, _⟩ := isUnsigned_cases rest plain
      have positive : rest.length ≠ 0 := by simp [same]
      simp [sign, number_plain rest after plain ends, positive]
    · rw [if_neg sign] at plain
      have size := number_plain (first :: rest) after plain ends
      rw [List.cons_append] at size
      simp [sign, size]

end SPHomework.Lib
