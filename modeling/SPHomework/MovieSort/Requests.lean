import SPHomework.Lib.Scanf
import SPHomework.MovieSort.Batch
import SPHomework.MovieSort.Dataset
import SPHomework.Threads.Trajectory

set_option autoImplicit false

/-!
# The requests

`read_request` reads a request from the standard input, and the end of
`initialize` as many as were announced. Requests that were written with blanks in
between are read back.
-/

namespace SPHomework.MovieSort

open Lib
open Threads (int32 strtolTen intMin intMax)

def ulongMax : Nat := 0xffffffffffffffff

-- A negative number is that much below 2 ^ 64.
def unsignedLong (sign : UInt8) (size : Nat) : Nat :=
  if ulongMax < size then ulongMax
  else if sign = ascii '-' then (2 ^ 64 - size) % 2 ^ 64
  else size

/-- `strtoul(text, NULL, 10)` -/
def strtoulTen (text : CStr) : Nat :=
  match text.dropWhile isSpace with
  | [] => 0
  | first :: rest =>
    if isSign first then unsignedLong first (magnitude 10 0 rest) else min ulongMax (magnitude 10 0 (first :: rest))

-- `"%u %254s %254s"`
def requestFormat : List Directive :=
  [.item .numeral, .space, .item (.word (some 254)), .space, .item (.word (some 254))]

variable {D : Type} [Double D]

/-- `read_request`. Nobody looks at what `scanf` returns, so without the three items the variables are
read before they have a value. -/
def readRequest (input : List UInt8) : Option (Request (List D) × List UInt8) :=
  match scanf requestFormat input with
  | ([id, buf1, buf2], rest) => do
    let refPts := strtok (cString buf2) [ascii ',']
    let read ← readGenres numOfGenre refPts.1 refPts.2 ([], Double.zero)
    return (⟨int32 (strtoulTen id), cString buf1, normalize read.1 (Double.sqrt read.2)⟩, rest)
  | _ => none

/-- The end of `initialize`. `num_of_reqs` is unsigned, and stays 0 without a number. -/
def readRequests (input : List UInt8) : Option (List (Request (List D)) × List UInt8) :=
  let read := scanf [.item .numeral] input
  let numOfReqs := (read.1.head?.elim 0 fun text => strtolTen text % 4294967296).toNat
  if numOfReqs ≤ maxReq then readMany readRequest numOfReqs read.2 else none

/-- What `main` has before it starts to sort. Its own `scanf("%u", num_of_reqs)` passes a number for a
pointer, so there must be no number to store. -/
def load (file input : List UInt8) : Option (Dataset D × List (Request (List D))) := do
  let initialized ← initializeDataset file (readRequests input)
  guard ((scanf [.item .numeral] initialized.2.2).1 = [])
  return (initialized.1, initialized.2.1)

/-- A request as it is written to the standard input. -/
structure Wish where
  before : Gap
  id : CStr
  afterId : Gap
  keywords : CStr
  afterKeywords : Gap
  points : List CStr
  decimal : IsDecimal id
  inRange : -2147483648 ≤ integerValue id ∧ integerValue id ≤ 2147483647
  word : IsWord keywords
  short : keywords.length ≤ 254
  string : 0 ∉ keywords
  count : points.length = numOfGenre
  plain : ∀ point ∈ points, isPlain point = true
  few : ([ascii ','].intercalate points).length ≤ 254

namespace Wish

def joined (wish : Wish) : CStr := [ascii ','].intercalate wish.points

def text (wish : Wish) : List UInt8 :=
  wish.before.blanks ++ (wish.id ++ (wish.afterId.blanks ++ (wish.keywords ++ (wish.afterKeywords.blanks ++ wish.joined))))

def request (wish : Wish) : Request (List D) :=
  ⟨integerValue wish.id, wish.keywords, normalized (wish.points.map strtod)⟩

end Wish

/-- The standard input: how many requests there are, the requests, and blanks. -/
structure Batch where
  start : List UInt8
  count : CStr
  wishes : List Wish
  stop : List UInt8
  decimal : IsDecimal count
  counted : integerValue count = wishes.length
  few : wishes.length ≤ maxReq
  blank : Blank start
  blank' : Blank stop

def Batch.text (batch : Batch) : List UInt8 :=
  batch.start ++ (batch.count ++ (batch.wishes.flatMap Wish.text ++ batch.stop))

theorem strtoulTen_decimal (word : CStr) (decimal : IsDecimal word)
    (inRange : -2147483648 ≤ integerValue word ∧ integerValue word ≤ 2147483647) :
    int32 (strtoulTen word) = integerValue word := by
  have begins := (decimal_word word decimal).2
  rcases word with _ | ⟨first, rest⟩
  · exact absurd rfl decimal.1
  have noSpace := begins first (List.mem_cons_self ..)
  have start : (first :: rest).dropWhile isSpace = first :: rest :=
    List.dropWhile_cons_of_neg (by simp [noSpace])
  by_cases minus : first = ascii '-'
  · subst minus
    have all : rest.all isDigit = true := by simpa [digitsOf] using decimal.2
    have same : integerValue (ascii '-' :: rest) = -(decimalValue rest : Int) := by
      simp [integerValue, digitsOf]
    have size : magnitude 10 0 rest = decimalValue rest := magnitude_ten 0 rest all
    rw [same] at inRange ⊢
    simp only [strtoulTen, start, if_pos (show isSign (ascii '-') = true by decide), size, unsignedLong]
    rw [if_neg (by unfold ulongMax; omega), if_pos trivial, int32, Int.bmod_def]
    split <;> omega
  · have all : (first :: rest).all isDigit = true := by simpa [digitsOf, minus] using decimal.2
    have digit : isDigit first = true := by simp_all
    have noSign : isSign first = false := by simp [isSign, minus, (isDigit_proper first digit).2.2]
    have same : integerValue (first :: rest) = (decimalValue (first :: rest) : Int) := by
      simp [integerValue, digitsOf, minus]
    have size : magnitude 10 0 (first :: rest) = decimalValue (first :: rest) := magnitude_ten 0 _ all
    rw [same] at inRange ⊢
    simp only [strtoulTen, start, noSign, size]
    rw [if_neg (by decide), min_eq_right (by unfold ulongMax; omega)]
    exact Threads.int32_eq inRange.1 inRange.2

namespace Wish

variable (wish : Wish)

theorem joined_byte (byte : UInt8) (member : byte ∈ wish.joined) : isSpace byte = false ∧ byte ≠ 0 := by
  rcases mem_joined _ byte wish.points member with rfl | ⟨point, inside, found⟩
  · decide
  · rcases isPlain_bytes point (wish.plain point inside) byte found with digit | sign | rfl
    · exact ⟨isDigit_space byte digit, (digit_byte byte digit).2.1⟩
    · simp only [isSign, Bool.or_eq_true, decide_eq_true_eq] at sign
      rcases sign with rfl | rfl <;> decide
    · decide

theorem joined_word : IsWord wish.joined := by
  refine ⟨?_, fun byte member => (wish.joined_byte byte member).1⟩
  have some_ : wish.points.length ≠ 0 := by
    rw [wish.count]
    decide
  unfold joined
  rcases points : wish.points with _ | ⟨point, rest⟩
  · simp [points] at some_
  have nonempty : point ≠ [] := by
    rintro rfl
    exact absurd (wish.plain [] (by simp [points])) (by decide)
  cases rest with
  | nil => simpa using nonempty
  | cons next rest => simp [List.intercalate_cons_cons]

theorem text_ahead (rest : List UInt8) : BlankAhead (wish.text ++ rest) := by
  rw [text, List.append_assoc]
  exact wish.before.ahead _

theorem scanned (after : List UInt8) (ahead : BlankAhead after) : scanf requestFormat (wish.text ++ after) =
    ([wish.id, wish.keywords, wish.joined], after) := by
  simp only [text, List.append_assoc, requestFormat]
  rw [scanf_numeral _ _ _ _ wish.before.blank wish.decimal (wish.afterId.ahead _), scanf_space_item _ _ (by decide),
    scanf_word _ _ _ _ _ wish.afterId.blank wish.word (by simpa using wish.short) (wish.afterKeywords.ahead _),
    scanf_space_item _ _ (by decide), scanf_word _ _ _ _ _ wish.afterKeywords.blank wish.joined_word
      (fun most width => Option.some.inj width ▸ wish.few) ahead]
  rfl

theorem read (after : List UInt8) (ahead : BlankAhead after) :
    readRequest (D := D) (wish.text ++ after) = some (wish.request, after) := by
  have keywords := cString_whole wish.keywords wish.string
  have points := cString_whole wish.joined fun member => (wish.joined_byte 0 member).2 rfl
  have genres := readGenres_text [] (fun byte next => by cases next) (by simp) wish.points wish.plain
    (([], Double.zero) : List D × D)
  rw [wish.count, List.append_nil] at genres
  simp only [readRequest, wish.scanned after ahead, keywords, points]
  simp only [joined, genres, Option.bind_eq_bind, Option.bind_some, List.nil_append, request, normalized,
    strtoulTen_decimal wish.id wish.decimal wish.inRange]
  rfl

end Wish

theorem scanf_blank (text : List UInt8) (blank : Blank text) : scanf [.item .numeral] text = ([], []) := by
  have none_ : skipSpace text = [] := List.dropWhile_eq_nil_iff.mpr blank
  simp [scanf, Conversion.take, none_, strtolEnd]

theorem readRequests_text (batch : Batch) : readRequests (D := D) batch.text =
    some (batch.wishes.map Wish.request, batch.stop) := by
  have next : BlankAhead (batch.wishes.flatMap Wish.text ++ batch.stop) := by
    cases batch.wishes with
    | nil => exact batch.blank'.ahead
    | cons wish wishes =>
      rw [List.flatMap_cons, List.append_assoc]
      exact wish.text_ahead _
  have few := batch.few
  have counted := batch.counted
  have size : maxReq = 255 := rfl
  have value := Threads.strtolTen_decimal batch.count batch.decimal (by omega)
  have read : (strtolTen batch.count % 4294967296).toNat = batch.wishes.length := by omega
  have scanned : scanf [.item .numeral] batch.text =
      ([batch.count], batch.wishes.flatMap Wish.text ++ batch.stop) :=
    scanf_numeral _ _ _ _ batch.blank batch.decimal next
  simp only [readRequests, scanned, List.head?_cons, Option.elim_some, read, if_pos few]
  exact readMany_written _ _ _ (fun wish after ahead => wish.read after ahead) Wish.text_ahead batch.wishes batch.stop
    batch.blank'.ahead

-- What every input leaves in an entry of `reqs`.
structure Request.Loaded (request : Request (List D)) : Prop where
  id : intMin ≤ request.id ∧ request.id ≤ intMax
  short : request.keywords.length ≤ 254
  word : ∀ byte ∈ request.keywords, isSpace byte = false ∧ byte ≠ 0
  size : request.profile.length = numOfGenre

theorem readRequest_loaded (input : List UInt8) (request : Request (List D)) (rest : List UInt8)
    (read : readRequest input = some (request, rest)) : request.Loaded := by
  obtain ⟨done, part, items⟩ := scanf_items requestFormat input
  unfold readRequest at read
  split at read
  · rename_i id buf1 buf2 after scanned
    rw [scanned] at items
    obtain rfl := part.eq_of_length items.length_eq
    obtain ⟨-, ⟨short, blank⟩, -⟩ : Conversion.numeral.Item id ∧ (Conversion.word (some 254)).Item buf1 ∧ _ := by
      simpa [requestFormat, conversions] using items
    simp only [Option.bind_eq_bind, Option.bind_eq_some_iff] at read
    obtain ⟨genres, parsed, done⟩ := read
    obtain ⟨rfl, rfl⟩ := Prod.mk.inj (Option.some.inj done)
    obtain ⟨-, size⟩ := readGenres_tokens 18 _ _ _ parsed
    have kept : cString buf1 <+: buf1 := List.takeWhile_prefix _
    have range := Threads.int32_range (strtoulTen id)
    have long : (cString buf1).length ≤ 254 := kept.length_le.trans (short 254 rfl)
    refine ⟨?_, long, fun byte member => ⟨blank byte (kept.subset member), ?_⟩, ?_⟩
    · dsimp only
      exact range
    · simpa using List.mem_takeWhile_imp member
    · simpa [normalize, numOfGenre] using size
  · cases read

/-- The dataset that is read from a file with these rows. -/
def loadedRows (rows : List Row) : Dataset D := rows.foldl (fun dataset row => dataset.push row.movie) .empty

theorem readMovies_file {R : Type} (header : CStr) (rows : List Row) (requests : Option R) (oneLine : 10 ∉ header)
    (short : header.length < maxLen - 1) (few : rows.length ≤ maxMovies) :
    initializeDataset (D := D) (movieFile header rows) requests = requests.map fun read => (loadedRows rows, read) := by
  have first := fgets_line maxLen header (rows.flatMap fun row => row.text ++ [10]) (by omega) oneLine
  have enough : rows.length ≤ (rows.flatMap fun row => row.text ++ [10]).length := by
    rw [List.length_flatMap]
    calc rows.length = (rows.map fun _ => 1).sum := by simp
      _ ≤ (rows.map fun row => (row.text ++ [10]).length).sum :=
        List.sum_le_sum fun row _ => by simp
  have read := readMovies_rows rows _ (Dataset.empty : Dataset D) (by simpa [Dataset.empty] using few) enough
  simp only [initializeDataset, movieFile, first, Option.bind_eq_bind, Option.bind_some, read, loadedRows]
  cases requests <;> rfl

end SPHomework.MovieSort
