import SPHomework.Lib.Floating
import SPHomework.Lib.Stream
import SPHomework.Lib.Text
import SPHomework.Threads.Reads
import SPHomework.MovieSort.Filter

set_option autoImplicit false

/-!
# The movie file

`initialize` cuts each line with one chain of `strtok` calls, for which the
delimiter changes twice. A line that was written from a movie gives it back.
-/

namespace SPHomework.MovieSort

open Lib
open Threads (atoi int32)

/-- The double arithmetic of the profiles. `ofText` is the conversion of the text that `strtod` takes. -/
class Double (D : Type) where
  zero : D
  add : D → D → D
  mul : D → D → D
  div : D → D → D
  sqrt : D → D
  isZero : D → Bool
  ofText : CStr → D

def maxMovies : Nat := 70000

def numOfGenre : Nat := 19

-- An entry of `movies`.
structure Movie (D : Type) where
  movieId : Int
  title : CStr
  profile : List D

-- The global variables that `initialize` fills in.
structure Dataset (D : Type) where
  movies : Nat → Option (Movie D)
  numOfMovies : Nat

def Dataset.empty {D : Type} : Dataset D := ⟨fun _ => none, 0⟩

def Dataset.push {D : Type} (dataset : Dataset D) (movie : Movie D) : Dataset D :=
  ⟨Function.update dataset.movies dataset.numOfMovies (some movie), dataset.numOfMovies + 1⟩

variable {D : Type} [Double D]

-- Without a number the value is zero.
def strtod (text : CStr) : D := if subject text = [] then Double.zero else Double.ofText (subject text)

/-- The loop over the genres: `token` is the next one, `saved` what `strtok` goes on with. A null
pointer is no text for `strtod`. -/
def readGenres : Nat → Option CStr → CStr → List D × D → Option (List D × D)
  | 0, _, _, result => some result
  | count + 1, token, saved, (profile, sum) => do
    let ret := strtod (← token)
    let next := strtok saved [ascii ',']
    readGenres count next.1 next.2 (profile ++ [ret], Double.add sum (Double.mul ret ret))

def normalize (profile : List D) (sum : D) : List D :=
  profile.map fun value => if Double.isZero sum then Double.zero else Double.div value sum

/-- The loop body of `initialize`. The title is the token without its last byte, and `movieId` is
unsigned until it is stored. -/
def readMovie (chunk : CStr) : Option (Movie D) := do
  let id := strtok chunk [ascii ' ']
  let movieId := (atoi (← id.1)).emod 4294967296
  let title := strtok id.2 [ascii '{']
  let token ← title.1
  let genre := strtok title.2 [ascii ',']
  let read ← readGenres numOfGenre genre.1 genre.2 ([], Double.zero)
  return ⟨int32 movieId, token.dropLast, normalize read.1 (Double.sqrt read.2)⟩

-- Each round takes a byte or more, so the length of the file is enough.
def readMovies : Nat → List UInt8 → Dataset D → Option (Dataset D)
  | 0, file, dataset => if file = [] then some dataset else none
  | fuel + 1, file, dataset =>
    match fgets maxLen file with
    | none => some dataset
    | some (line, rest) => do
      guard (dataset.numOfMovies < maxMovies)
      let movie ← readMovie (cString line)
      readMovies fuel rest (dataset.push movie)

/-- `initialize`: the header, the movies, and then the requests, which come from the standard input. -/
def initializeDataset {R : Type} (file : List UInt8) (requests : Option R) : Option (Dataset D × R) := do
  let header ← fgets maxLen file
  let dataset ← readMovies header.2.length header.2 .empty
  return (dataset, ← requests)

-- `<id> <title> {<g1>,...,<g19>}`
def movieLine (id title : CStr) (genres : List CStr) : CStr :=
  id ++ ascii ' ' :: (title ++ [ascii ' ', ascii '{'] ++ ([ascii ','].intercalate genres ++ [ascii '}']))

/-- A movie as it is written to the file. -/
structure Row where
  id : CStr
  title : CStr
  genres : List CStr
  decimal : IsDecimal id
  inRange : -2147483648 ≤ integerValue id ∧ integerValue id ≤ 2147483647
  proper : ∀ byte ∈ title, byte ≠ ascii '{' ∧ byte ≠ 10 ∧ byte ≠ 0
  count : genres.length = numOfGenre
  plain : ∀ genre ∈ genres, isPlain genre = true
  short : (movieLine id title genres).length < maxLen - 1

def Row.text (row : Row) : CStr := movieLine row.id row.title row.genres

def movieFile (header : CStr) (rows : List Row) : List UInt8 :=
  header ++ 10 :: rows.flatMap fun row => row.text ++ [10]

-- A profile with the values `raw` before it is normalized.
def normalized (raw : List D) : List D :=
  normalize raw (Double.sqrt (raw.foldl (fun sum ret => Double.add sum (Double.mul ret ret)) Double.zero))

def Row.movie (row : Row) : Movie D := ⟨integerValue row.id, row.title, normalized (row.genres.map strtod)⟩

theorem atoi_decimal (word : CStr) (decimal : IsDecimal word)
    (inRange : -2147483648 ≤ integerValue word ∧ integerValue word ≤ 2147483647) :
    atoi word = integerValue word := by
  rw [atoi, Threads.strtolTen_cString, Threads.strtolTen_decimal word decimal inRange]
  exact Threads.int32_eq inRange.1 inRange.2

theorem digit_byte (byte : UInt8) (digit : isDigit byte = true) :
    byte ≠ 10 ∧ byte ≠ 0 ∧ byte ≠ ascii ' ' ∧ byte ≠ ascii ',' := by
  refine ⟨?_, ?_, ?_, ?_⟩ <;> rintro rfl <;> exact absurd digit (by decide)

theorem decimal_byte (word : CStr) (decimal : IsDecimal word) (byte : UInt8) (member : byte ∈ word) :
    byte ≠ 10 ∧ byte ≠ 0 ∧ byte ≠ ascii ' ' := by
  have either : byte = ascii '-' ∨ isDigit byte = true := by
    cases word with
    | nil => cases member
    | cons first rest =>
      have all := List.all_eq_true.mp decimal.2
      by_cases minus : first = ascii '-'
      · rw [digitsOf, if_pos minus] at all
        rcases List.mem_cons.mp member with rfl | later
        · exact .inl minus
        · exact .inr (all byte later)
      · rw [digitsOf, if_neg minus] at all
        exact .inr (all byte member)
  rcases either with rfl | digit
  · decide
  · obtain ⟨line, nul, space, _⟩ := digit_byte byte digit
    exact ⟨line, nul, space⟩

theorem plain_byte (genre : CStr) (plain : isPlain genre = true) (byte : UInt8) (member : byte ∈ genre) :
    byte ≠ 10 ∧ byte ≠ 0 ∧ byte ≠ ascii ',' := by
  rcases isPlain_bytes genre plain byte member with digit | sign | rfl
  · obtain ⟨line, nul, _, comma⟩ := digit_byte byte digit
    exact ⟨line, nul, comma⟩
  · simp only [isSign, Bool.or_eq_true, decide_eq_true_eq] at sign
    rcases sign with rfl | rfl <;> decide
  · decide

theorem mem_joined (mark byte : UInt8) (words : List CStr) (member : byte ∈ [mark].intercalate words) :
    byte = mark ∨ ∃ word ∈ words, byte ∈ word := by
  induction words with
  | nil => simp at member
  | cons word rest ih =>
    cases rest with
    | nil => exact .inr ⟨word, List.mem_cons_self .., by simpa using member⟩
    | cons next rest =>
      rw [List.intercalate_cons_cons] at member
      simp only [List.mem_append, List.mem_singleton, or_assoc] at member
      rcases member with here | mark | later
      · exact .inr ⟨word, List.mem_cons_self .., here⟩
      · exact .inl mark
      · exact (ih later).imp_right fun ⟨word, inside, found⟩ => ⟨word, List.mem_cons_of_mem _ inside, found⟩

-- A line without its line feed is one string.
theorem Row.byte (row : Row) (byte : UInt8) (member : byte ∈ row.text) : byte ≠ 10 ∧ byte ≠ 0 := by
  simp only [Row.text, movieLine, List.mem_append, List.mem_cons, List.not_mem_nil, or_false] at member
  rcases member with inId | rfl | (inTitle | rfl | rfl) | joined | rfl
  · have other := decimal_byte row.id row.decimal byte inId
    exact ⟨other.1, other.2.1⟩
  · decide
  · exact (row.proper byte inTitle).2
  · decide
  · decide
  · rcases mem_joined _ byte row.genres joined with rfl | ⟨genre, inside, found⟩
    · decide
    · have other := plain_byte genre (row.plain genre inside) byte found
      exact ⟨other.1, other.2.1⟩
  · decide

theorem strtod_plain (genre closing : CStr) (plain : isPlain genre = true) (ends : Ends closing) :
    (strtod (genre ++ closing) : D) = strtod genre := by
  have alone : subject genre = genre := by
    have whole := subject_plain genre [] plain fun byte next => by cases next
    rwa [List.append_nil] at whole
  rw [strtod, strtod, subject_plain genre _ plain ends, alone]

/-- The numbers of a list, of which the last is followed by the end of its text. -/
theorem readGenres_text (closing : CStr) (ends : Ends closing) (within : ascii ',' ∉ closing) (genres : List CStr)
    (plain : ∀ genre ∈ genres, isPlain genre = true) (result : List D × D) :
    let tail := [ascii ','].intercalate genres ++ closing
    readGenres genres.length (strtok tail [ascii ',']).1 (strtok tail [ascii ',']).2 result =
      some (result.1 ++ genres.map strtod,
        (genres.map strtod).foldl (fun sum ret => Double.add sum (Double.mul ret ret)) result.2) := by
  induction genres generalizing result with
  | nil => simp [readGenres]
  | cons genre rest ih =>
    have here := plain genre (List.mem_cons_self ..)
    have inGenre : ∀ byte ∈ genre, byte ∉ [ascii ','] := by
      intro byte member
      simpa using (plain_byte genre here byte member).2.2
    have nonempty : genre ≠ [] := by
      rintro rfl
      cases here
    cases rest with
    | nil =>
      have last : strtok (genre ++ closing) [ascii ','] = (some (genre ++ closing), []) := by
        have whole := strtok_word [ascii ','] (genre ++ closing) [] (by simp [nonempty])
          (fun byte member => ?_) (by simp)
        · rwa [List.append_nil] at whole
        · rcases List.mem_append.mp member with front | back
          · exact inGenre byte front
          · rintro comma
            exact within (List.mem_singleton.mp comma ▸ back)
      simp [readGenres, last, strtod_plain genre closing here ends]
    | cons next rest =>
      have cut : strtok ([ascii ','].intercalate (genre :: next :: rest) ++ closing) [ascii ','] =
          (some genre, [ascii ','].intercalate (next :: rest) ++ closing) := by
        rw [List.intercalate_cons_cons, List.append_assoc, List.append_assoc]
        exact strtok_word [ascii ','] genre _ nonempty inGenre (by simp)
      have later := ih (fun genre member => plain genre (List.mem_cons_of_mem _ member))
        (result.1 ++ [strtod genre], Double.add result.2 (Double.mul (strtod genre) (strtod genre)))
      simp only [List.length_cons] at later ⊢
      rw [cut, readGenres]
      simpa using later

/-- The last genre is followed by the closing brace and the line feed, at which `strtod` stops. -/
theorem closing_ends : Ends [ascii '}', 10] := by
  intro byte next
  obtain rfl := Option.some.inj next
  decide

theorem readGenres_joined (genres : List CStr) (plain : ∀ genre ∈ genres, isPlain genre = true)
    (result : List D × D) :
    let tail := [ascii ','].intercalate genres ++ [ascii '}', 10]
    readGenres genres.length (strtok tail [ascii ',']).1 (strtok tail [ascii ',']).2 result =
      some (result.1 ++ genres.map strtod,
        (genres.map strtod).foldl (fun sum ret => Double.add sum (Double.mul ret ret)) result.2) :=
  readGenres_text _ closing_ends (by decide) genres plain result

/-- One round of the loop gives the movie of the line. -/
theorem readMovie_text (row : Row) : (readMovie (row.text ++ [10]) : Option (Movie D)) = some row.movie := by
  have nonempty : row.id ≠ [] := fun empty => row.decimal.1 (by rw [empty]; rfl)
  have id : strtok (row.text ++ [10]) [ascii ' '] = (some row.id,
      row.title ++ [ascii ' '] ++ ascii '{' :: ([ascii ','].intercalate row.genres ++ [ascii '}', 10])) := by
    have cut := strtok_word [ascii ' '] row.id (ascii ' ' :: (row.title ++ [ascii ' '] ++
      ascii '{' :: ([ascii ','].intercalate row.genres ++ [ascii '}', 10]))) nonempty
      (fun byte member => by simpa using (decimal_byte row.id row.decimal byte member).2.2) (by simp)
    simpa [Row.text, movieLine] using cut
  have title := strtok_word [ascii '{'] (row.title ++ [ascii ' '])
    (ascii '{' :: ([ascii ','].intercalate row.genres ++ [ascii '}', 10])) (by simp) (fun byte member => ?_)
    (by simp)
  · have genres := readGenres_joined row.genres row.plain (([], Double.zero) : List D × D)
    rw [row.count] at genres
    have value : int32 ((integerValue row.id).emod 4294967296) = integerValue row.id :=
      (Int.emod_bmod _ _).trans (Threads.int32_eq row.inRange.1 row.inRange.2)
    simp only [readMovie, id, title, List.drop_one, List.tail_cons]
    simp [genres, atoi_decimal row.id row.decimal row.inRange, value, Row.movie, normalized]
  · rcases List.mem_append.mp member with front | back
    · simpa using (row.proper byte front).1
    · rw [List.mem_singleton.mp back]
      decide

theorem readMovies_rows (rows : List Row) (fuel : Nat) (dataset : Dataset D)
    (room : dataset.numOfMovies + rows.length ≤ maxMovies) (enough : rows.length ≤ fuel) :
    readMovies fuel (rows.flatMap fun row => row.text ++ [10]) dataset =
      some (rows.foldl (fun dataset row => dataset.push row.movie) dataset) := by
  induction rows generalizing fuel dataset with
  | nil => cases fuel <;> rfl
  | cons row rows ih =>
    obtain ⟨fuel, rfl⟩ : ∃ less, fuel = less + 1 := ⟨fuel - 1, by simp at enough; omega⟩
    simp only [List.length_cons] at room enough
    have line := fgets_line maxLen row.text (rows.flatMap fun row => row.text ++ [10])
      (by have := row.short; unfold Row.text; omega) fun member => (row.byte 10 member).1 rfl
    have string : cString (row.text ++ [10]) = row.text ++ [10] := by
      rw [cString, List.takeWhile_eq_self_iff]
      intro byte member
      rcases List.mem_append.mp member with front | back
      · simpa using (row.byte byte front).2
      · rw [List.mem_singleton.mp back]
        decide
    have later := ih fuel (dataset.push row.movie) (by simp only [Dataset.push]; omega) (by omega)
    have below : dataset.numOfMovies < maxMovies := by omega
    simp only [List.flatMap_cons, List.append_assoc, List.singleton_append, readMovies, line, string]
    simpa [below, readMovie_text] using later

theorem push_rows (rows : List Row) (dataset : Dataset D) :
    let result := rows.foldl (fun dataset row => dataset.push row.movie) dataset
    result.numOfMovies = dataset.numOfMovies + rows.length ∧
      (∀ i < dataset.numOfMovies, result.movies i = dataset.movies i) ∧
      ∀ i (inside : i < rows.length), result.movies (dataset.numOfMovies + i) = some rows[i].movie := by
  induction rows generalizing dataset with
  | nil => simp
  | cons row rows ih =>
    obtain ⟨count, before, cells⟩ := ih (dataset.push row.movie)
    have next : (dataset.push row.movie).numOfMovies = dataset.numOfMovies + 1 := rfl
    rw [next] at count before cells
    simp only [List.foldl_cons, List.length_cons]
    refine ⟨by omega, fun i below => ?_, fun i inside => ?_⟩
    · rw [before i (by omega)]
      exact Function.update_of_ne (Nat.ne_of_lt below) ..
    · cases i with
      | zero =>
        rw [Nat.add_zero, before _ (by omega)]
        exact Function.update_self ..
      | succ i =>
        have cell := cells i (by omega)
        rwa [Nat.add_right_comm, Nat.add_assoc] at cell

/-- The movie file is read back: every id, every title and the values of every profile. -/
theorem initialize_rows {R : Type} (header : CStr) (rows : List Row) (requests : R)
    (oneLine : 10 ∉ header) (short : header.length < maxLen - 1) (few : rows.length ≤ maxMovies) :
    ∃ dataset : Dataset D, initializeDataset (movieFile header rows) (some requests) = some (dataset, requests) ∧
      dataset.numOfMovies = rows.length ∧
      ∀ i (inside : i < rows.length), dataset.movies i =
        some ⟨integerValue rows[i].id, rows[i].title, normalized (rows[i].genres.map strtod)⟩ := by
  have first := fgets_line maxLen header (rows.flatMap fun row => row.text ++ [10]) (by omega) oneLine
  have enough : rows.length ≤ (rows.flatMap fun row => row.text ++ [10]).length := by
    rw [List.length_flatMap]
    calc rows.length = (rows.map fun _ => 1).sum := by simp
      _ ≤ (rows.map fun row => (row.text ++ [10]).length).sum :=
        List.sum_le_sum fun row _ => by simp
  have read := readMovies_rows rows _ (Dataset.empty : Dataset D) (by simpa [Dataset.empty] using few) enough
  obtain ⟨count, _, cells⟩ := push_rows rows (Dataset.empty : Dataset D)
  refine ⟨rows.foldl (fun dataset row => dataset.push row.movie) .empty, ?_, ?_, ?_⟩
  · simp only [initializeDataset, movieFile, first, Option.bind_eq_bind, Option.bind_some, read]
    rfl
  · simpa [Dataset.empty] using count
  · intro i inside
    simpa [Dataset.empty, Row.movie] using cells i inside

-- Doubles that are whole numbers.
instance : Double Int where
  zero := 0
  add := (· + ·)
  mul := (· * ·)
  div := Int.tdiv
  sqrt := Int.sqrt
  isZero value := value = 0
  ofText text := integerValue (text.filter isDigit)

-- The title starts and ends with a space.
def sampleRow : Row where
  id := ofChars ['-', '7']
  title := ofChars [' ', 'U', 'p', ',', ' ', '2', ' ']
  genres := ofChars ['+', '1'] :: List.replicate 18 (ofChars ['0'])
  decimal := by decide
  inRange := by decide
  proper := by simp [ofChars, ascii]
  count := by decide
  plain := by decide
  short := by decide

def otherRow : Row where
  id := ofChars ['1', '2']
  title := ofChars ['H', 'e', 'a', 't']
  genres := [ofChars ['0'], ofChars ['0', '1']] ++ List.replicate 17 (ofChars ['0'])
  decimal := by decide
  inRange := by decide
  proper := by simp [ofChars, ascii]
  count := by decide
  plain := by decide
  short := by decide

theorem initialize_rows_sample :
    ∃ dataset : Dataset Int,
      initializeDataset (movieFile (ofChars ['i', 'd']) [sampleRow, otherRow]) (some ()) = some (dataset, ()) ∧
      dataset.numOfMovies = 2 ∧
      dataset.movies 0 = some ⟨-7, ofChars [' ', 'U', 'p', ',', ' ', '2', ' '], 1 :: List.replicate 18 0⟩ ∧
      dataset.movies 1 = some ⟨12, ofChars ['H', 'e', 'a', 't'], 0 :: 1 :: List.replicate 17 0⟩ := by
  obtain ⟨dataset, ran, count, cells⟩ :=
    initialize_rows (D := Int) (ofChars ['i', 'd']) [sampleRow, otherRow] () (by decide) (by decide) (by decide)
  have first : normalized (sampleRow.genres.map strtod) = 1 :: List.replicate 18 (0 : Int) := by decide +kernel
  have second : normalized (otherRow.genres.map strtod) = 0 :: 1 :: List.replicate 17 (0 : Int) := by
    decide +kernel
  refine ⟨dataset, ran, count, ?_, ?_⟩
  · rw [cells 0 (by decide)]
    exact congrArg (fun raw : List Int => some (Movie.mk (-7) sampleRow.title raw)) first
  · rw [cells 1 (by decide)]
    exact congrArg (fun raw : List Int => some (Movie.mk 12 otherRow.title raw)) second

theorem readGenres_tokens (count : Nat) (saved : CStr) (result after : List D × D)
    (read : readGenres (count + 1) (strtok saved [ascii ',']).1 (strtok saved [ascii ',']).2 result = some after) :
    2 * count + 1 ≤ saved.length ∧ after.1.length = result.1.length + (count + 1) := by
  induction count generalizing saved result with
  | zero =>
    obtain ⟨token, found, read⟩ := Option.bind_eq_some_iff.mp read
    obtain rfl := Option.some.inj read
    have length := strtok_length _ saved token found
    refine ⟨by omega, by simp⟩
  | succ count ih =>
    obtain ⟨token, found, read⟩ := Option.bind_eq_some_iff.mp read
    have length := strtok_length _ saved token found
    obtain ⟨later, size⟩ := ih _ _ read
    simp only [List.length_append, List.length_singleton] at size
    omega

/-- Whatever the line is, 19 numbers come after the title, so the title is well below `MAX_LEN`. -/
theorem readMovie_fits (chunk : CStr) (movie : Movie D) (read : readMovie chunk = some movie) :
    movie.title.length + 41 ≤ chunk.length ∧ movie.profile.length = numOfGenre := by
  simp only [readMovie, Option.bind_eq_bind, Option.bind_eq_some_iff] at read
  obtain ⟨id, foundId, token, foundTitle, genres, read, done⟩ := read
  obtain rfl := Option.some.inj done
  have first := strtok_length _ chunk id foundId
  have second := strtok_length _ _ token foundTitle
  obtain ⟨third, size⟩ := readGenres_tokens 18 _ _ _ read
  simp only [List.length_dropLast, normalize, List.length_map, List.length_nil] at size ⊢
  exact ⟨by omega, size.trans (Nat.zero_add _)⟩

/-- What every file leaves in the global variables. -/
structure Dataset.Loaded (dataset : Dataset D) : Prop where
  few : dataset.numOfMovies ≤ maxMovies
  movies : ∀ i < dataset.numOfMovies, ∃ movie, dataset.movies i = some movie ∧ Fits movie.title ∧
    movie.profile.length = numOfGenre

omit [Double D] in
theorem Dataset.Loaded.push {dataset : Dataset D} (loaded : dataset.Loaded) (movie : Movie D)
    (room : dataset.numOfMovies < maxMovies) (fits : Fits movie.title) (size : movie.profile.length = numOfGenre) :
    (dataset.push movie).Loaded := by
  refine ⟨room, fun i below => ?_⟩
  by_cases last : i = dataset.numOfMovies
  · exact ⟨movie, by simp [Dataset.push, last], fits, size⟩
  · obtain ⟨other, cell, facts⟩ := loaded.movies i (by simp only [Dataset.push] at below; omega)
    exact ⟨other, by simp [Dataset.push, last, cell], facts⟩

theorem readMovies_loaded (fuel : Nat) (file : List UInt8) (dataset after : Dataset D) (loaded : dataset.Loaded)
    (read : readMovies fuel file dataset = some after) : after.Loaded := by
  induction fuel generalizing file dataset with
  | zero =>
    simp only [readMovies] at read
    split_ifs at read
    exact Option.some.inj read ▸ loaded
  | succ fuel ih =>
    rw [readMovies] at read
    cases next : fgets maxLen file with
    | none =>
      rw [next] at read
      exact Option.some.inj read ▸ loaded
    | some pair =>
      obtain ⟨line, rest⟩ := pair
      simp only [next, Option.bind_eq_bind, Option.bind_eq_some_iff, Option.guard_eq_some'] at read
      obtain ⟨_, room, movie, parsed, read⟩ := read
      obtain ⟨_, _, short⟩ := fgets_cases maxLen file line rest (by decide) next
      obtain ⟨long, size⟩ := readMovie_fits _ movie parsed
      have part : (cString line).length ≤ line.length := (List.takeWhile_prefix _).length_le
      have suffixed : secret.length = 19 := by decide
      have fits : Fits movie.title := by
        unfold Fits
        omega
      exact ih rest _ (loaded.push movie room fits size) read

/-- The table that `initialize` leaves is well formed, whatever the file holds. -/
theorem initialize_loaded {R : Type} (file : List UInt8) (requests : Option R) (dataset : Dataset D) (read : R)
    (ran : initializeDataset file requests = some (dataset, read)) : dataset.Loaded := by
  simp only [initializeDataset, Option.bind_eq_bind, Option.bind_eq_some_iff] at ran
  obtain ⟨header, _, dataset', movies, _, _, done⟩ := ran
  obtain ⟨rfl, _⟩ := Prod.mk.inj (Option.some.inj done)
  exact readMovies_loaded _ _ _ _ ⟨Nat.zero_le _, fun i below => absurd below (Nat.not_lt_zero i)⟩ movies

-- The row of the table that the servers filter.
def Movie.row (movie : Movie D) : Option (MovieProfile (List D)) :=
  if fits : Fits movie.title then some ⟨movie.title, movie.profile, fits⟩ else none

def Dataset.table (dataset : Dataset D) : List (MovieProfile (List D)) :=
  (List.range dataset.numOfMovies).filterMap fun i => (dataset.movies i).bind Movie.row

omit [Double D] in
/-- No movie is missing from the table. -/
theorem Dataset.Loaded.table {dataset : Dataset D} (loaded : dataset.Loaded) :
    dataset.table.map some = (List.range dataset.numOfMovies).map fun i => (dataset.movies i).bind Movie.row := by
  have rows : ∀ indices : List Nat, (∀ i ∈ indices, i < dataset.numOfMovies) →
      (indices.filterMap fun i => (dataset.movies i).bind Movie.row).map some =
        indices.map fun i => (dataset.movies i).bind Movie.row := by
    intro indices inside
    induction indices with
    | nil => rfl
    | cons i rest ih =>
      obtain ⟨movie, cell, fits, _⟩ := loaded.movies i (inside i (List.mem_cons_self ..))
      have row : (dataset.movies i).bind Movie.row = some ⟨movie.title, movie.profile, fits⟩ := by
        rw [cell, Option.bind_some, Movie.row, dif_pos fits]
      have later := ih fun j member => inside j (List.mem_cons_of_mem _ member)
      simp only [List.filterMap_cons, row, List.map_cons, later]
  exact rows _ fun i member => List.mem_range.mp member

end SPHomework.MovieSort
