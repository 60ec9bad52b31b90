import SPHomework.MovieSort.Sort

set_option autoImplicit false

/-!
# Requests and the movies that match

Both servers filter the movie table with the same loop and write the titles of
the sorted array, one a line. What they should write does not depend on how
they sort.
-/

namespace SPHomework.MovieSort

open Lib

/-- A row of the table. `initialize` reads lines of at most 254 bytes with 19 numbers after the
title, so every title fits its buffer together with the secret. -/
structure MovieProfile (P : Type) where
  title : CStr
  profile : P
  fits : title.length + secret.length < maxLen

structure Request (P : Type) where
  id : Int
  keywords : CStr
  profile : P

structure Output where
  fileName : CStr
  lines : List CStr

-- `sprintf(file_name, "%d..out", id)`
def outputName (id : Int) (suffix : List Char) : CStr := ofChars ((toString id).toList ++ suffix)

def allMovie : CStr := ofChars ['*']

def wanted (keywords title : CStr) : Bool :=
  strcmp keywords allMovie = .eq || (strstr title keywords).isSome

variable {P S : Type}

/-- One round of the filter loop, with `filtered_movie_num`. `copy` is the string that the new
buffer holds, given its index. -/
def filterStep (copy : Nat → CStr → CStr) (dot : P → P → S) (request : Request P)
    (filtered : Nat × Arrays S) (movie : MovieProfile P) : Nat × Arrays S :=
  if wanted request.keywords movie.title then
    (filtered.1 + 1, {
      movies := Function.update filtered.2.movies filtered.1 (copy filtered.1 movie.title)
      scores := Function.update filtered.2.scores filtered.1 (dot movie.profile request.profile) })
  else filtered

-- The arrays start with whatever their memory holds.
def filterMovies (copy : Nat → CStr → CStr) (dot : P → P → S) (request : Request P)
    (table : List (MovieProfile P)) (memory : Arrays S) : Nat × Arrays S :=
  table.foldl (filterStep copy dot request) (0, memory)

def startLayer (filteredMovieNum : Nat) : Nat :=
  if filteredMovieNum < 10 then 3
  else if filteredMovieNum < 20 then 2
  else if filteredMovieNum < 40 then 1
  else 0

def printed (arrays : Arrays S) (filteredMovieNum : Nat) : List CStr :=
  (List.range filteredMovieNum).map arrays.movies

def matching (dot : P → P → S) (request : Request P) (table : List (MovieProfile P)) :
    List (Entry S) :=
  (table.filter fun movie => wanted request.keywords movie.title).map fun movie =>
    ⟨dot movie.profile request.profile, movie.title⟩

structure Filtered (taken : List (Entry S)) (filtered : Nat × Arrays S) : Prop where
  count : filtered.1 = taken.length
  cells : (List.range filtered.1).map filtered.2.cell = taken

theorem filterStep_cells (copy : Nat → CStr → CStr) (dot : P → P → S) (request : Request P)
    {taken : List (Entry S)} {filtered : Nat × Arrays S} (movie : MovieProfile P)
    (before : Filtered taken filtered) :
    Filtered (taken ++ (matching dot request [movie]).map fun entry =>
      { entry with title := copy taken.length entry.title }) (filterStep copy dot request filtered movie) := by
  by_cases chosen : wanted request.keywords movie.title
  · simp only [filterStep, chosen, if_true]
    constructor
    · simp [matching, chosen, before.count]
    · have earlier : (List.range filtered.1).map (Arrays.cell ⟨Function.update filtered.2.movies filtered.1
          (copy filtered.1 movie.title), Function.update filtered.2.scores filtered.1
          (dot movie.profile request.profile)⟩) = taken := by
        rw [← before.cells]
        apply List.map_congr_left
        intro i member
        have below := List.mem_range.mp member
        simp [Arrays.cell, Nat.ne_of_lt below]
      rw [List.range_succ, List.map_append, earlier]
      simp [matching, chosen, Arrays.cell, before.count]
  · simpa [filterStep, matching, chosen] using before

-- What the entries of the arrays are, whatever the copy makes of the titles.
theorem filterMovies_cells (copy : Nat → CStr → CStr) (dot : P → P → S) (request : Request P)
    (table : List (MovieProfile P)) (memory : Arrays S) :
    Filtered ((matching dot request table).mapIdx fun j entry => { entry with title := copy j entry.title })
      (filterMovies copy dot request table memory) := by
  -- from the end, since the loop appends
  induction table using List.reverseRecOn with
  | nil => exact ⟨rfl, rfl⟩
  | append_singleton table movie ih =>
    have step := filterStep_cells copy dot request movie ih
    have split : (matching dot request (table ++ [movie]) : List (Entry S)) =
        matching dot request table ++ matching dot request [movie] := by
      simp [matching]
    have last : ((matching dot request [movie] : List (Entry S)).mapIdx fun j entry =>
        { entry with title := copy (j + (matching dot request table : List (Entry S)).length) entry.title }) =
        (matching dot request [movie]).map fun entry =>
          { entry with title := copy (matching dot request table : List (Entry S)).length entry.title } := by
      by_cases chosen : wanted request.keywords movie.title <;> simp [matching, chosen]
    rw [split, List.mapIdx_append, last]
    simpa [filterMovies] using step

theorem filterMovies_count (copy : Nat → CStr → CStr) (dot : P → P → S) (request : Request P)
    (table : List (MovieProfile P)) (memory : Arrays S) :
    (filterMovies copy dot request table memory).1 = (matching dot request table : List (Entry S)).length := by
  rw [(filterMovies_cells copy dot request table memory).count, List.length_mapIdx]

theorem filterMovies_correct (copy : Nat → CStr → CStr) (dot : P → P → S) (request : Request P)
    (table : List (MovieProfile P)) (memory : Arrays S)
    (copies : ∀ j, ∀ movie ∈ table, copy j movie.title = movie.title) :
    Filtered (matching dot request table) (filterMovies copy dot request table memory) := by
  have same : ((matching dot request table : List (Entry S)).mapIdx fun j entry =>
      { entry with title := copy j entry.title }) = matching dot request table := by
    apply List.ext_getElem (List.length_mapIdx ..)
    intro j bound bound'
    obtain ⟨movie, chosen, entry⟩ := List.mem_map.mp (List.getElem_mem bound')
    rw [List.getElem_mapIdx, ← entry, copies j movie (List.mem_filter.mp chosen).1]
  exact same ▸ filterMovies_cells copy dot request table memory

variable [Score S]

/-- What a server should write: the titles of the entries in order, each with the secret. -/
def Answer (entries : List (Entry S)) (lines : List CStr) : Prop :=
  ∃ order : List (Entry S), order.Perm entries ∧ order.Pairwise Before ∧
    lines = order.map fun entry => entry.title ++ secret

theorem Answer.unique {entries : List (Entry S)} {lines lines' : List CStr}
    (one : Answer entries lines) (other : Answer entries lines') : lines = lines' := by
  obtain ⟨order, perm, sorted, rfl⟩ := one
  obtain ⟨order', perm', sorted', rfl⟩ := other
  have same : order = order' := (perm.trans perm'.symm).eq_of_pairwise
    (fun _ _ _ _ => Before.antisymm) sorted sorted'
  rw [same]

end SPHomework.MovieSort
