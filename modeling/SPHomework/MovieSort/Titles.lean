import SPHomework.MovieSort.Footprints

set_option autoImplicit false

/-!
# The titles of the thread server

The filter loop of `deal_request` copies a title without its NUL. What the
copy reads as depends on the byte that the new memory holds after it.
-/

namespace SPHomework.MovieSort

open Lib

variable {P S : Type}

theorem copyTitle_iff (memory : Nat → List UInt8) (index : Nat) (title : CStr) (string : 0 ∉ title) :
    copyTitle memory index title = title ↔ ∀ byte, (memory index).head? = some byte → byte = 0 :=
  cString_self_iff title (memory index) fun _ member same => string (same ▸ member)

-- The byte after the copy of each match.
def Terminated (memory : Nat → List UInt8) (count : Nat) : Prop :=
  ∀ j < count, ∀ byte, (memory j).head? = some byte → byte = 0

theorem filtered_iff (memory : Nat → List UInt8) (dot : P → P → S) (request : Request P)
    (table : List (MovieProfile P)) (arrays : Arrays S) (strings : ∀ movie ∈ table, 0 ∉ movie.title) :
    Filtered (matching dot request table) (filterMovies (copyTitle memory) dot request table arrays) ↔
      Terminated memory (matching dot request table : List (Entry S)).length := by
  have cells := filterMovies_cells (copyTitle memory) dot request table arrays
  have string : ∀ j (bound : j < (matching dot request table : List (Entry S)).length),
      0 ∉ ((matching dot request table)[j] : Entry S).title := by
    intro j bound
    obtain ⟨movie, chosen, same⟩ := List.mem_map.mp (List.getElem_mem bound)
    rw [← same]
    exact strings movie (List.mem_filter.mp chosen).1
  constructor
  · intro faithful j bound
    -- the entry of index `j` is the title as it reads, and the title as it was
    have both := faithful.cells.symm.trans cells.cells
    have entry := List.getElem_of_eq both bound
    rw [List.getElem_mapIdx] at entry
    exact (copyTitle_iff memory j _ (string j bound)).mp (congrArg Entry.title entry).symm
  · intro terminated
    have same : ((matching dot request table : List (Entry S)).mapIdx fun j entry =>
        { entry with title := copyTitle memory j entry.title }) = matching dot request table := by
      apply List.ext_getElem (List.length_mapIdx ..)
      intro j bound bound'
      rw [List.getElem_mapIdx, (copyTitle_iff memory j _ (string j bound')).mpr (terminated j bound')]
    exact same ▸ cells

variable [Score S]

theorem sortMatches_result (numOfMovies n : Nat) (arrays other : Arrays S)
    (trace trace' : List (Arrays S → Option (Arrays S))) (taken : (sortMatches numOfMovies n).Trace trace)
    (taken' : (sortMatches numOfMovies n).Trace trace') (same : other.slice 0 n = arrays.slice 0 n) :
    (Par.execute trace arrays).map (printed · n) = (Par.execute trace' other).map (printed · n) := by
  rw [← sortMatches_plan] at taken taken'
  have inside := sortMatchesPlan_inside n
  have apart := sortMatchesPlan_apart n
  rw [threads_execute inside taken apart, threads_execute inside taken' apart]
  have first := Par.inOrder_trace ((sortMatchesPlan n).par (Job.inThreads (S := S) numOfMovies))
  have alone := Par.Local.execute (threads_local inside first)
  rcases alone.cases (agree_slice same) with ⟨one, two⟩ | ⟨next, next', one, two, agree⟩
  · rw [one, two]
  · rw [one, two, Option.map_some, Option.map_some, printed_slice, printed_slice,
      slice_agree agree (Set.Subset.refl _)]

/-- The arrays hold the matching titles and scores exactly if the byte after each copied title is
NUL, and runs of which that holds write the same file. -/
theorem titles_copied_iff (memory : Nat → List UInt8) (dot : P → P → S) (request : Request P)
    (table : List (MovieProfile P)) (arrays : Arrays S) (strings : ∀ movie ∈ table, 0 ∉ movie.title) :
    (Filtered (matching dot request table) (filterMovies (copyTitle memory) dot request table arrays) ↔
      Terminated memory (matching dot request table : List (Entry S)).length) ∧
    (Terminated memory (matching dot request table : List (Entry S)).length →
      ∀ (memory' : Nat → List UInt8) (arrays' : Arrays S) (trace trace' : List (Arrays S → Option (Arrays S))),
        Terminated memory' (matching dot request table : List (Entry S)).length →
        (sortMatches table.length (filterMovies (copyTitle memory) dot request table arrays).1).Trace trace →
        (sortMatches table.length (filterMovies (copyTitle memory') dot request table arrays').1).Trace trace' →
        dealRequest memory dot request table arrays trace =
          dealRequest memory' dot request table arrays' trace') := by
  refine ⟨filtered_iff memory dot request table arrays strings, ?_⟩
  intro terminated memory' arrays' trace trace' terminated' taken taken'
  have one := (filtered_iff memory dot request table arrays strings).mpr terminated
  have other := (filtered_iff memory' dot request table arrays' strings).mpr terminated'
  simp only [dealRequest]
  generalize filterMovies (copyTitle memory) dot request table arrays = filtered at one taken ⊢
  generalize filterMovies (copyTitle memory') dot request table arrays' = filtered' at other taken' ⊢
  obtain ⟨n, held⟩ := filtered
  obtain ⟨n', held'⟩ := filtered'
  obtain rfl : n' = n := other.count.trans one.count.symm
  have slices : held'.slice 0 n' = held.slice 0 n' := by
    rw [Arrays.slice, Arrays.slice, span, Nat.sub_zero, ← List.range_eq_range']
    exact other.cells.trans one.cells.symm
  have lines := sortMatches_result table.length n' held held' trace trace' taken taken' slices
  cases one : Par.execute trace held <;> cases two : Par.execute trace' held' <;> simp_all

theorem titles_copied_iff_one :
    Filtered (S := Int) (matching (fun movie wish : Int => movie * wish) ⟨0, ofChars ['*'], 1⟩
        [⟨ofChars ['a'], 1, by decide⟩])
      (filterMovies (copyTitle fun _ => [0, 66]) (fun movie wish : Int => movie * wish)
        ⟨0, ofChars ['*'], 1⟩ [⟨ofChars ['a'], 1, by decide⟩] ⟨fun _ => [], fun _ => 0⟩) ↔
      Terminated (fun _ => [0, 66]) 1 :=
  (titles_copied_iff (S := Int) (fun _ => [0, 66]) (fun movie wish : Int => movie * wish)
    ⟨0, ofChars ['*'], 1⟩ [⟨ofChars ['a'], 1, by decide⟩] ⟨fun _ => [], fun _ => 0⟩ (by decide)).1

-- The memory after the copy holds a `B`: the title reads as `aB`, and another run writes `a`.
theorem title_runs_on :
    ((filterMovies (S := Int) (copyTitle fun _ => [66, 0]) (fun movie wish : Int => movie * wish)
      ⟨0, ofChars ['*'], 1⟩ [⟨ofChars ['a'], 1, by decide⟩] ⟨fun _ => [], fun _ => 0⟩).2.movies 0 =
        ofChars ['a', 'B']) ∧
    (dealRequest (S := Int) (fun _ => [66, 0]) (fun movie wish : Int => movie * wish)
      ⟨0, ofChars ['*'], 1⟩ [⟨ofChars ['a'], 1, by decide⟩] ⟨fun _ => [], fun _ => 0⟩
      [sortAt 1 0 1]).map Output.lines = some [ofChars ['a', 'B'] ++ secret] ∧
    (dealRequest (S := Int) (fun _ => [0]) (fun movie wish : Int => movie * wish)
      ⟨0, ofChars ['*'], 1⟩ [⟨ofChars ['a'], 1, by decide⟩] ⟨fun _ => [], fun _ => 0⟩
      [sortAt 1 0 1]).map Output.lines = some [ofChars ['a'] ++ secret] ∧
    ¬ Filtered (S := Int) (matching (fun movie wish : Int => movie * wish) ⟨0, ofChars ['*'], 1⟩
        [⟨ofChars ['a'], 1, by decide⟩])
      (filterMovies (copyTitle fun _ => [66, 0]) (fun movie wish : Int => movie * wish)
        ⟨0, ofChars ['*'], 1⟩ [⟨ofChars ['a'], 1, by decide⟩] ⟨fun _ => [], fun _ => 0⟩) := by
  refine ⟨by decide, by decide, by decide, fun faithful => ?_⟩
  exact absurd faithful.cells (by decide)

end SPHomework.MovieSort
