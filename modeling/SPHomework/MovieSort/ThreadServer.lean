import SPHomework.MovieSort.Merge
import SPHomework.Lib.ForkJoin
import Mathlib.Order.Interval.Set.Disjoint

set_option autoImplicit false

/-!
# The thread server

`merge_sort` splits its range and runs two threads until it is in layer 3, where
it calls the library on both halves. Then it merges.
-/

namespace SPHomework.MovieSort

open Lib

section

variable {S : Type}

-- `&movies[base]` and `&scores[base]`
def Arrays.drop (arrays : Arrays S) (base : Nat) : Arrays S :=
  ⟨fun i => arrays.movies (base + i), fun i => arrays.scores (base + i)⟩

def Arrays.replace (arrays : Arrays S) (base : Nat) (part : Arrays S) : Arrays S where
  movies i := if i < base then arrays.movies i else part.movies (i - base)
  scores i := if i < base then arrays.scores i else part.scores (i - base)

def Arrays.slice (arrays : Arrays S) (l r : Nat) : List (Entry S) := (span l r).map arrays.cell

variable [Score S]

-- A call `sort(&movies[base], &scores[base], size)`, and nothing if it goes wrong.
def sortAt (numOfMovies base size : Nat) (arrays : Arrays S) : Option (Arrays S) :=
  (sort numOfMovies (arrays.drop base) size).toOption.map (arrays.replace base)

def mergeHalves (l mid r : Nat) (arrays : Arrays S) : Option (Arrays S) :=
  let order := mergeOrder arrays.cell l mid r
  let tempScore := order.map arrays.scores
  let tempMovie := order.map arrays.movies
  some ⟨writeBack arrays.movies l tempMovie, writeBack arrays.scores l tempScore⟩

/-- `merge_sort`, by the number of layers that are left below its own. -/
def mergeSort (numOfMovies : Nat) : Nat → Nat → Nat → Par (Arrays S)
  | 0, l, r =>
    let mid := (r + l) / 2
    .seq (.act (sortAt numOfMovies mid (r - mid)))
      (.seq (.act (sortAt numOfMovies l (mid - l))) (.act (mergeHalves l mid r)))
  | layers + 1, l, r =>
    let mid := (r + l) / 2
    .seq (.fork (mergeSort numOfMovies layers l mid) (mergeSort numOfMovies layers mid r))
      (.act (mergeHalves l mid r))

-- What `deal_request` does between the filter loop and the printing loop.
def sortMatches (numOfMovies filteredMovieNum : Nat) : Par (Arrays S) :=
  if filteredMovieNum = 1 then .act (sortAt numOfMovies 0 1)
  else mergeSort numOfMovies (3 - startLayer filteredMovieNum) 0 filteredMovieNum

end

section

variable {P S : Type} [Score S]

/-- `malloc` and `memcpy` of a title without its NUL: the string ends where the memory after it
holds one. -/
def copyTitle (memory : Nat → List UInt8) (index : Nat) (title : CStr) : CStr :=
  cString (title ++ memory index)

/-- `deal_request`, when its threads run in the order of the trace. `memory` is what lies behind
the copied titles, `arrays` what the new arrays hold. -/
def dealRequest (memory : Nat → List UInt8) (dot : P → P → S) (request : Request P)
    (table : List (MovieProfile P)) (arrays : Arrays S)
    (trace : List (Arrays S → Option (Arrays S))) : Option Output := do
  let filtered := filterMovies (copyTitle memory) dot request table arrays
  let sorted ← Par.execute trace filtered.2
  return ⟨outputName request.id ['t', '.', 'o', 'u', 't'], printed sorted filtered.1⟩

end

section

variable {S : Type}

theorem slice_append (arrays : Arrays S) (l mid r : Nat) (low : l ≤ mid) (high : mid ≤ r) :
    arrays.slice l mid ++ arrays.slice mid r = arrays.slice l r := by
  rw [Arrays.slice, Arrays.slice, ← List.map_append, span_append l mid r low high, Arrays.slice]

theorem slice_agree {arrays other : Arrays S} {cells : Set Nat} {l r : Nat}
    (agree : Par.Agree Arrays.cell cells arrays other) (inside : Set.Ico l r ⊆ cells) :
    other.slice l r = arrays.slice l r := by
  apply List.map_congr_left
  intro i member
  exact agree i (inside (mem_span.mp member))

theorem mem_slice {arrays : Arrays S} {l r : Nat} {entry : Entry S} :
    entry ∈ arrays.slice l r ↔ ∃ i ∈ Set.Ico l r, arrays.cell i = entry := by
  simp [Arrays.slice, mem_span]

theorem filterMovies_slice {P : Type} {copy : Nat → CStr → CStr} {dot : P → P → S} {request : Request P}
    {table : List (MovieProfile P)} {arrays filtered : Arrays S} {n : Nat}
    (filtering : filterMovies copy dot request table arrays = (n, filtered))
    (copies : ∀ j, ∀ movie ∈ table, copy j movie.title = movie.title) :
    n = (matching dot request table).length ∧ n ≤ table.length ∧
      filtered.slice 0 n = matching dot request table := by
  have correct := filterMovies_correct copy dot request table arrays copies
  rw [filtering] at correct
  have count : n = (matching dot request table).length := correct.count
  refine ⟨count, ?_, ?_⟩
  · rw [count, matching, List.length_map]
    exact List.length_filter_le _ _
  · rw [Arrays.slice, span, Nat.sub_zero, ← List.range_eq_range']
    exact correct.cells

theorem printed_slice (arrays : Arrays S) (n : Nat) :
    printed arrays n = (arrays.slice 0 n).map Entry.title := by
  rw [Arrays.slice, span, Nat.sub_zero, ← List.range_eq_range', List.map_map]
  rfl

theorem held_agree {raw : List (Entry S)} {l r : Nat} (now later : Arrays S)
    (agree : Par.Agree Arrays.cell (Set.Ico l r) now later) (held : Held raw (now.slice l r)) :
    Held raw (later.slice l r) := by
  rw [slice_agree agree (Set.Subset.refl _)]
  exact held

variable [Score S]

theorem arranged_agree {raw : List (Entry S)} {l r : Nat} (now later : Arrays S)
    (agree : Par.Agree Arrays.cell (Set.Ico l r) now later) (arranged : Arranged raw (now.slice l r)) :
    Arranged raw (later.slice l r) := by
  rw [slice_agree agree (Set.Subset.refl _)]
  exact arranged

theorem sortAt_correct (numOfMovies base size : Nat) (arrays : Arrays S) (bound : size ≤ numOfMovies)
    (nonempty : 0 < size) (proper : ∀ entry ∈ arrays.slice base (base + size), Proper entry) :
    ∃ after, sortAt numOfMovies base size arrays = some after ∧
      Par.Agree Arrays.cell (Set.Ico base (base + size))ᶜ arrays after ∧
      Arranged (arrays.slice base (base + size)) (after.slice base (base + size)) := by
  have cells : ∀ (part : Arrays S) (i : Nat), (arrays.replace base part).cell i =
      if i < base then arrays.cell i else part.cell (i - base) := by
    intro part i
    simp only [Arrays.cell, Arrays.replace]
    split_ifs <;> rfl
  have shifted : ∀ part : Arrays S, (List.range size).map part.cell =
      (arrays.replace base part).slice base (base + size) := by
    intro part
    rw [Arrays.slice, span, Nat.add_sub_cancel_left, List.range'_eq_map_range, List.map_map]
    apply List.map_congr_left
    intro i _
    simp [cells]
  have unchanged : ∀ i, base ≤ i → (arrays.drop base).cell (i - base) = arrays.cell i := by
    intro i late
    simp [Arrays.drop, Arrays.cell, Nat.add_sub_cancel' late]
  have before : (arrays.replace base (arrays.drop base)).slice base (base + size) =
      arrays.slice base (base + size) := by
    apply List.map_congr_left
    intro i member
    have late := (mem_span.mp member).1
    rw [cells, if_neg (not_lt.mpr late), unchanged i late]
  have fine : ∀ i < size, Proper ((arrays.drop base).cell i) := by
    intro i below
    exact proper _ (mem_slice.mpr ⟨base + i, by simp [below], rfl⟩)
  -- the library sees the part from `base` on as arrays of its own
  obtain ⟨part, order, ran, outside, perm, sorted, result⟩ :=
    sort_correct numOfMovies size (arrays.drop base) bound nonempty fine
  refine ⟨arrays.replace base part, by simp [sortAt, ran, Except.toOption], ?_, ?_⟩
  · intro i outer
    rw [cells]
    split_ifs with early
    · rfl
    · have late := not_lt.mp early
      have above : size ≤ i - base := by
        simp only [Set.mem_compl_iff, Set.mem_Ico] at outer
        omega
      rw [outside _ above, unchanged i late]
  · rw [shifted, before] at perm
    rw [← shifted part, result]
    exact arranged_decorate proper perm sorted

theorem mergeHalves_correct (l mid r : Nat) (arrays : Arrays S) (low : l ≤ mid) (high : mid ≤ r)
    {lefts rights : List (Entry S)} (left : Arranged lefts (arrays.slice l mid))
    (right : Arranged rights (arrays.slice mid r)) :
    ∃ after, mergeHalves l mid r arrays = some after ∧
      Par.Agree Arrays.cell (Set.Ico l r)ᶜ arrays after ∧
      Arranged (lefts ++ rights) (after.slice l r) := by
  have width := mergeOrder_length arrays.cell l mid r low high
  have zipped : Arrays.cell ⟨writeBack arrays.movies l ((mergeOrder arrays.cell l mid r).map arrays.movies),
      writeBack arrays.scores l ((mergeOrder arrays.cell l mid r).map arrays.scores)⟩ =
      writeBack arrays.cell l ((mergeOrder arrays.cell l mid r).map arrays.cell) := by
    funext i
    have together := writeBack_zip (fun title score => Entry.mk score title) arrays.movies arrays.scores
      ((mergeOrder arrays.cell l mid r).map arrays.movies)
      ((mergeOrder arrays.cell l mid r).map arrays.scores) (by simp) l i
    rw [List.zipWith_map, List.zipWith_self] at together
    exact together
  refine ⟨_, rfl, ?_, ?_⟩
  · intro i outside
    rw [zipped]
    apply writeBack_outside
    simp only [Set.mem_compl_iff, Set.mem_Ico] at outside
    rw [List.length_map, width]
    omega
  · rw [Arrays.slice, zipped, span, ← width, ← List.length_map (f := arrays.cell), writeBack_span]
    exact mergeOrder_arranged arrays.cell l mid r low high left right

theorem mergeHalves_act {l mid r : Nat} {arrays : Arrays S} (low : l ≤ mid) (high : mid ≤ r)
    {lefts rights : List (Entry S)} (left : Arranged lefts (arrays.slice l mid))
    (right : Arranged rights (arrays.slice mid r)) :
    Par.Correct Arrays.cell (Set.Ico l r) (fun now => Held (lefts ++ rights) (now.slice l r))
      (fun now => Arranged (lefts ++ rights) (now.slice l r)) (.act (mergeHalves l mid r)) arrays := by
  have halves : Held (lefts ++ rights) (arrays.slice l r) := by
    rw [← slice_append arrays l mid r low high]
    exact left.held.append right.held
  apply Par.Correct.act held_agree arranged_agree halves
  intro now agree
  have left' := arranged_agree arrays now (agree.mono (Set.Ico_subset_Ico_right high)) left
  have right' := arranged_agree arrays now (agree.mono (Set.Ico_subset_Ico_left low)) right
  -- nobody else has touched the two halves meanwhile
  obtain ⟨after, ran, outside, arranged⟩ := mergeHalves_correct l mid r now low high left' right'
  exact ⟨after, ran, outside, arranged.held, arranged⟩

theorem sortAt_act (numOfMovies base size top : Nat) (arrays : Arrays S) (total : base + size = top)
    (bound : size ≤ numOfMovies) (nonempty : 0 < size)
    (proper : ∀ entry ∈ arrays.slice base top, Proper entry) :
    Par.Correct Arrays.cell (Set.Ico base top)
      (fun now => Held (arrays.slice base top) (now.slice base top))
      (fun now => Arranged (arrays.slice base top) (now.slice base top))
      (.act (sortAt numOfMovies base size)) arrays := by
  subst total
  apply Par.Correct.act held_agree arranged_agree (Held.refl _)
  intro now agree
  have same : now.slice base (base + size) = arrays.slice base (base + size) :=
    slice_agree agree (Set.Subset.refl _)
  obtain ⟨after, ran, outside, arranged⟩ :=
    sortAt_correct numOfMovies base size now bound nonempty (same ▸ proper)
  rw [same] at arranged
  exact ⟨after, ran, outside, arranged.held, arranged⟩

-- The leaf: the right half, then the left half, then the merge.
theorem mergeSort_leaf (numOfMovies l mid r : Nat) (arrays : Arrays S) (low : l < mid) (high : mid < r)
    (bound : r - l ≤ numOfMovies) (proper : ∀ entry ∈ arrays.slice l r, Proper entry) :
    Par.Correct Arrays.cell (Set.Ico l r) (fun now => Held (arrays.slice l r) (now.slice l r))
      (fun now => Arranged (arrays.slice l r) (now.slice l r))
      (.seq (.act (sortAt numOfMovies mid (r - mid)))
        (.seq (.act (sortAt numOfMovies l (mid - l))) (.act (mergeHalves l mid r)))) arrays := by
  have split := fun now : Arrays S => slice_append now l mid r low.le high.le
  have onRight : Set.Ico mid r ⊆ Set.Ico l r := Set.Ico_subset_Ico_left low.le
  have onLeft : Set.Ico l mid ⊆ Set.Ico l r := Set.Ico_subset_Ico_right high.le
  have apart : Disjoint (Set.Ico l mid) (Set.Ico mid r) := Set.Ico_disjoint_Ico_same
  have notRight : Set.Ico l mid ⊆ Set.Ico l r \ Set.Ico mid r := Set.subset_sdiff.mpr ⟨onLeft, apart⟩
  have notLeft : Set.Ico mid r ⊆ Set.Ico l r \ Set.Ico l mid := Set.subset_sdiff.mpr ⟨onRight, apart.symm⟩
  have right := sortAt_act numOfMovies mid (r - mid) r arrays (by omega) (by omega) (by omega)
    fun entry member => proper entry (split arrays ▸ List.mem_append_right _ member)
  apply Par.Correct.seq ((right.frame onRight).weaken ?_ fun now ends => ends)
  · rintro middle ⟨sorted, kept⟩
    have plain : middle.slice l mid = arrays.slice l mid := slice_agree kept notRight
    have left := sortAt_act numOfMovies l (mid - l) mid middle (by omega) (by omega) (by omega)
      fun entry member => proper entry (split arrays ▸ List.mem_append_left _ (plain ▸ member))
    apply Par.Correct.seq ((left.frame onLeft).weaken ?_ fun now ends => ends)
    · rintro now ⟨sorted', kept'⟩
      rw [← split arrays]
      refine mergeHalves_act low.le high.le (plain ▸ sorted') ?_
      rw [slice_agree kept' notLeft]
      exact sorted
    · rintro now ⟨held, kept'⟩
      rw [← split arrays, ← split now, slice_agree kept' notLeft]
      exact (plain ▸ held).append sorted.held
  · rintro now ⟨held, kept⟩
    rw [← split arrays, ← split now, slice_agree kept notRight]
    exact (Held.refl _).append held

theorem mergeSort_correct (numOfMovies layers l r : Nat) (arrays : Arrays S)
    (wide : l + 2 ^ (layers + 1) ≤ r) (bound : r - l ≤ numOfMovies)
    (proper : ∀ entry ∈ arrays.slice l r, Proper entry) :
    Par.Correct Arrays.cell (Set.Ico l r) (fun now => Held (arrays.slice l r) (now.slice l r))
      (fun now => Arranged (arrays.slice l r) (now.slice l r)) (mergeSort numOfMovies layers l r) arrays := by
  induction layers generalizing l r with
  | zero =>
    simp only [Nat.zero_add, Nat.pow_one] at wide
    exact mergeSort_leaf numOfMovies l ((r + l) / 2) r arrays (by omega) (by omega) bound proper
  | succ layers ih =>
    rw [Nat.pow_succ] at wide
    have positive : 0 < 2 ^ (layers + 1) := Nat.two_pow_pos _
    obtain ⟨mid, middle⟩ : ∃ mid, mid = (r + l) / 2 := ⟨_, rfl⟩
    have low : l ≤ mid := by omega
    have high : mid ≤ r := by omega
    have split := slice_append arrays l mid r low high
    have whole : Set.Ico l mid ∪ Set.Ico mid r = Set.Ico l r := Set.Ico_union_Ico_eq_Ico low high
    have left := ih l mid (by omega) (by omega) fun entry member =>
      proper entry (split ▸ List.mem_append_left _ member)
    have right := ih mid r (by omega) (by omega) fun entry member =>
      proper entry (split ▸ List.mem_append_right _ member)
    have both := Par.Correct.fork Set.Ico_disjoint_Ico_same.subset_compl_right left right
    rw [whole] at both
    simp only [mergeSort, ← middle]
    apply Par.Correct.seq (both.weaken ?_ fun now ends => ends)
    · rintro now ⟨left, right⟩
      rw [← split]
      exact mergeHalves_act low high left right
    · rintro now ⟨left, right⟩
      rw [← split, ← slice_append now l mid r low high]
      exact left.append right

theorem startLayer_wide (n : Nat) (several : 2 ≤ n) : 2 ^ (3 - startLayer n + 1) ≤ n := by
  unfold startLayer
  split_ifs <;> omega

theorem sortMatches_correct (numOfMovies n : Nat) (arrays : Arrays S) (nonempty : 1 ≤ n)
    (bound : n ≤ numOfMovies) (proper : ∀ entry ∈ arrays.slice 0 n, Proper entry) :
    Par.Correct Arrays.cell (Set.Ico 0 n) (fun now => Held (arrays.slice 0 n) (now.slice 0 n))
      (fun now => Arranged (arrays.slice 0 n) (now.slice 0 n)) (sortMatches numOfMovies n) arrays := by
  by_cases single : n = 1
  · subst single
    rw [sortMatches, if_pos rfl]
    exact sortAt_act numOfMovies 0 1 1 arrays rfl bound Nat.one_pos proper
  · rw [sortMatches, if_neg single]
    have wide := startLayer_wide n (by omega)
    exact mergeSort_correct numOfMovies _ 0 n arrays (by omega) (by omega) proper

end

section

variable {P S : Type} [Score S]

theorem copyTitle_proper (memory : Nat → List UInt8) (terminated : ∀ j, (memory j).head? = some 0)
    (title : CStr) (above : ∀ byte ∈ title, 9 < byte) (index : Nat) :
    copyTitle memory index title = title := by
  obtain ⟨rest, same⟩ := List.head?_eq_some_iff.mp (terminated index)
  rw [copyTitle, same]
  apply cString_append
  intro byte member
  have positive := above byte member
  rintro rfl
  exact absurd positive (by decide)

theorem matching_proper (dot : P → P → S) (request : Request P) (table : List (MovieProfile P))
    (above : ∀ movie ∈ table, ∀ byte ∈ movie.title, 9 < byte)
    (nonneg : ∀ movie ∈ table, 0 ≤ dot movie.profile request.profile) :
    ∀ entry ∈ matching dot request table, Proper entry := by
  intro entry member
  obtain ⟨movie, chosen, rfl⟩ := List.mem_map.mp member
  have inside := (List.mem_filter.mp chosen).1
  exact ⟨above movie inside, movie.fits, nonneg movie inside⟩

section

variable (memory : Nat → List UInt8) (dot : P → P → S) (request : Request P)
  (table : List (MovieProfile P)) (arrays filtered : Arrays S) (n : Nat)
  (trace : List (Arrays S → Option (Arrays S)))
  (terminated : ∀ j, (memory j).head? = some 0)
  (above : ∀ movie ∈ table, ∀ byte ∈ movie.title, 9 < byte)
  (nonneg : ∀ movie ∈ table, 0 ≤ dot movie.profile request.profile)
  (nonempty : 1 ≤ (matching dot request table).length)
  (filtering : filterMovies (copyTitle memory) dot request table arrays = (n, filtered))
  (taken : (sortMatches table.length n).Trace trace)

include terminated above nonneg nonempty filtering

theorem dealRequest_correct : Par.Correct Arrays.cell (Set.Ico 0 n)
    (fun now => Held (matching dot request table) (now.slice 0 n))
    (fun now => Arranged (matching dot request table) (now.slice 0 n))
    (sortMatches table.length n) filtered := by
  obtain ⟨count, few, slice⟩ := filterMovies_slice filtering fun j movie member =>
    copyTitle_proper memory terminated movie.title (above movie member) j
  have proper := matching_proper dot request table above nonneg
  have correct := sortMatches_correct table.length n filtered (count ▸ nonempty) few (slice.symm ▸ proper)
  rw [slice] at correct
  exact correct

include taken

theorem dealRequest_sorts : ∃ sorted, ∃ order : List (Entry S), Par.execute trace filtered = some sorted ∧
    order.Perm (matching dot request table) ∧ order.Pairwise Before ∧
    sorted.slice 0 n = order.map decorate ∧
    dealRequest memory dot request table arrays trace =
      some ⟨outputName request.id ['t', '.', 'o', 'u', 't'],
        order.map fun entry => entry.title ++ secret⟩ := by
  have correct := dealRequest_correct memory dot request table arrays filtered n terminated above nonneg
    nonempty filtering
  obtain ⟨sorted, ran, arranged⟩ := (correct trace taken).execute
  obtain ⟨order, perm, before, cells⟩ := arranged.order (matching_proper dot request table above nonneg)
  refine ⟨sorted, order, ran, perm, before, cells.symm, ?_⟩
  have lines : printed sorted n = order.map fun entry => entry.title ++ secret := by
    rw [printed_slice, ← cells, List.map_map]
    rfl
  simp [dealRequest, filtering, ran, lines]

end

/-- The lines of `deal_request` are the matching titles in order. At every point of every run each
of the entries is in the arrays once, score and title together. -/
theorem thread_server_sorts (memory : Nat → List UInt8) (dot : P → P → S) (request : Request P)
    (table : List (MovieProfile P)) (arrays filtered : Arrays S) (n : Nat)
    (trace : List (Arrays S → Option (Arrays S)))
    (terminated : ∀ j, (memory j).head? = some 0)
    (above : ∀ movie ∈ table, ∀ byte ∈ movie.title, 9 < byte)
    (nonneg : ∀ movie ∈ table, 0 ≤ dot movie.profile request.profile)
    (nonempty : 1 ≤ (matching dot request table).length)
    (filtering : filterMovies (copyTitle memory) dot request table arrays = (n, filtered))
    (taken : (sortMatches table.length n).Trace trace) :
    (∀ done, done <+: trace → ∃ now, Par.execute done filtered = some now ∧
      Held (matching dot request table) (now.slice 0 n)) ∧
    ∃ sorted, ∃ order : List (Entry S), Par.execute trace filtered = some sorted ∧
      order.Perm (matching dot request table) ∧ order.Pairwise Before ∧
      sorted.slice 0 n = order.map decorate ∧
      dealRequest memory dot request table arrays trace =
        some ⟨outputName request.id ['t', '.', 'o', 'u', 't'],
          order.map fun entry => entry.title ++ secret⟩ := by
  constructor
  · intro done part
    have correct := dealRequest_correct memory dot request table arrays filtered n terminated above nonneg
      nonempty filtering
    exact (correct trace taken).throughout part
  · exact dealRequest_sorts memory dot request table arrays filtered n trace terminated above nonneg
      nonempty filtering taken

theorem thread_server_sorts_two :
    ∃ order : List (Entry Int), order.Perm [⟨1, ofChars ['a', 'b']⟩, ⟨1, ofChars ['a']⟩] ∧
      order.Pairwise Before ∧
      dealRequest (S := Int) (fun _ => [0]) (fun movie wish : Int => movie * wish) ⟨0, ofChars ['a'], 1⟩
        [⟨ofChars ['a', 'b'], 1, by decide⟩, ⟨ofChars ['a'], 1, by decide⟩] ⟨fun _ => [], fun _ => 0⟩
        [sortAt 2 1 1, sortAt 2 0 1, mergeHalves 0 1 2] =
          some ⟨outputName 0 ['t', '.', 'o', 'u', 't'], order.map fun entry => entry.title ++ secret⟩ := by
  obtain ⟨-, sorted, order, -, perm, before, -, lines⟩ :=
    thread_server_sorts (fun _ => [0]) (fun movie wish : Int => movie * wish) ⟨0, ofChars ['a'], 1⟩
      [⟨ofChars ['a', 'b'], 1, by decide⟩, ⟨ofChars ['a'], 1, by decide⟩] ⟨fun _ => [], fun _ => 0⟩
      (filterMovies (copyTitle fun _ => [0]) (fun movie wish : Int => movie * wish) ⟨0, ofChars ['a'], 1⟩
        [⟨ofChars ['a', 'b'], 1, by decide⟩, ⟨ofChars ['a'], 1, by decide⟩] ⟨fun _ => [], fun _ => 0⟩).2
      2 [sortAt 2 1 1, sortAt 2 0 1, mergeHalves 0 1 2] (fun _ => rfl) (by simp [ofChars, ascii]) (by decide)
      (by decide) rfl (.seq (.act _) (.seq (.act _) (.act _)))
  exact ⟨order, perm, before, lines⟩

end

end SPHomework.MovieSort
