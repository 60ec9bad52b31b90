import SPHomework.MovieSort.ThreadServer

set_option autoImplicit false

/-!
# The process server

`process_merge_sort` forks instead, on shared memory. In layer 3 it sorts the
whole range, copies the titles into the shared buffers and exits.
-/

namespace SPHomework.MovieSort

open Lib

section

variable {S : Type}

/-- The shared mappings: pointers to title buffers, scores, and the buffers. -/
structure Shared (S : Type) where
  mv : Nat → Nat
  score : Nat → S
  buf : Nat → CStr

def Shared.cell (shared : Shared S) (i : Nat) : Nat × S × CStr :=
  (shared.mv i, shared.score i, shared.buf i)

def Shared.view (shared : Shared S) : Arrays S :=
  ⟨fun i => shared.buf (shared.mv i), shared.score⟩

-- A buffer has `MAX_LEN + 1` bytes.
def strcpy (pointer : Nat) (title : CStr) (buf : Nat → CStr) : Option (Nat → CStr) :=
  if title.length < maxLen + 1 then some (Function.update buf pointer title) else none

variable [Score S]

/-- Layer 3. `temp` starts with the pointers of the range, so the library sorts the titles they lead
to; its titles are new strings that are copied back. -/
def sortCopies (numOfMovies l r : Nat) (shared : Shared S) : Option (Shared S) := do
  let temp ← sortAt numOfMovies l (r - l) shared.view
  let buf ← (List.range (r - l)).foldlM
    (fun buf i => strcpy (shared.mv (l + i)) (temp.movies (l + i)) buf) shared.buf
  return { shared with score := temp.scores, buf := buf }

def mergeShared (l mid r : Nat) (shared : Shared S) : Option (Shared S) :=
  let order := mergeOrder shared.view.cell l mid r
  let tempScore := order.map shared.score
  let tempMovie := order.map shared.mv
  some { shared with
    mv := writeBack shared.mv l tempMovie
    score := writeBack shared.score l tempScore }

inductive Ending where
  | returns
  | exits
  deriving DecidableEq, Repr

/-- `process_merge_sort`, by the number of layers that are left. Its children exit in any case, and
the parent merges once both waits are over. -/
def processMergeSort (numOfMovies : Nat) : Nat → Nat → Nat → Bool → Par (Shared S) × Ending
  | 0, l, r, _ => (.act (sortCopies numOfMovies l r), .exits)
  | layers + 1, l, r, isparent =>
    let mid := (l + r) / 2
    let left := processMergeSort numOfMovies layers l mid false
    let right := processMergeSort numOfMovies layers mid r true
    (.seq (.fork left.1 right.1) (.act (mergeShared l mid r)), if isparent then .returns else .exits)

def mainSort (numOfMovies filteredMovieNum : Nat) : Par (Shared S) × Ending :=
  processMergeSort numOfMovies (3 - startLayer filteredMovieNum) 0 filteredMovieNum true

end

-- The mappings after the filter loop: each title in the buffer of its index.
def Shared.ofArrays {S : Type} (arrays : Arrays S) : Shared S := ⟨id, arrays.scores, arrays.movies⟩

/-- `main` of the process server. The copy takes the NUL along. The file is empty when the process
exits inside the sort. -/
def mainProcess {P S : Type} [Score S] (dot : P → P → S) (request : Request P)
    (table : List (MovieProfile P)) (arrays : Arrays S)
    (trace : List (Shared S → Option (Shared S))) : Option Output := do
  let filtered := filterMovies (fun _ title => title) dot request table arrays
  let sorted ← Par.execute trace (Shared.ofArrays filtered.2)
  return ⟨outputName request.id ['p', '.', 'o', 'u', 't'],
    match (mainSort (S := S) table.length filtered.1).2 with
    | .returns => printed sorted.view filtered.1
    | .exits => []⟩

section

variable {S : Type}

def Shared.Closed (shared : Shared S) (l r : Nat) : Prop :=
  ((span l r).map shared.mv).Perm (span l r)

theorem Shared.Closed.inside {shared : Shared S} {l r : Nat} (closed : shared.Closed l r) (i : Nat)
    (member : i ∈ span l r) : shared.mv i ∈ span l r :=
  closed.subset (List.mem_map_of_mem member)

theorem closed_agree {shared other : Shared S} {cells : Set Nat} {l r : Nat}
    (agree : Par.Agree Shared.cell cells shared other) (inside : Set.Ico l r ⊆ cells)
    (closed : shared.Closed l r) : other.Closed l r := by
  have same : (span l r).map other.mv = (span l r).map shared.mv := by
    apply List.map_congr_left
    intro i member
    exact congrArg Prod.fst (agree i (inside (mem_span.mp member)))
  rw [Shared.Closed, same]
  exact closed

theorem view_agree {shared other : Shared S} {cells : Set Nat} {l r : Nat}
    (agree : Par.Agree Shared.cell cells shared other) (inside : Set.Ico l r ⊆ cells)
    (closed : shared.Closed l r) : other.view.slice l r = shared.view.slice l r := by
  apply List.map_congr_left
  intro i member
  have here := agree i (inside (mem_span.mp member))
  have there := agree _ (inside (mem_span.mp (closed.inside i member)))
  simp only [Shared.cell, Prod.mk.injEq] at here there
  simp [Arrays.cell, Shared.view, here.1, here.2.1, there.2.2]

structure Shared.Kept (raw : List (Entry S)) (l r : Nat) (shared : Shared S) : Prop where
  held : Held raw (shared.view.slice l r)
  closed : shared.Closed l r

theorem kept_agree {raw : List (Entry S)} {l r : Nat} (now later : Shared S)
    (agree : Par.Agree Shared.cell (Set.Ico l r) now later) (kept : now.Kept raw l r) :
    later.Kept raw l r := by
  refine ⟨?_, closed_agree agree (Set.Subset.refl _) kept.closed⟩
  rw [view_agree agree (Set.Subset.refl _) kept.closed]
  exact kept.held

theorem closed_straight {shared : Shared S} {l r : Nat} (straight : ∀ i ∈ Set.Ico l r, shared.mv i = i) :
    shared.Closed l r := by
  have same : (span l r).map shared.mv = span l r := by
    rw [List.map_congr_left fun i member => straight i (mem_span.mp member), List.map_id']
  rw [Shared.Closed, same]

variable [Score S]

structure Shared.Sorted (raw : List (Entry S)) (l r : Nat) (shared : Shared S) : Prop where
  arranged : Arranged raw (shared.view.slice l r)
  closed : shared.Closed l r

theorem Shared.Sorted.kept {raw : List (Entry S)} {l r : Nat} {shared : Shared S}
    (sorted : shared.Sorted raw l r) : shared.Kept raw l r :=
  ⟨sorted.arranged.held, sorted.closed⟩

theorem sorted_agree {raw : List (Entry S)} {l r : Nat} (now later : Shared S)
    (agree : Par.Agree Shared.cell (Set.Ico l r) now later) (sorted : now.Sorted raw l r) :
    later.Sorted raw l r := by
  refine ⟨?_, closed_agree agree (Set.Subset.refl _) sorted.closed⟩
  rw [view_agree agree (Set.Subset.refl _) sorted.closed]
  exact sorted.arranged

theorem copyBack_correct (mv : Nat → Nat) (titles buf : Nat → CStr) (l count : Nat)
    (straight : ∀ i < count, mv (l + i) = l + i)
    (fits : ∀ i < count, (titles (l + i)).length < maxLen + 1) :
    (List.range count).foldlM (fun buf i => strcpy (mv (l + i)) (titles (l + i)) buf) buf =
      some fun j => if l ≤ j ∧ j < l + count then titles j else buf j := by
  induction count with
  | zero =>
    have nowhere : ∀ j, ¬ (l ≤ j ∧ j < l + 0) := by omega
    simp only [List.range_zero, List.foldlM_nil, Option.pure_def, nowhere, if_false]
  | succ count ih =>
    have before := ih (fun i below => straight i (by omega)) fun i below => fits i (by omega)
    rw [List.range_succ, List.foldlM_append, before]
    simp only [Option.bind_eq_bind, Option.bind_some, List.foldlM_cons, List.foldlM_nil, strcpy,
      straight count (Nat.lt_succ_self _), if_pos (fits count (Nat.lt_succ_self _)), Option.pure_def]
    congr 1
    funext j
    by_cases last : j = l + count
    · subst last
      simp
    · have same : (l ≤ j ∧ j < l + (count + 1)) ↔ (l ≤ j ∧ j < l + count) := by omega
      simp [last, same]

-- Layer 3, while the pointers of its range are still the ones of the filter loop.
theorem sortCopies_correct (numOfMovies l r : Nat) (shared : Shared S) (wide : l < r)
    (bound : r - l ≤ numOfMovies) (straight : ∀ i ∈ Set.Ico l r, shared.mv i = i)
    (proper : ∀ entry ∈ shared.view.slice l r, Proper entry) :
    ∃ after, sortCopies numOfMovies l r shared = some after ∧
      Par.Agree Shared.cell (Set.Ico l r)ᶜ shared after ∧
      after.Sorted (shared.view.slice l r) l r := by
  have total : l + (r - l) = r := by omega
  obtain ⟨temp, ran, outside, arranged⟩ := sortAt_correct numOfMovies l (r - l) shared.view bound
    (by omega) (total.symm ▸ proper)
  rw [total] at outside arranged
  have fits : ∀ i < r - l, (temp.movies (l + i)).length < maxLen + 1 := by
    intro i below
    have member : temp.cell (l + i) ∈ temp.slice l r := mem_slice.mpr ⟨l + i, ⟨by omega, by omega⟩, rfl⟩
    obtain ⟨entry, inside, same⟩ := List.mem_map.mp (arranged.perm.subset member)
    have title : temp.movies (l + i) = entry.title ++ secret := (congrArg Entry.title same).symm
    have short := (proper entry inside).fits
    rw [title, List.length_append]
    omega
  have copied := copyBack_correct shared.mv temp.movies shared.buf l (r - l)
    (fun i below => straight (l + i) ⟨by omega, by omega⟩) fits
  refine ⟨{ shared with
      score := temp.scores
      buf := fun j => if l ≤ j ∧ j < l + (r - l) then temp.movies j else shared.buf j },
    by simp [sortCopies, ran, copied], ?_, ?_, closed_straight straight⟩
  · intro i outer
    have score : temp.scores i = shared.score i := congrArg Entry.score (outside i outer)
    have untouched : ¬ (l ≤ i ∧ i < l + (r - l)) := by
      rw [total]
      exact outer
    simp [Shared.cell, score, untouched]
  · have same : Arrays.slice (Shared.view { shared with
        score := temp.scores
        buf := fun j => if l ≤ j ∧ j < l + (r - l) then temp.movies j else shared.buf j }) l r =
        temp.slice l r := by
      apply List.map_congr_left
      intro i member
      have range := mem_span.mp member
      simp [Shared.view, Arrays.cell, straight i range, total, range]
    rw [same]
    exact arranged

theorem mergeShared_correct (l mid r : Nat) (shared : Shared S) (low : l ≤ mid) (high : mid ≤ r)
    {lefts rights : List (Entry S)} (left : shared.Sorted lefts l mid)
    (right : shared.Sorted rights mid r) :
    ∃ after, mergeShared l mid r shared = some after ∧
      Par.Agree Shared.cell (Set.Ico l r)ᶜ shared after ∧ after.Sorted (lefts ++ rights) l r := by
  have perm := mergeOrder_perm shared.view.cell l mid r low high
  have width := mergeOrder_length shared.view.cell l mid r low high
  have arranged := mergeOrder_arranged shared.view.cell l mid r low high left.arranged right.arranged
  obtain ⟨order, chosen⟩ : ∃ order, order = mergeOrder shared.view.cell l mid r := ⟨_, rfl⟩
  rw [← chosen] at perm width arranged
  have written : ∀ {A : Type} (array : Nat → A), (span l r).map (writeBack array l (order.map array)) =
      order.map array := by
    intro A array
    have all := writeBack_span array l (order.map array)
    rw [List.length_map, width] at all
    exact all
  have untouched : ∀ {A : Type} (array : Nat → A) (i : Nat), i ∉ Set.Ico l r →
      writeBack array l (order.map array) i = array i := by
    intro A array i outer
    apply writeBack_outside
    simp only [Set.mem_Ico] at outer
    rw [List.length_map, width]
    omega
  refine ⟨{ shared with
      mv := writeBack shared.mv l (order.map shared.mv)
      score := writeBack shared.score l (order.map shared.score) }, by simp [mergeShared, ← chosen], ?_, ?_, ?_⟩
  · intro i outer
    simp [Shared.cell, untouched _ i outer]
  · -- pointers and scores move together, and no buffer changes
    have zipped : Arrays.cell (Shared.view { shared with
        mv := writeBack shared.mv l (order.map shared.mv)
        score := writeBack shared.score l (order.map shared.score) }) =
        writeBack shared.view.cell l (order.map shared.view.cell) := by
      funext i
      have together := writeBack_zip (fun pointer score => Entry.mk score (shared.buf pointer)) shared.mv
        shared.score (order.map shared.mv) (order.map shared.score) (by simp) l i
      rw [List.zipWith_map, List.zipWith_self] at together
      exact together
    rw [Arrays.slice, zipped, written]
    exact arranged
  · have halves : ((span l r).map shared.mv).Perm (span l r) := by
      rw [← span_append l mid r low high, List.map_append]
      exact left.closed.append right.closed
    rw [Shared.Closed, written]
    exact (perm.map shared.mv).trans halves

theorem processMergeSort_correct (numOfMovies layers l r : Nat) (isparent : Bool) (shared : Shared S)
    (wide : l + 2 ^ layers ≤ r) (bound : r - l ≤ numOfMovies)
    (straight : ∀ i ∈ Set.Ico l r, shared.mv i = i)
    (proper : ∀ entry ∈ shared.view.slice l r, Proper entry) :
    Par.Correct Shared.cell (Set.Ico l r) (fun now => now.Kept (shared.view.slice l r) l r)
      (fun now => now.Sorted (shared.view.slice l r) l r)
      (processMergeSort numOfMovies layers l r isparent).1 shared := by
  induction layers generalizing l r isparent with
  | zero =>
    apply Par.Correct.act kept_agree sorted_agree ⟨Held.refl _, closed_straight straight⟩
    intro now agree
    have same : now.view.slice l r = shared.view.slice l r :=
      view_agree agree (Set.Subset.refl _) (closed_straight straight)
    have straight' : ∀ i ∈ Set.Ico l r, now.mv i = i := fun i inside =>
      (congrArg Prod.fst (agree i inside)).trans (straight i inside)
    obtain ⟨after, ran, outside, sorted⟩ := sortCopies_correct numOfMovies l r now (by omega) bound
      straight' (same.symm ▸ proper)
    rw [same] at sorted
    exact ⟨after, ran, outside, sorted.kept, sorted⟩
  | succ layers ih =>
    rw [Nat.pow_succ] at wide
    have positive : 0 < 2 ^ layers := Nat.two_pow_pos _
    obtain ⟨mid, middle⟩ : ∃ mid, mid = (l + r) / 2 := ⟨_, rfl⟩
    have low : l ≤ mid := by omega
    have high : mid ≤ r := by omega
    have split := fun now : Shared S => slice_append now.view l mid r low high
    have onLeft : Set.Ico l mid ⊆ Set.Ico l r := Set.Ico_subset_Ico_right high
    have onRight : Set.Ico mid r ⊆ Set.Ico l r := Set.Ico_subset_Ico_left low
    have left := ih l mid false (by omega) (by omega) (fun i inside => straight i (onLeft inside))
      fun entry member => proper entry (split shared ▸ List.mem_append_left _ member)
    have right := ih mid r true (by omega) (by omega) (fun i inside => straight i (onRight inside))
      fun entry member => proper entry (split shared ▸ List.mem_append_right _ member)
    have both := Par.Correct.fork Set.Ico_disjoint_Ico_same.subset_compl_right left right
    rw [Set.Ico_union_Ico_eq_Ico low high] at both
    have kept : ∀ now : Shared S, now.Kept (shared.view.slice l mid) l mid →
        now.Kept (shared.view.slice mid r) mid r → now.Kept (shared.view.slice l r) l r := by
      intro now left right
      constructor
      · rw [← split shared, ← split now]
        exact left.held.append right.held
      · rw [Shared.Closed, ← span_append l mid r low high, List.map_append]
        exact left.closed.append right.closed
    simp only [processMergeSort, ← middle]
    apply Par.Correct.seq (both.weaken ?_ fun now ends => ends)
    · rintro state ⟨left, right⟩
      apply Par.Correct.act kept_agree sorted_agree (kept state left.kept right.kept)
      intro now agree
      have left' := sorted_agree state now (agree.mono onLeft) left
      have right' := sorted_agree state now (agree.mono onRight) right
      obtain ⟨after, ran, outside, sorted⟩ := mergeShared_correct l mid r now low high left' right'
      rw [split shared] at sorted
      exact ⟨after, ran, outside, sorted.kept, sorted⟩
    · rintro now ⟨left, right⟩
      exact kept now left right

theorem startLayer_fits (n : Nat) (nonempty : 1 ≤ n) : 2 ^ (3 - startLayer n) ≤ n := by
  unfold startLayer
  split_ifs <;> omega

-- In layer 3 the process that was started exits, and `isparent` is not looked at.
theorem mainSort_ending (numOfMovies n : Nat) :
    (mainSort (S := S) numOfMovies n).2 = if 10 ≤ n then .returns else .exits := by
  by_cases few : n < 10
  · have layer : 3 - startLayer n = 0 := by simp [startLayer, few]
    simp [mainSort, layer, processMergeSort, Nat.not_le.mpr few]
  · obtain ⟨layers, layer⟩ : ∃ layers, 3 - startLayer n = layers + 1 := by
      unfold startLayer
      split_ifs
      · exact ⟨0, rfl⟩
      · exact ⟨1, rfl⟩
      · exact ⟨2, rfl⟩
    simp [mainSort, layer, processMergeSort, Nat.not_lt.mp few]

end

section

variable {P S : Type} [Score S]

theorem process_server_sorts (dot : P → P → S) (request : Request P) (table : List (MovieProfile P))
    (arrays filtered : Arrays S) (n : Nat) (trace : List (Shared S → Option (Shared S)))
    (above : ∀ movie ∈ table, ∀ byte ∈ movie.title, 9 < byte)
    (nonneg : ∀ movie ∈ table, 0 ≤ dot movie.profile request.profile)
    (nonempty : 1 ≤ (matching dot request table).length)
    (filtering : filterMovies (fun _ title => title) dot request table arrays = (n, filtered))
    (taken : (mainSort table.length n).1.Trace trace) :
    ∃ sorted, ∃ order : List (Entry S),
      Par.execute trace (Shared.ofArrays filtered) = some sorted ∧
      order.Perm (matching dot request table) ∧ order.Pairwise Before ∧
      sorted.view.slice 0 n = order.map decorate ∧ sorted.Closed 0 n ∧
      mainProcess dot request table arrays trace =
        some ⟨outputName request.id ['p', '.', 'o', 'u', 't'],
          if 10 ≤ n then order.map fun entry => entry.title ++ secret else []⟩ := by
  obtain ⟨count, few, slice⟩ := filterMovies_slice filtering fun _ _ _ => rfl
  have proper := matching_proper dot request table above nonneg
  have wide := startLayer_fits n (count ▸ nonempty)
  have correct := processMergeSort_correct table.length (3 - startLayer n) 0 n true
    (Shared.ofArrays filtered) (by omega) (by omega) (fun _ _ => rfl) (slice.symm ▸ proper)
  obtain ⟨sorted, ran, arranged, closed⟩ := (correct trace taken).execute
  have start : (Shared.ofArrays filtered).view.slice 0 n = matching dot request table := slice
  rw [start] at arranged
  obtain ⟨order, perm, before, cells⟩ := arranged.order proper
  refine ⟨sorted, order, ran, perm, before, cells.symm, closed, ?_⟩
  have lines : printed sorted.view n = order.map fun entry => entry.title ++ secret := by
    rw [printed_slice, ← cells, List.map_map]
    rfl
  have ending := mainSort_ending (S := S) table.length n
  by_cases enough : 10 ≤ n
  · rw [if_pos enough] at ending
    simp [mainProcess, filtering, ran, ending, lines, enough]
  · rw [if_neg enough] at ending
    simp [mainProcess, filtering, ran, ending, enough]

/-- Whatever order the threads and the processes run in, the two files have the same lines exactly
if at least 10 movies match. -/
theorem servers_agree_iff (memory : Nat → List UInt8) (dot : P → P → S) (request : Request P)
    (table : List (MovieProfile P)) (arrays arrays' : Arrays S)
    (threads : List (Arrays S → Option (Arrays S))) (processes : List (Shared S → Option (Shared S)))
    (terminated : ∀ j, (memory j).head? = some 0)
    (above : ∀ movie ∈ table, ∀ byte ∈ movie.title, 9 < byte)
    (nonneg : ∀ movie ∈ table, 0 ≤ dot movie.profile request.profile)
    (nonempty : 1 ≤ (matching dot request table).length)
    (taken : (sortMatches table.length
      (filterMovies (copyTitle memory) dot request table arrays).1).Trace threads)
    (taken' : (mainSort table.length
      (filterMovies (fun _ title => title) dot request table arrays').1).1.Trace processes) :
    ∃ tserver pserver, dealRequest memory dot request table arrays threads = some tserver ∧
      mainProcess dot request table arrays' processes = some pserver ∧
      (pserver.lines = tserver.lines ↔ 10 ≤ (matching dot request table).length) := by
  obtain ⟨⟨n, filtered⟩, filtering⟩ :
    ∃ result, filterMovies (copyTitle memory) dot request table arrays = result := ⟨_, rfl⟩
  obtain ⟨⟨n', filtered'⟩, filtering'⟩ :
    ∃ result, filterMovies (fun _ title => title) dot request table arrays' = result := ⟨_, rfl⟩
  rw [filtering] at taken
  rw [filtering'] at taken'
  obtain ⟨-, order, -, perm, before, -, written⟩ := dealRequest_sorts memory dot request table arrays
    filtered n threads terminated above nonneg nonempty filtering taken
  obtain ⟨-, order', -, perm', before', -, -, written'⟩ := process_server_sorts dot request table arrays'
    filtered' n' processes above nonneg nonempty filtering' taken'
  refine ⟨_, _, written, written', ?_⟩
  obtain ⟨rfl, -, -⟩ := filterMovies_slice filtering' fun _ _ _ => rfl
  by_cases enough : 10 ≤ (matching dot request table).length
  · have same := Answer.unique ⟨order', perm', before', rfl⟩ ⟨order, perm, before, rfl⟩
    simp [enough, same]
  · -- the thread server writes at least one line
    have lines : (order.map fun entry => entry.title ++ secret) ≠ [] := by
      intro none
      have length := congrArg List.length none
      rw [List.length_map, perm.length_eq, List.length_nil] at length
      omega
    simp [enough, lines.symm]

-- Ten titles of one letter, in the order of neither the scores nor the letters.
def letters : List (MovieProfile Int) :=
  (List.range 10).map fun i =>
    ⟨[UInt8.ofNat (97 + 7 * i % 10)], (3 * i % 4 : Nat), by rw [List.length_singleton]; decide⟩

def letterArrays : Arrays Int := ⟨fun _ => [], fun _ => 0⟩

theorem servers_agree_iff_ten :
    ∃ tserver pserver, dealRequest (S := Int) (fun _ => [0]) (fun movie wish : Int => movie * wish)
        ⟨0, ofChars ['*'], 1⟩ letters letterArrays (sortMatches 10 10).inOrder = some tserver ∧
      mainProcess (S := Int) (fun movie wish : Int => movie * wish) ⟨0, ofChars ['*'], 1⟩ letters letterArrays
        (mainSort 10 10).1.inOrder = some pserver ∧
      pserver.lines = tserver.lines := by
  have all : (matching (S := Int) (fun movie wish : Int => movie * wish) ⟨0, ofChars ['*'], 1⟩ letters).length =
      10 := by decide
  have count : (filterMovies (S := Int) (copyTitle fun _ => [0]) (fun movie wish : Int => movie * wish)
      ⟨0, ofChars ['*'], 1⟩ letters letterArrays).1 = 10 := by decide
  have count' : (filterMovies (S := Int) (fun _ title => title) (fun movie wish : Int => movie * wish)
      ⟨0, ofChars ['*'], 1⟩ letters letterArrays).1 = 10 := by decide
  obtain ⟨tserver, pserver, written, written', agree⟩ := servers_agree_iff (fun _ => [0])
    (fun movie wish : Int => movie * wish) ⟨0, ofChars ['*'], 1⟩ letters letterArrays letterArrays
    (sortMatches 10 10).inOrder (mainSort 10 10).1.inOrder (fun _ => rfl) (by decide +kernel) (by decide +kernel)
    (all ▸ by decide) (count ▸ Par.inOrder_trace _) (count' ▸ Par.inOrder_trace _)
  exact ⟨tserver, pserver, written, written', agree.mpr all.ge⟩

theorem process_server_prints_nothing :
    (sortMatches 1 1).Trace [sortAt (S := Int) 1 0 1] ∧
      (mainSort 1 1).1.Trace [sortCopies (S := Int) 1 0 1] ∧
      matching (S := Int) (fun movie wish : Int => movie * wish) ⟨0, ofChars ['*'], 1⟩
        [⟨ofChars ['a'], 1, by decide⟩] = [⟨1, ofChars ['a']⟩] ∧
      (dealRequest (S := Int) (fun _ => [0]) (fun movie wish : Int => movie * wish)
        ⟨0, ofChars ['*'], 1⟩ [⟨ofChars ['a'], 1, by decide⟩] ⟨fun _ => [], fun _ => 0⟩
        [sortAt 1 0 1]).map Output.lines = some [ofChars ['a'] ++ secret] ∧
      (mainProcess (S := Int) (fun movie wish : Int => movie * wish) ⟨0, ofChars ['*'], 1⟩
        [⟨ofChars ['a'], 1, by decide⟩] ⟨fun _ => [], fun _ => 0⟩ [sortCopies 1 0 1]).map Output.lines =
          some [] :=
  ⟨.act _, .act _, by decide, by decide, by decide⟩

end

end SPHomework.MovieSort
