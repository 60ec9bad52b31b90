import SPHomework.MovieSort.Plans

set_option autoImplicit false

/-!
# What a sort touches

A call of the library, a merge and so a whole `merge_sort` read and write the
entries of their range only.
-/

namespace SPHomework.MovieSort

open Lib

section

variable {S : Type}

theorem arrays_ext (arrays other : Arrays S) (same : ∀ i, other.cell i = arrays.cell i) :
    other = arrays := by
  cases arrays
  cases other
  simp only [Arrays.cell, Entry.mk.injEq] at same
  rw [Arrays.mk.injEq]
  exact ⟨funext fun i => (same i).2, funext fun i => (same i).1⟩

theorem agree_scores {cells : Set Nat} {arrays other : Arrays S}
    (agree : Par.Agree Arrays.cell cells arrays other) {i : Nat} (inside : i ∈ cells) :
    other.scores i = arrays.scores i :=
  congrArg Entry.score (agree i inside)

theorem agree_movies {cells : Set Nat} {arrays other : Arrays S}
    (agree : Par.Agree Arrays.cell cells arrays other) {i : Nat} (inside : i ∈ cells) :
    other.movies i = arrays.movies i :=
  congrArg Entry.title (agree i inside)

theorem lastSecret_local (size : Nat) (nonempty : size ≠ 0) :
    Par.Local Arrays.cell (Set.Ico 0 size) fun arrays : Arrays S =>
      (addSecret (arrays.movies (size - 1)) (arrays.movies (size - 1)).length).toOption.map fun last =>
        { arrays with movies := Function.update arrays.movies (size - 1) last } := by
  have range : size - 1 ∈ Set.Ico 0 size := ⟨Nat.zero_le _, by omega⟩
  constructor
  · intro arrays next ran k outside
    obtain ⟨title, -, rfl⟩ := Option.map_eq_some_iff.mp ran
    have other : k ≠ size - 1 := fun same => outside (same ▸ range)
    simp [Arrays.cell, other]
  · intro arrays other agree
    rw [agree_movies agree range]
    cases (addSecret (arrays.movies (size - 1)) (arrays.movies (size - 1)).length).toOption with
    | none => exact .none
    | some title =>
      refine .some fun k member => ?_
      have cell := agree k member
      simp only [Arrays.cell, Entry.mk.injEq] at cell ⊢
      by_cases here : k = size - 1
      · simp [here, agree_scores agree range]
      · simp [here, cell]

theorem agree_slice {arrays other : Arrays S} {l r : Nat} (same : other.slice l r = arrays.slice l r) :
    Par.Agree Arrays.cell (Set.Ico l r) arrays other :=
  fun i inside => List.map_inj_left.mp same i (mem_span.mpr inside)

theorem local_result {l r : Nat} {action : Arrays S → Option (Arrays S)}
    (alone : Par.Local Arrays.cell (Set.Ico l r) action) :
    ∃ result : List (Entry S) → Option (List (Entry S)), ∀ arrays,
      (action arrays).map (Arrays.slice · l r) = result (arrays.slice l r) := by
  classical
  refine ⟨fun entries => if held : ∃ arrays : Arrays S, arrays.slice l r = entries then
    (action held.choose).map (Arrays.slice · l r) else none, fun arrays => ?_⟩
  have held : ∃ other : Arrays S, other.slice l r = arrays.slice l r := ⟨arrays, rfl⟩
  simp only [dif_pos held]
  -- the chosen arrays hold the same entries in the range
  rcases alone.cases (agree_slice held.choose_spec) with ⟨one, two⟩ | ⟨next, next', one, two, agree⟩
  · rw [one, two]
  · rw [one, two, Option.map_some, Option.map_some, slice_agree agree (Set.Subset.refl _)]

variable [Score S]

theorem argmaxLoop_local (arrays other : Arrays S) (start count : Nat)
    (agree : Par.Agree Arrays.cell (Set.Ico start (start + count + 1)) arrays other) :
    ∃ best, (List.range' start (count + 1)).foldl (argmaxStep arrays.scores arrays.movies)
        (Score.negOne, start) = best ∧
      (List.range' start (count + 1)).foldl (argmaxStep other.scores other.movies)
        (Score.negOne, start) = best ∧ start ≤ best.2 ∧ best.2 ≤ start + count := by
  have step : ∀ (best : S × Nat) (i : Nat), best.2 ∈ Set.Ico start (start + count + 1) →
      i ∈ Set.Ico start (start + count + 1) →
      argmaxStep other.scores other.movies best i = argmaxStep arrays.scores arrays.movies best i := by
    intro best i inside inside'
    simp only [argmaxStep, agree_scores agree inside', agree_movies agree inside,
      agree_movies agree inside']
  have chosen : ∀ (best : S × Nat) (i : Nat), (argmaxStep arrays.scores arrays.movies best i).2 = best.2 ∨
      (argmaxStep arrays.scores arrays.movies best i).2 = i := by
    intro best i
    unfold argmaxStep
    split_ifs <;> simp
  -- over the part of the range that has been looked at
  have loop : ∀ done ≤ count + 1, ∃ best, (List.range' start done).foldl
        (argmaxStep arrays.scores arrays.movies) (Score.negOne, start) = best ∧
      (List.range' start done).foldl (argmaxStep other.scores other.movies)
        (Score.negOne, start) = best ∧ start ≤ best.2 ∧ best.2 ≤ start + count := by
    intro done
    induction done with
    | zero => exact fun _ => ⟨(Score.negOne, start), rfl, rfl, by simp, by simp⟩
    | succ done ih =>
      intro bound
      obtain ⟨best, one, two, low, high⟩ := ih (by omega)
      have same := step best (start + done) ⟨low, by omega⟩ ⟨by omega, by omega⟩
      refine ⟨argmaxStep arrays.scores arrays.movies best (start + done), ?_, ?_, ?_⟩
      · rw [List.range'_1_concat, List.foldl_append, one]
        rfl
      · rw [List.range'_1_concat, List.foldl_append, two]
        exact same
      · rcases chosen best (start + done) with stays | moves <;> omega
  exact loop (count + 1) (Nat.le_refl _)

theorem argmax_local (arrays other : Arrays S) (start stop : Nat) (inside : start < stop)
    (agree : Par.Agree Arrays.cell (Set.Ico start stop) arrays other) :
    argmax other.scores other.movies start stop = argmax arrays.scores arrays.movies start stop ∧
      ∀ idx, argmax arrays.scores arrays.movies start stop = .ok idx → start ≤ idx ∧ idx < stop := by
  obtain ⟨count, rfl⟩ : ∃ count, stop = start + count + 1 := ⟨stop - start - 1, by omega⟩
  obtain ⟨best, one, two, low, high⟩ := argmaxLoop_local arrays other start count agree
  have width : start + count + 1 - start = count + 1 := by omega
  simp only [argmax, width, one, two, true_and]
  intro idx found
  split_ifs at found
  obtain rfl := Except.ok.inj found
  omega

theorem sortStep_toOption (size i : Nat) (arrays : Arrays S) : (sortStep size arrays i).toOption =
    (argmax arrays.scores arrays.movies i size).toOption.bind fun idx =>
      if idx < size then
        (addSecret (arrays.movies idx) (arrays.movies idx).length).toOption.map fun title =>
          ⟨Function.update (swap i idx arrays.movies) i title, swap i idx arrays.scores⟩
      else none := by
  rw [sortStep_eq]
  cases argmax arrays.scores arrays.movies i size with
  | error fault => rfl
  | ok idx =>
    simp only [Except.bind, Except.toOption, Option.bind_some]
    split_ifs
    · cases addSecret (arrays.movies idx) (arrays.movies idx).length <;> rfl
    · rfl

theorem sortStep_local (size i : Nat) (inside : i < size) :
    Par.Local Arrays.cell (Set.Ico 0 size) fun arrays : Arrays S => (sortStep size arrays i).toOption := by
  have range : i ∈ Set.Ico 0 size := ⟨Nat.zero_le i, inside⟩
  have part : Set.Ico i size ⊆ Set.Ico 0 size := Set.Ico_subset_Ico_left (Nat.zero_le i)
  constructor
  · intro arrays next ran k outside
    rw [sortStep_toOption] at ran
    obtain ⟨idx, chosen, rest⟩ := Option.bind_eq_some_iff.mp ran
    have bounds := (argmax_local arrays arrays i size inside (.refl _ _)).2 idx (toOption_some.mp chosen)
    rw [if_pos bounds.2] at rest
    obtain ⟨title, -, rfl⟩ := Option.map_eq_some_iff.mp rest
    have above : size ≤ k := by
      simp only [Set.mem_compl_iff, Set.mem_Ico] at outside
      omega
    have still : Equiv.swap i idx k = k := Equiv.swap_apply_of_ne_of_ne (by omega) (by omega)
    simp only [Arrays.cell, Function.update_of_ne (show k ≠ i by omega), swap_eq, Function.comp_apply, still]
  · intro arrays other agree
    obtain ⟨same, bounds⟩ := argmax_local arrays other i size inside (agree.mono part)
    rw [sortStep_toOption, sortStep_toOption, same]
    cases chosen : (argmax arrays.scores arrays.movies i size).toOption with
    | none => exact .none
    | some idx =>
      have within : idx ∈ Set.Ico 0 size := ⟨Nat.zero_le idx, (bounds idx (toOption_some.mp chosen)).2⟩
      simp only [Option.bind_some, if_pos within.2, agree_movies agree within]
      cases (addSecret (arrays.movies idx) (arrays.movies idx).length).toOption with
      | none => exact .none
      | some title =>
        refine .some fun k member => ?_
        have moved : Equiv.swap i idx k ∈ Set.Ico 0 size :=
          ⟨Nat.zero_le _, swap_lt inside within.2 k member.2⟩
        have cell := agree _ moved
        simp only [Arrays.cell, Entry.mk.injEq] at cell ⊢
        simp only [swap_eq, Function.comp_apply, cell.1, true_and]
        by_cases here : k = i
        · simp [here]
        · simp [here, cell.2]

-- The call, as far as it is one of an array that the library knows.
theorem sort_toOption (numOfMovies size : Nat) (arrays : Arrays S) (bound : size ≤ numOfMovies) (nonempty : size ≠ 0) :
    (sort numOfMovies arrays size).toOption =
      ((List.range (size - 1)).foldlM (fun arrays i => (sortStep size arrays i).toOption) arrays).bind fun arrays =>
        (addSecret (arrays.movies (size - 1)) (arrays.movies (size - 1)).length).toOption.map fun last =>
          { arrays with movies := Function.update arrays.movies (size - 1) last } := by
  rw [sort, require_bind, if_pos bound, toOption_bind, toOption_foldlM]
  congr 1
  funext middle
  rw [require_bind, if_pos nonempty]
  cases addSecret (middle.movies (size - 1)) (middle.movies (size - 1)).length <;> rfl

theorem sort_local (numOfMovies size : Nat) :
    Par.Local Arrays.cell (Set.Ico 0 size) fun arrays : Arrays S => (sort numOfMovies arrays size).toOption := by
  by_cases bound : size ≤ numOfMovies
  · by_cases nonempty : size = 0
    · have fails : (fun arrays : Arrays S => (sort numOfMovies arrays size).toOption) = fun _ => none := by
        funext arrays
        subst nonempty
        rfl
      rw [fails]
      exact .fails _
    · have rounds : ∀ done ≤ size - 1, Par.Local Arrays.cell (Set.Ico 0 size) fun arrays : Arrays S =>
          (List.range done).foldlM (fun arrays i => (sortStep size arrays i).toOption) arrays := by
        intro done
        induction done with
        | zero => exact fun _ => .id _
        | succ done ih =>
          intro less
          have next := (ih (by omega)).seq (sortStep_local size done (by omega))
          simpa [List.range_succ] using next
      simp only [sort_toOption numOfMovies size _ bound nonempty]
      exact (rounds (size - 1) (Nat.le_refl _)).seq (lastSecret_local size nonempty)
  · have fails : (fun arrays : Arrays S => (sort numOfMovies arrays size).toOption) = fun _ => none := by
      funext arrays
      rw [sort, require_bind, if_neg bound]
      rfl
    rw [fails]
    exact .fails _

-- The library gets pointers into the arrays, and sees nothing before them.
theorem sortAt_local (numOfMovies base size : Nat) :
    Par.Local Arrays.cell (Set.Ico base (base + size))
      (sortAt (S := S) numOfMovies base size) := by
  have alone := sort_local (S := S) numOfMovies size
  have dropped : ∀ (arrays : Arrays S) (k : Nat), (arrays.drop base).cell k = arrays.cell (base + k) :=
    fun _ _ => rfl
  have early : ∀ (arrays part : Arrays S) (k : Nat), k < base →
      (arrays.replace base part).cell k = arrays.cell k := by
    intro arrays part k below
    simp [Arrays.cell, Arrays.replace, below]
  have late : ∀ (arrays part : Arrays S) (k : Nat), base ≤ k →
      (arrays.replace base part).cell k = part.cell (k - base) := by
    intro arrays part k above
    simp [Arrays.cell, Arrays.replace, Nat.not_lt.mpr above]
  constructor
  · intro arrays next ran k outside
    obtain ⟨part, sorted, rfl⟩ := Option.map_eq_some_iff.mp ran
    by_cases below : k < base
    · exact early arrays part k below
    · have above : k - base ∈ (Set.Ico 0 size)ᶜ := by
        simp only [Set.mem_compl_iff, Set.mem_Ico] at outside ⊢
        omega
      rw [late arrays part k (by omega), alone.writes _ part sorted _ above, dropped,
        Nat.add_sub_cancel' (by omega)]
  · intro arrays other agree
    have shifted : Par.Agree Arrays.cell (Set.Ico 0 size) (arrays.drop base) (other.drop base) := by
      intro k member
      have inside : base + k ∈ Set.Ico base (base + size) := ⟨by omega, Nat.add_lt_add_left member.2 base⟩
      exact agree _ inside
    rcases alone.cases shifted with ⟨one, two⟩ | ⟨part, part', one, two, same⟩
    · simp only [sortAt, one, two]
      exact .none
    · simp only [sortAt, one, two]
      refine .some fun k member => ?_
      have inside : k - base ∈ Set.Ico 0 size := by
        simp only [Set.mem_Ico] at member ⊢
        omega
      rw [late _ _ k member.1, late _ _ k member.1, same _ inside]

theorem writeBack_inside {A : Type} (array other : Nat → A) (writePtr : Nat) (values : List A) (i : Nat)
    (low : writePtr ≤ i) (high : i < writePtr + values.length) :
    writeBack other writePtr values i = writeBack array writePtr values i := by
  have both := (writeBack_span other writePtr values).trans (writeBack_span array writePtr values).symm
  exact List.map_inj_left.mp both i (List.mem_range'_1.mpr ⟨low, high⟩)

theorem mergeHalves_local (l mid r : Nat) (low : l ≤ mid) (high : mid ≤ r) :
    Par.Local Arrays.cell (Set.Ico l r) (mergeHalves (S := S) l mid r) := by
  have width := fun arrays : Arrays S => mergeOrder_length arrays.cell l mid r low high
  constructor
  · intro arrays next ran i outside
    obtain rfl := Option.some.inj ran
    simp only [Set.mem_compl_iff, Set.mem_Ico] at outside
    have outer : ∀ count, count = r - l → i < l ∨ l + count ≤ i := by omega
    simp only [Arrays.cell]
    rw [writeBack_outside _ _ _ _ (outer _ (by rw [List.length_map, width])),
      writeBack_outside _ _ _ _ (outer _ (by rw [List.length_map, width]))]
  · intro arrays other agree
    have order : mergeOrder other.cell l mid r = mergeOrder arrays.cell l mid r :=
      mergeLoop_local _ _ l mid r (r - l) l mid
        (fun i j inside inside' => by rw [agree i inside, agree j inside']) (Nat.le_refl l) low
        (Nat.le_refl mid) high (by omega)
    have inside : ∀ i ∈ mergeOrder arrays.cell l mid r, i ∈ Set.Ico l r := fun i member =>
      mem_span.mp ((mergeOrder_perm arrays.cell l mid r low high).subset member)
    have scores : (mergeOrder arrays.cell l mid r).map other.scores =
        (mergeOrder arrays.cell l mid r).map arrays.scores :=
      List.map_congr_left fun i member => agree_scores agree (inside i member)
    have movies : (mergeOrder arrays.cell l mid r).map other.movies =
        (mergeOrder arrays.cell l mid r).map arrays.movies :=
      List.map_congr_left fun i member => agree_movies agree (inside i member)
    simp only [mergeHalves, order, scores, movies]
    refine .some fun i member => ?_
    have within : ∀ count, count = r - l → i < l + count := by
      have bound := member.2
      omega
    simp only [Arrays.cell, Entry.mk.injEq]
    exact ⟨writeBack_inside _ _ _ _ i member.1 (within _ (by rw [List.length_map, width])),
      writeBack_inside _ _ _ _ i member.1 (within _ (by rw [List.length_map, width]))⟩

theorem inThreads_local (numOfMovies l r : Nat) (job : Job) (inside : job.Inside l r) :
    Par.Local Arrays.cell job.cells (job.inThreads (S := S) numOfMovies) := by
  cases job with
  | sort start stop =>
    have total : start + (stop - start) = stop := Nat.add_sub_cancel' inside.2.1
    have alone := sortAt_local (S := S) numOfMovies start (stop - start)
    rw [total] at alone
    exact alone
  | merge start mid stop => exact mergeHalves_local start mid stop inside.2.1 inside.2.2.1

section

variable {numOfMovies l r : Nat} {plan : Plan Job} {trace : List (Arrays S → Option (Arrays S))}
  (inside : ∀ job ∈ plan.jobs, job.Inside l r)
  (taken : (plan.par (Job.inThreads numOfMovies)).Trace trace)

include inside taken

theorem threads_local : ∀ action ∈ trace, Par.Local Arrays.cell (Set.Ico l r) action :=
  Plan.local_actions (fun job member => inThreads_local numOfMovies l r job (inside job member))
    (fun job member => (inside job member).cells) taken

theorem threads_execute (apart : plan.Apart Job.cells) (arrays : Arrays S) :
    Par.execute trace arrays = Par.execute (plan.par (Job.inThreads numOfMovies)).inOrder arrays :=
  Plan.execute_trace arrays_ext (fun job member => inThreads_local numOfMovies l r job (inside job member))
    apart taken arrays

end

theorem mergeSort_execute (numOfMovies layers l r : Nat) (order : l ≤ r)
    {trace : List (Arrays S → Option (Arrays S))} (taken : (mergeSort numOfMovies layers l r).Trace trace)
    (arrays : Arrays S) :
    Par.execute trace arrays = Par.execute (mergeSort numOfMovies layers l r).inOrder arrays := by
  rw [← mergeSort_plan] at taken ⊢
  exact threads_execute (mergeSortPlan_inside layers l r order) taken (mergeSortPlan_apart layers l r order)
    arrays

theorem mergeSort_local (numOfMovies layers l r : Nat) (order : l ≤ r)
    {trace : List (Arrays S → Option (Arrays S))} (taken : (mergeSort numOfMovies layers l r).Trace trace) :
    ∀ action ∈ trace, Par.Local Arrays.cell (Set.Ico l r) action := by
  rw [← mergeSort_plan] at taken
  exact threads_local (mergeSortPlan_inside layers l r order) taken

/-- The calls of `merge_sort` when `deal_request` starts it for `n` matches, by the layers that are
left and the range. -/
inductive Called (n : Nat) : Nat → Nat → Nat → Prop where
  | first : Called n (3 - startLayer n) 0 n
  | left {layers l r : Nat} (call : Called n (layers + 1) l r) : Called n layers l ((r + l) / 2)
  | right {layers l r : Nat} (call : Called n (layers + 1) l r) : Called n layers ((r + l) / 2) r

theorem Called.wide {n layers l r : Nat} (call : Called n layers l r) (several : 2 ≤ n) :
    l + 2 ^ (layers + 1) ≤ r ∧ r ≤ n := by
  induction call with
  | first =>
    have wide := startLayer_wide n several
    omega
  | left call ih =>
    rw [Nat.pow_succ] at ih
    omega
  | right call ih =>
    rw [Nat.pow_succ] at ih
    omega

/-- A call of `merge_sort` is made of calls of `sort` and of merges inside its range, none of them
on an empty slice. Whatever the order, it leaves there what depends on the entries of the range
only, and the halves may go first or second. -/
theorem sibling_sorts_apart (numOfMovies n layers l r : Nat) (several : 2 ≤ n)
    (call : Called n layers l r) :
    (∀ job ∈ (mergeSortPlan layers l r).jobs, job.Inside l r ∧
      Par.Local Arrays.cell job.cells (job.inThreads (S := S) numOfMovies)) ∧
    (∀ size ∈ sortSizes (mergeSortPlan layers l r).jobs, 1 ≤ size) ∧
    (∀ trace arrays after, (mergeSort (S := S) numOfMovies layers l r).Trace trace →
      Par.execute trace arrays = some after → ∀ i ∉ Set.Ico l r, after.cell i = arrays.cell i) ∧
    (∃ result : List (Entry S) → Option (List (Entry S)), ∀ trace arrays,
      (mergeSort (S := S) numOfMovies layers l r).Trace trace →
        (Par.execute trace arrays).map (Arrays.slice · l r) = result (arrays.slice l r)) ∧
    (∀ arrays : Arrays S,
      (sortAt numOfMovies ((r + l) / 2) (r - (r + l) / 2) arrays).bind
          (sortAt numOfMovies l ((r + l) / 2 - l)) =
        (sortAt numOfMovies l ((r + l) / 2 - l) arrays).bind
          (sortAt numOfMovies ((r + l) / 2) (r - (r + l) / 2))) ∧
    (∀ below, layers = below + 1 → ∀ left right : List (Arrays S → Option (Arrays S)),
      (mergeSort numOfMovies below l ((r + l) / 2)).Trace left →
      (mergeSort numOfMovies below ((r + l) / 2) r).Trace right →
      ∀ arrays, Par.execute (left ++ right) arrays = Par.execute (right ++ left) arrays) := by
  have wide := (call.wide several).1
  have positive : 0 < 2 ^ (layers + 1) := Nat.two_pow_pos _
  have order : l ≤ r := by omega
  obtain ⟨mid, middle⟩ : ∃ mid, mid = (r + l) / 2 := ⟨_, rfl⟩
  have low : l ≤ mid := by omega
  have high : mid ≤ r := by omega
  have apart : Set.Ico l mid ⊆ (Set.Ico mid r)ᶜ := Set.Ico_disjoint_Ico_same.subset_compl_right
  have inside := mergeSortPlan_inside layers l r order
  rw [← middle]
  refine ⟨fun job member => ⟨inside job member, ?_⟩, mergeSortPlan_sizes layers l r wide, ?_, ?_, ?_, ?_⟩
  · exact inThreads_local numOfMovies l r job (inside job member)
  · intro trace arrays after taken ran i outside
    exact (Par.Local.execute (mergeSort_local numOfMovies layers l r order taken)).writes
      arrays after ran i outside
  · have first := Par.inOrder_trace (mergeSort (S := S) numOfMovies layers l r)
    obtain ⟨result, same⟩ :=
      local_result (Par.Local.execute (mergeSort_local numOfMovies layers l r order first))
    refine ⟨result, fun trace arrays taken => ?_⟩
    rw [mergeSort_execute numOfMovies layers l r order taken]
    exact same arrays
  · intro arrays
    have left := sortAt_local (S := S) numOfMovies l (mid - l)
    have right := sortAt_local (S := S) numOfMovies mid (r - mid)
    rw [Nat.add_sub_cancel' low] at left
    rw [Nat.add_sub_cancel' high] at right
    exact (left.commute arrays_ext right apart arrays).symm
  · rintro below - left right taken taken' arrays
    have one := Par.Local.execute (mergeSort_local numOfMovies below l mid low taken)
    have other := Par.Local.execute (mergeSort_local numOfMovies below mid r high taken')
    rw [Par.execute_append, Par.execute_append]
    exact one.commute arrays_ext other apart arrays

-- The left half of ten entries, in layer 3.
theorem sibling_sorts_apart_half :
    (∀ size ∈ sortSizes (mergeSortPlan 0 0 5).jobs, 1 ≤ size) ∧
    ((sortAt 10 2 3 ⟨fun _ => [], fun i => (i : Int)⟩).bind (sortAt 10 0 2) =
      (sortAt 10 0 2 ⟨fun _ => [], fun i => (i : Int)⟩).bind (sortAt 10 2 3)) := by
  have apart := sibling_sorts_apart (S := Int) 10 10 0 0 5 (by decide) (@Called.left 10 0 0 10 .first)
  exact ⟨apart.2.1, apart.2.2.2.2.1 ⟨fun _ => [], fun i => (i : Int)⟩⟩

end

end SPHomework.MovieSort
