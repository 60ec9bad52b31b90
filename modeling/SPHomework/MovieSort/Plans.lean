import SPHomework.Lib.Jobs
import SPHomework.MovieSort.ProcessServer

set_option autoImplicit false

/-!
# The calls that a sort is made of

Both servers split a range until layer 3, call the library on the parts and
merge. The plan names these calls with their ranges.
-/

namespace SPHomework.MovieSort

open Lib

-- A call of `sort` on a range, or the merge loop.
inductive Job where
  | sort (l r : Nat)
  | merge (l mid r : Nat)
  deriving DecidableEq, Repr

namespace Job

section

variable {S : Type} [Score S]

def inThreads (numOfMovies : Nat) : Job → Arrays S → Option (Arrays S)
  | sort l r => sortAt numOfMovies l (r - l)
  | merge l mid r => mergeHalves l mid r

def inProcesses (numOfMovies : Nat) : Job → Shared S → Option (Shared S)
  | sort l r => sortCopies numOfMovies l r
  | merge l mid r => mergeShared l mid r

end

def cells : Job → Set Nat
  | sort l r => Set.Ico l r
  | merge l _ r => Set.Ico l r

-- The third argument of `sort`.
def size : Job → Option Nat
  | sort l r => some (r - l)
  | merge .. => none

def Inside (l r : Nat) : Job → Prop
  | sort start stop => l ≤ start ∧ start ≤ stop ∧ stop ≤ r
  | merge start mid stop => l ≤ start ∧ start ≤ mid ∧ mid ≤ stop ∧ stop ≤ r

theorem Inside.mono {l l' r r' : Nat} {job : Job} (inside : job.Inside l r) (low : l' ≤ l)
    (high : r ≤ r') : job.Inside l' r' := by
  cases job <;> simp only [Inside] at inside ⊢ <;> omega

theorem Inside.cells {l r : Nat} {job : Job} (inside : job.Inside l r) : job.cells ⊆ Set.Ico l r := by
  cases job with
  | sort start stop => exact Set.Ico_subset_Ico inside.1 inside.2.2
  | merge start mid stop => exact Set.Ico_subset_Ico inside.1 inside.2.2.2

end Job

def sortSizes (jobs : List Job) : List Nat := jobs.filterMap Job.size

-- `merge_sort`, by the number of layers that are left.
def mergeSortPlan : Nat → Nat → Nat → Plan Job
  | 0, l, r =>
    let mid := (r + l) / 2
    .seq (.job (.sort mid r)) (.seq (.job (.sort l mid)) (.job (.merge l mid r)))
  | layers + 1, l, r =>
    let mid := (r + l) / 2
    .seq (.fork (mergeSortPlan layers l mid) (mergeSortPlan layers mid r)) (.job (.merge l mid r))

-- `deal_request`
def sortMatchesPlan (filteredMovieNum : Nat) : Plan Job :=
  if filteredMovieNum = 1 then .job (.sort 0 1)
  else mergeSortPlan (3 - startLayer filteredMovieNum) 0 filteredMovieNum

-- `process_merge_sort`
def processPlan : Nat → Nat → Nat → Plan Job
  | 0, l, r => .job (.sort l r)
  | layers + 1, l, r =>
    let mid := (l + r) / 2
    .seq (.fork (processPlan layers l mid) (processPlan layers mid r)) (.job (.merge l mid r))

def mainSortPlan (filteredMovieNum : Nat) : Plan Job :=
  processPlan (3 - startLayer filteredMovieNum) 0 filteredMovieNum

section

variable {S : Type} [Score S]

theorem mergeSort_plan (numOfMovies layers l r : Nat) :
    (mergeSortPlan layers l r).par (Job.inThreads (S := S) numOfMovies) = mergeSort numOfMovies layers l r := by
  induction layers generalizing l r with
  | zero => rfl
  | succ layers ih =>
    simp only [mergeSortPlan, Plan.par, mergeSort, ih]
    rfl

theorem sortMatches_plan (numOfMovies n : Nat) :
    (sortMatchesPlan n).par (Job.inThreads (S := S) numOfMovies) = sortMatches numOfMovies n := by
  unfold sortMatchesPlan sortMatches
  split_ifs
  · rfl
  · exact mergeSort_plan numOfMovies _ 0 n

theorem processMergeSort_plan (numOfMovies layers l r : Nat) (isparent : Bool) :
    (processPlan layers l r).par (Job.inProcesses (S := S) numOfMovies) =
      (processMergeSort numOfMovies layers l r isparent).1 := by
  induction layers generalizing l r isparent with
  | zero => rfl
  | succ layers ih =>
    simp only [processPlan, Plan.par, processMergeSort, ← ih]
    rfl

theorem mainSort_plan (numOfMovies n : Nat) :
    (mainSortPlan n).par (Job.inProcesses (S := S) numOfMovies) = (mainSort numOfMovies n).1 :=
  processMergeSort_plan numOfMovies _ 0 n true

end

@[simp] theorem sortSizes_nil : sortSizes [] = [] := rfl

@[simp] theorem sortSizes_sort (l r : Nat) (rest : List Job) :
    sortSizes (.sort l r :: rest) = (r - l) :: sortSizes rest := rfl

@[simp] theorem sortSizes_merge (l mid r : Nat) (rest : List Job) :
    sortSizes (.merge l mid r :: rest) = sortSizes rest := rfl

theorem sortSizes_append (xs ys : List Job) : sortSizes (xs ++ ys) = sortSizes xs ++ sortSizes ys :=
  List.filterMap_append

theorem mergeSortPlan_inside (layers l r : Nat) (order : l ≤ r) :
    ∀ job ∈ (mergeSortPlan layers l r).jobs, job.Inside l r := by
  induction layers generalizing l r with
  | zero =>
    simp only [mergeSortPlan, Plan.jobs, List.cons_append, List.nil_append, List.forall_mem_cons, Job.Inside]
    simp only [List.not_mem_nil, false_implies, implies_true, and_true]
    omega
  | succ layers ih =>
    intro job member
    simp only [mergeSortPlan, Plan.jobs, List.mem_append, List.mem_singleton] at member
    rcases member with (onLeft | onRight) | rfl
    · exact (ih l ((r + l) / 2) (by omega) job onLeft).mono (Nat.le_refl l) (by omega)
    · exact (ih ((r + l) / 2) r (by omega) job onRight).mono (by omega) (Nat.le_refl r)
    · simp only [Job.Inside]
      omega

theorem mergeSortPlan_apart (layers l r : Nat) (order : l ≤ r) :
    (mergeSortPlan layers l r).Apart Job.cells := by
  induction layers generalizing l r with
  | zero => exact ⟨trivial, trivial, trivial⟩
  | succ layers ih =>
    have low : l ≤ (r + l) / 2 := by omega
    have high : (r + l) / 2 ≤ r := by omega
    refine ⟨⟨ih l _ low, ih _ r high, fun one left other right => ?_⟩, trivial⟩
    have inLeft := (mergeSortPlan_inside layers l _ low one left).cells
    have inRight := (mergeSortPlan_inside layers _ r high other right).cells
    exact (Set.Ico_disjoint_Ico_same.mono inLeft inRight).subset_compl_right

theorem sortMatchesPlan_inside (n : Nat) : ∀ job ∈ (sortMatchesPlan n).jobs, job.Inside 0 n := by
  unfold sortMatchesPlan
  split_ifs with single
  · simp [single, Plan.jobs, Job.Inside]
  · exact mergeSortPlan_inside _ 0 n (Nat.zero_le n)

theorem sortMatchesPlan_apart (n : Nat) : (sortMatchesPlan n).Apart Job.cells := by
  unfold sortMatchesPlan
  split_ifs
  · trivial
  · exact mergeSortPlan_apart _ 0 n (Nat.zero_le n)

-- With one entry for each half of each leaf, no slice is empty.
theorem mergeSortPlan_sizes (layers l r : Nat) (wide : l + 2 ^ (layers + 1) ≤ r) :
    ∀ size ∈ sortSizes (mergeSortPlan layers l r).jobs, 1 ≤ size := by
  induction layers generalizing l r with
  | zero =>
    simp only [Nat.zero_add, Nat.pow_one] at wide
    simp only [mergeSortPlan, Plan.jobs, List.cons_append, List.nil_append, sortSizes_sort,
      sortSizes_merge, sortSizes_nil, List.forall_mem_cons]
    exact ⟨by omega, by omega, fun size none => by cases none⟩
  | succ layers ih =>
    rw [Nat.pow_succ] at wide
    intro size member
    simp only [mergeSortPlan, Plan.jobs, sortSizes_append, List.mem_append] at member
    rcases member with (onLeft | onRight) | merged
    · exact ih l _ (by omega) size onLeft
    · exact ih _ r (by omega) size onRight
    · cases merged

theorem processPlan_sizes (layers l r : Nat) (wide : l + 2 ^ layers ≤ r) :
    ∀ size ∈ sortSizes (processPlan layers l r).jobs, 1 ≤ size := by
  induction layers generalizing l r with
  | zero =>
    rw [Nat.pow_zero] at wide
    simp only [processPlan, Plan.jobs, sortSizes_sort, sortSizes_nil, List.forall_mem_cons]
    exact ⟨by omega, fun size none => by cases none⟩
  | succ layers ih =>
    rw [Nat.pow_succ] at wide
    intro size member
    simp only [processPlan, Plan.jobs, sortSizes_append, List.mem_append] at member
    rcases member with (onLeft | onRight) | merged
    · exact ih l _ (by omega) size onLeft
    · exact ih _ r (by omega) size onRight
    · cases merged

theorem matching_nonempty {P S : Type} (dot : P → P → S) (request : Request P)
    (table : List (MovieProfile P)) :
    1 ≤ (matching dot request table).length ↔ ∃ movie ∈ table, wanted request.keywords movie.title := by
  rw [matching, List.length_map, Nat.one_le_iff_ne_zero, Ne, List.length_eq_zero_iff]
  simp [List.filter_eq_nil_iff]

theorem sortMatchesPlan_sizes (n : Nat) (nonempty : 1 ≤ n) :
    ∀ size ∈ sortSizes (sortMatchesPlan n).jobs, 1 ≤ size := by
  unfold sortMatchesPlan
  split_ifs with single
  · decide
  · have wide := startLayer_wide n (by omega)
    exact mergeSortPlan_sizes _ 0 n (by omega)

theorem mainSortPlan_sizes (n : Nat) (nonempty : 1 ≤ n) :
    ∀ size ∈ sortSizes (mainSortPlan n).jobs, 1 ≤ size := by
  have wide := startLayer_fits n nonempty
  exact processPlan_sizes _ 0 n (by omega)

-- In every run of the plan, each slice that is sorted has an entry.
def NonemptyCalls (plan : Plan Job) : Prop :=
  ∀ calls, plan.Trace calls → ∀ size ∈ sortSizes calls, 1 ≤ size

theorem nonemptyCalls_iff (plan : Plan Job) :
    NonemptyCalls plan ↔ ∀ size ∈ sortSizes plan.jobs, 1 ≤ size := by
  constructor
  · exact fun all => all plan.jobs plan.jobs_trace
  · intro all calls taken size member
    exact all size ((taken.perm.filterMap Job.size).subset member)

theorem nonemptyCalls_filter {P S : Type} (plans : Nat → Plan Job)
    (filled : ∀ n, 1 ≤ n → ∀ size ∈ sortSizes (plans n).jobs, 1 ≤ size)
    (empty : ¬ ∀ size ∈ sortSizes (plans 0).jobs, 1 ≤ size) (copy : Nat → CStr → CStr) (dot : P → P → S)
    (request : Request P) (table : List (MovieProfile P)) (arrays : Arrays S) :
    NonemptyCalls (plans (filterMovies copy dot request table arrays).1) ↔
      ∃ movie ∈ table, wanted request.keywords movie.title := by
  rw [nonemptyCalls_iff, filterMovies_count, ← matching_nonempty dot]
  constructor
  · intro all
    by_contra none
    have zero : (matching dot request table).length = 0 := by omega
    exact empty (zero ▸ all)
  · exact filled _

/-- No slice is empty, in either server, exactly if a movie matches. -/
theorem sort_slices_nonempty_iff {P S : Type} (memory : Nat → List UInt8) (dot : P → P → S)
    (request : Request P) (table : List (MovieProfile P)) (arrays arrays' : Arrays S) :
    (NonemptyCalls (sortMatchesPlan (filterMovies (copyTitle memory) dot request table arrays).1) ↔
      ∃ movie ∈ table, wanted request.keywords movie.title) ∧
    (NonemptyCalls (mainSortPlan (filterMovies (fun _ title => title) dot request table arrays').1) ↔
      ∃ movie ∈ table, wanted request.keywords movie.title) :=
  ⟨nonemptyCalls_filter sortMatchesPlan sortMatchesPlan_sizes (by decide) _ dot request table arrays,
    nonemptyCalls_filter mainSortPlan mainSortPlan_sizes (by decide) _ dot request table arrays'⟩

-- One movie, and a keyword that is not in its title: both servers sort an empty slice.
theorem sort_of_no_match :
    ¬ NonemptyCalls (sortMatchesPlan (filterMovies (S := Int) (copyTitle fun _ => [0])
      (fun movie wish : Int => movie * wish) ⟨0, ofChars ['b'], 1⟩ [⟨ofChars ['a'], 1, by decide⟩]
      ⟨fun _ => [], fun _ => 0⟩).1) ∧
    ¬ NonemptyCalls (mainSortPlan (filterMovies (S := Int) (fun _ title => title)
      (fun movie wish : Int => movie * wish) ⟨0, ofChars ['b'], 1⟩ [⟨ofChars ['a'], 1, by decide⟩]
      ⟨fun _ => [], fun _ => 0⟩).1) := by
  rw [nonemptyCalls_iff, nonemptyCalls_iff]
  decide

end SPHomework.MovieSort
