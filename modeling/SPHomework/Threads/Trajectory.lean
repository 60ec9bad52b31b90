import SPHomework.Threads.Pieces

set_option autoImplicit false

/-!
# What `collatz` prints

The exact trajectory of the argument as long as it stays in the range of `int`.
The loop counter is an `int` too, and the thread starts again when it is 1.
-/

namespace SPHomework.Threads

open Lib

-- The Collatz map on exact integers.
def collatzMap (n : Int) : Int := if n % 2 = 0 then n / 2 else 3 * n + 1

def trajectory (start : Int) (count : Nat) : Int := collatzMap^[count] start

theorem trajectory_succ (start : Int) (count : Nat) :
    trajectory start (count + 1) = collatzMap (trajectory start count) :=
  Function.iterate_succ_apply' _ _ _

theorem collatzMap_pos {n : Int} (positive : 1 ≤ n) : 1 ≤ collatzMap n := by
  unfold collatzMap
  split <;> omega

theorem trajectory_pos {start : Int} (positive : 1 ≤ start) (count : Nat) : 1 ≤ trajectory start count := by
  induction count with
  | zero => exact positive
  | succ count ih =>
    rw [trajectory_succ]
    exact collatzMap_pos ih

theorem int32_range (value : Int) : intMin ≤ int32 value ∧ int32 value ≤ intMax := by
  have low := Int.le_bmod (x := value) (m := 4294967296) (by decide)
  have high := Int.bmod_lt (x := value) (m := 4294967296) (by decide)
  simp only [intMin, intMax, int32]
  omega

-- Where round `count + 1` starts from: the loop counter is 1 there in every 2^32-th round.
def source (start : Int) (count : Nat) : Int :=
  if 4294967296 ∣ count then start else trajectory start count

/-- The value of round `count + 1` in 32 bits. -/
def printed32 (start : Int) (count : Nat) : Int := int32 (collatzMap (source start count))

/-- The body of the loop: the map, reduced to 32 bits. -/
theorem collatz_body (vars : Vars) (n : Int) (positive : 1 ≤ n) (small : n ≤ intMax)
    (from_ : (if vars.i = 1 then vars.arg else vars.x) = n) :
    ∃ after, collatz vars =
        (after, some (int32 (collatzMap n)), if int32 (collatzMap n) = 1 then .exit else .yield) ∧
      after.arg = vars.arg ∧ after.i = vars.i ∧ after.x = int32 (collatzMap n) := by
  obtain ⟨tcb, begins⟩ : ∃ tcb, tcb = if vars.i = 1 then { vars with x := vars.arg } else vars := ⟨_, rfl⟩
  have kept : tcb.arg = vars.arg ∧ tcb.i = vars.i ∧ tcb.x = n := by
    rw [begins, ← from_]
    split <;> exact ⟨rfl, rfl, rfl⟩
  obtain ⟨arg, i, x⟩ := kept
  have stepped : (if tcb.x.tmod 2 = 0 then { tcb with x := tcb.x.tdiv 2 }
      else { tcb with x := int32 (int32 (tcb.x * 3) + 1) }) = { tcb with x := int32 (collatzMap n) } := by
    rw [x, collatzMap, Int.tmod_eq_emod_of_nonneg (by omega), Int.tdiv_eq_ediv_of_nonneg (by omega)]
    by_cases even : n % 2 = 0
    · have half : int32 (n / 2) = n / 2 := int32_eq (by simp only [intMin]; omega) (by omega)
      rw [if_pos even, if_pos even, half]
    · have sum : int32 (int32 (n * 3) + 1) = int32 (3 * n + 1) := by
        have reduced := int32_add (n * 3) 1
        rw [int32_one] at reduced
        rw [reduced, Int.mul_comm]
      rw [if_neg even, if_neg even, sum]
  refine ⟨{ tcb with x := int32 (collatzMap n) }, ?_, arg, i, rfl⟩
  simp only [collatz, ← begins, stepped]

-- No 1 in the first steps.
def Unfinished (start : Int) (count : Nat) : Prop := ∀ j, 1 ≤ j → j ≤ count → trajectory start j ≠ 1

theorem Unfinished.mono {start : Int} {few more : Nat} (unfinished : Unfinished start more) (less : few ≤ more) :
    Unfinished start few := fun j low high => unfinished j low (high.trans less)

def exactValues (start : Int) (count : Nat) : List Int :=
  (List.range count).map fun index => trajectory start (index + 1)

/-- `collatz` after so many rounds, all of them exact and none with a 1. -/
structure Going (start : Int) (count : Nat) (solo : Solo) : Prop where
  values : solo.values = exactValues start count
  arg : solo.vars.arg = start
  place : count = 0 ∧ solo.point = some .start ∨
    1 ≤ count ∧ solo.point = some .next ∧ solo.vars.i = int32 count ∧ solo.vars.x = trajectory start count

theorem counter_one (count : Nat) : int32 (count + 1) = 1 ↔ 4294967296 ∣ count := by
  simp only [int32, Int.bmod_def]
  split <;> omega

/-- One round: what it prints, whatever the exact value is. -/
theorem Going.round {start : Int} {count : Nat} {solo : Solo} (going : Going start count solo)
    (positive : 1 ≤ start) (small : start ≤ intMax) (small' : trajectory start count ≤ intMax)
    (results : Nat → List UInt8) :
    ∃ after, (solo.advance .collatz results).values = exactValues start count ++ [printed32 start count] ∧
      (solo.advance .collatz results).vars = after ∧
      (solo.advance .collatz results).point = (if printed32 start count = 1 then none else some .next) ∧
      after.arg = start ∧ after.i = int32 (count + 1) ∧ after.x = printed32 start count := by
  have positive' := trajectory_pos positive count
  obtain ⟨point, vars, here, ran, arg, i, from_⟩ : ∃ point vars, solo.point = some point ∧
      code .collatz (results solo.reads) point solo.vars = some (collatz vars) ∧ vars.arg = start ∧
      vars.i = int32 (count + 1) ∧ (if vars.i = 1 then vars.arg else vars.x) = source start count := by
    rcases going.place with ⟨rfl, here⟩ | ⟨_, here, i, x⟩
    · exact ⟨.start, { solo.vars with i := 1 }, here, rfl, going.arg, rfl, going.arg⟩
    · have counts : int32 (solo.vars.i + 1) = int32 (count + 1) := by
        have reduced := int32_add count 1
        rwa [int32_one, ← i] at reduced
      refine ⟨.next, { solo.vars with i := int32 (solo.vars.i + 1) }, here, rfl, going.arg, counts, ?_⟩
      simp only [counts, counter_one, source, going.arg, x]
  have inRange : 1 ≤ source start count ∧ source start count ≤ intMax := by
    unfold source
    split
    · exact ⟨positive, small⟩
    · exact ⟨positive', small'⟩
  obtain ⟨after, ended, arg', i', x⟩ := collatz_body vars _ inRange.1 inRange.2 from_
  rw [← printed32] at ended x
  rw [advance_eq here (ran.trans (congrArg some ended)), going.values]
  refine ⟨after, rfl, rfl, ?_, arg'.trans arg, i'.trans i, x⟩
  by_cases one : printed32 start count = 1 <;> simp [one, Act.point]

theorem exactValues_succ (start : Int) (count : Nat) :
    exactValues start (count + 1) = exactValues start count ++ [trajectory start (count + 1)] := by
  rw [exactValues, List.range_succ, List.map_append]
  rfl

theorem exactValues_get (start : Int) (count index : Nat) (value : Int)
    (found : (exactValues start count)[index]? = some value) : value = trajectory start (index + 1) := by
  rw [exactValues, List.getElem?_map, Option.map_eq_some_iff] at found
  obtain ⟨_, inside, rfl⟩ := found
  obtain ⟨-, rfl⟩ := List.getElem?_eq_some_iff.mp inside
  rw [List.getElem_range]

/-- Rounds that print the exact values. -/
def RoundExact (start : Int) (count : Nat) : Prop := printed32 start count = trajectory start (count + 1)

theorem RoundExact.small {start : Int} {count : Nat} (exact_ : RoundExact start count) :
    trajectory start (count + 1) ≤ intMax := by
  rw [← exact_]
  exact (int32_range _).2

theorem trajectory_small {start : Int} (small : start ≤ intMax) (count : Nat)
    (exacts : ∀ j < count, RoundExact start j) : trajectory start count ≤ intMax := by
  cases count with
  | zero => exact small
  | succ count => exact (exacts count (Nat.lt_succ_self count)).small

theorem Going.next {start : Int} {count : Nat} {solo : Solo} (going : Going start count solo)
    (positive : 1 ≤ start) (small : start ≤ intMax) (small' : trajectory start count ≤ intMax)
    (exact_ : RoundExact start count) (other : trajectory start (count + 1) ≠ 1) (results : Nat → List UInt8) :
    Going start (count + 1) (solo.advance .collatz results) := by
  obtain ⟨after, values, vars, point, arg, i, x⟩ := going.round positive small small' results
  rw [exact_] at values point x
  rw [if_neg other] at point
  refine ⟨?_, vars ▸ arg, .inr ⟨by omega, point, ?_, vars ▸ x⟩⟩
  · rw [values, exactValues_succ]
  · rw [vars, i]
    simp

theorem alone_going {start : Int} (positive : 1 ≤ start) (small : start ≤ intMax) (results : Nat → List UInt8)
    (count : Nat) (exacts : ∀ j < count, RoundExact start j) (unfinished : Unfinished start count) :
    Going start count (alone .collatz start results count) := by
  induction count with
  | zero => exact ⟨rfl, rfl, .inl ⟨rfl, rfl⟩⟩
  | succ count ih =>
    have going := ih (fun j less => exacts j (by omega)) (unfinished.mono (by omega))
    have small' := trajectory_small small count fun j less => exacts j (by omega)
    rw [alone_succ]
    exact going.next positive small small' (exacts count (by omega))
      (unfinished (count + 1) (by omega) le_rfl) results

/-- The trajectory stays in the range of `int` up to its first 1; and where 2^32 rounds have passed
without a 1, so that the loop counter is 1 again, it is back at its first value. -/
def InRange (start : Int) : Prop :=
  ∀ count, Unfinished start count →
    trajectory start (count + 1) ≤ intMax ∧
      (4294967296 ∣ count → trajectory start (count + 1) = trajectory start 1)

theorem trajectory_int32 {start : Int} (positive : 1 ≤ start) {count : Nat} (most : trajectory start count ≤ intMax) :
    int32 (trajectory start count) = trajectory start count := by
  have low := trajectory_pos positive count
  exact int32_eq (by simp only [intMin]; omega) most

theorem printed32_again {start : Int} {count : Nat} (again : 4294967296 ∣ count) :
    printed32 start count = int32 (trajectory start 1) := by
  rw [printed32, source, if_pos again]
  rfl

theorem printed32_next {start : Int} {count : Nat} (other : ¬ 4294967296 ∣ count) :
    printed32 start count = int32 (trajectory start (count + 1)) := by
  rw [printed32, source, if_neg other, trajectory_succ]

theorem RoundExact.again {start : Int} {count : Nat} (exact_ : RoundExact start count) (positive : 1 ≤ start)
    (first : RoundExact start 0) (again : 4294967296 ∣ count) : trajectory start (count + 1) = trajectory start 1 := by
  rw [← exact_, printed32_again again]
  exact trajectory_int32 positive first.small

theorem roundExact_of {start : Int} {count : Nat} (positive : 1 ≤ start) (most : trajectory start (count + 1) ≤ intMax)
    (back : 4294967296 ∣ count → trajectory start (count + 1) = trajectory start 1) : RoundExact start count := by
  have same : printed32 start count = int32 (trajectory start (count + 1)) := by
    by_cases again : 4294967296 ∣ count
    · rw [printed32_again again, back again]
    · exact printed32_next again
  rw [RoundExact, same]
  exact trajectory_int32 positive most

/-- In every run with this argument, whatever else runs, the thread prints its exact trajectory. -/
def PrintsTrajectory (start : Int) : Prop :=
  ∀ (inputs : Inputs) (memory : Func → Tcb) (labels : List Label) (process : Process),
    inputs.args .collatz = start →
    run (Process.step inputs) (Process.begin memory) labels = some process →
    ∀ index value, (printedBy process .collatz)[index]? = some value → value = trajectory start (index + 1)

-- Collatz as the only thread.
def collatzInputs (start : Int) : Inputs where
  args func := if func = .collatz then start else -1
  results _ _ := []
  fd _ := 3

theorem exists_round {start : Int} (positive : 1 ≤ start) (small : start ≤ intMax) (count : Nat)
    (exacts : ∀ j < count, RoundExact start j) (unfinished : Unfinished start count) :
    ∃ labels process,
      run (Process.step (collatzInputs start)) (Process.begin memory0) labels = some process ∧
      printedBy process .collatz = exactValues start count ++ [printed32 start count] := by
  have only : createdThreads (collatzInputs start).args = [.collatz] := by
    have created : (0 : Int) ≤ start := by omega
    simp [createdThreads, collatzInputs, created]
  have loop : ∀ rounds ≤ count, Going start rounds (alone .collatz start (fun _ => []) rounds) := fun rounds less =>
    alone_going positive small _ rounds (fun j below => exacts j (by omega)) (unfinished.mono less)
  have goes : ∀ rounds < count, (alone .collatz start (fun _ => []) (rounds + 1)).point = some .next := by
    intro rounds less
    rcases (loop (rounds + 1) less).place with ⟨none, _⟩ | ⟨_, point, _⟩
    · cases none
    · exact point
  have small' := trajectory_small small count exacts
  obtain ⟨_, values, _⟩ := (loop count le_rfl).round positive small small' fun _ => []
  obtain ⟨labels, process, ran, printed⟩ := exists_printed (collatzInputs start) memory0 only count goes
  refine ⟨labels, process, ran, ?_⟩
  rw [printed, alone_succ]
  exact values

-- What all runs print settles every round up to the first 1.
theorem PrintsTrajectory.exacts {start : Int} (prints : PrintsTrajectory start) (positive : 1 ≤ start)
    (small : start ≤ intMax) (count : Nat) (unfinished : Unfinished start count) : RoundExact start count := by
  induction count using Nat.strong_induction_on with
  | _ count ih =>
    obtain ⟨labels, process, ran, printed⟩ := exists_round positive small count
      (fun j less => ih j less (unfinished.mono less.le)) unfinished
    refine prints (collatzInputs start) memory0 labels process rfl ran count _ ?_
    have length : (exactValues start count).length = count := by simp [exactValues]
    rw [printed, List.getElem?_append_right length.le, length, Nat.sub_self]
    rfl

/-- By itself, the thread goes on with the trajectory, or has exited with its first 1. -/
inductive Collatz (start : Int) (pieces : Nat) (solo : Solo) : Prop
  | going (unfinished : Unfinished start pieces) (going : Going start pieces solo)
  | exited {count : Nat} (one : trajectory start count = 1) (values : solo.values = exactValues start count)
    (exited : solo.point = none)

theorem Collatz.advance {start : Int} {pieces : Nat} {solo : Solo} (positive : 1 ≤ start) (small : start ≤ intMax)
    (exacts : ∀ count, Unfinished start count → RoundExact start count) (results : Nat → List UInt8)
    (collatz : Collatz start pieces solo) : Collatz start (pieces + 1) (solo.advance .collatz results) := by
  cases collatz with
  | going unfinished going =>
    have here := exacts pieces unfinished
    have small' := trajectory_small small pieces fun j less => exacts j (unfinished.mono less.le)
    by_cases one : trajectory start (pieces + 1) = 1
    · obtain ⟨_, values, _, point, _⟩ := going.round positive small small' results
      rw [here] at values point
      refine .exited one ?_ (by rw [point, if_pos one])
      rw [values, exactValues_succ]
    · refine .going (fun j low high => ?_) (going.next positive small small' here one results)
      by_cases last : j = pieces + 1
      · exact last ▸ one
      · exact unfinished j low (by omega)
  | exited one values exited =>
    rw [Solo.advance, exited]
    exact .exited one values exited

theorem InRange.exacts {start : Int} (inRange : InRange start) (positive : 1 ≤ start) (count : Nat)
    (unfinished : Unfinished start count) : RoundExact start count := by
  obtain ⟨most, back⟩ := inRange count unfinished
  exact roundExact_of positive most back

theorem alone_collatz {start : Int} (positive : 1 ≤ start) (small : start ≤ intMax) (inRange : InRange start)
    (results : Nat → List UInt8) (pieces : Nat) : Collatz start pieces (alone .collatz start results pieces) :=
  alone_stage .collatz start results (Collatz start)
    (.going (fun j low high => by omega) ⟨rfl, rfl, .inl ⟨rfl, rfl⟩⟩)
    (fun _ _ collatz => collatz.advance positive small (inRange.exacts positive) results) pieces

theorem Collatz.values {start : Int} {pieces : Nat} {solo : Solo} (collatz : Collatz start pieces solo) :
    ∃ count, solo.values = exactValues start count := by
  cases collatz with
  | going _ going => exact ⟨pieces, going.values⟩
  | exited _ values => exact ⟨_, values⟩

/-- The thread prints the exact trajectory exactly if that stays in the range of `int`. -/
theorem collatz_prints_iff (start : Int) (positive : 1 ≤ start) (small : start ≤ intMax) :
    PrintsTrajectory start ↔ InRange start := by
  constructor
  · intro prints count unfinished
    have first := prints.exacts positive small 0 (unfinished.mono (Nat.zero_le _))
    have here := prints.exacts positive small count unfinished
    exact ⟨here.small, here.again positive first⟩
  · intro inRange inputs memory labels process arg ran index value found
    have created : Func.collatz ∈ createdThreads inputs.args := by
      rw [mem_createdThreads, arg]
      omega
    obtain ⟨_, ⟨pieces, rfl⟩, printed, _⟩ := (Phase.run ran).follows created
    obtain ⟨count, values⟩ := (alone_collatz positive small inRange (inputs.results .collatz) pieces).values
    rw [printed, arg, values] at found
    exact exactValues_get start count index value found

theorem collatz_prints_iff_three : PrintsTrajectory 3 := by
  refine (collatz_prints_iff 3 (by decide) (by decide)).mpr fun count unfinished => ?_
  have short : count < 7 := by
    by_contra long
    exact unfinished 7 (by decide) (by omega) (by decide)
  interval_cases count <;> decide

-- The trajectory of 113383 leaves the range in step 120.
theorem collatz_overflows :
    (∃ labels process,
      run (Process.step (collatzInputs 113383)) (Process.begin memory0) labels = some process ∧
      (printedBy process .collatz)[119]? = some (-1812855948) ∧ trajectory 113383 120 = 2482111348) ∧
    ¬ PrintsTrajectory 113383 := by
  have steps : ∀ j < 120, 1 ≤ j → trajectory 113383 j ≠ 1 := by decide +kernel
  have exacts : ∀ j < 119, printed32 113383 j = trajectory 113383 (j + 1) := by decide +kernel
  have wrapped : printed32 113383 119 = -1812855948 := by decide +kernel
  have large : trajectory 113383 120 = 2482111348 := by decide +kernel
  obtain ⟨labels, process, ran, printed⟩ := exists_round (by decide) (by decide) 119 exacts
    fun j low high => steps j (by omega) low
  have shown : (printedBy process .collatz)[119]? = some (-1812855948) := by
    have length : (exactValues 113383 119).length = 119 := by simp [exactValues]
    rw [printed, List.getElem?_append_right length.le, length, wrapped]
    rfl
  refine ⟨⟨labels, process, ran, shown, large⟩, fun prints => ?_⟩
  have equal := prints (collatzInputs 113383) memory0 labels process rfl ran 119 _ shown
  rw [large] at equal
  cases equal

end SPHomework.Threads
