import SPHomework.Lib.BestBlock
import SPHomework.Threads.Reads

set_option autoImplicit false

/-!
# The running maxima of `max_subarray`

With full records the thread prints the best block of the numbers so far, after
each of them.
-/

namespace SPHomework.Threads

open Lib

def firstNumbers (numbers : Nat → Int) (count : Nat) : List Int := (List.range count).map numbers

/-- The first records, each of them in one read. -/
structure Delivers (results : Nat → List UInt8) (numbers : Nat → Int) (count : Nat) : Prop where
  full : ∀ index < count, (results index).length = 5
  number : ∀ index < count, atoi (results index) = numbers index

-- `int` holds the sum of every block.
def Exact (numbers : List Int) : Prop := ∀ sum ∈ blockSums numbers, intMin ≤ sum ∧ sum ≤ intMax

/-- The two sums after so many numbers. -/
structure Sums (numbers : Nat → Int) (count : Nat) (vars : Vars) : Prop where
  sound : Sound vars
  ending : IsBestEnding (firstNumbers numbers count) vars.x
  best : IsBest (firstNumbers numbers count) vars.y

structure Maxima (numbers : Nat → Int) (count : Nat) (values : List Int) : Prop where
  length : values.length = count
  best : ∀ index value, values[index]? = some value → IsBest (firstNumbers numbers (index + 1)) value

/-- `max_subarray` after so many of its pieces, two for each number. -/
inductive MaxSubarray (numbers : Nat → Int) (arg : Nat) : Nat → Solo → Prop
  | start : MaxSubarray numbers arg 0 (Solo.start .maxSubarray arg)
  | read {vars : Vars} {values : List Int} {count : Nat} (less : count < arg) (kept : vars.arg = arg)
    (counts : vars.i = count + 1) (sums : Sums numbers count vars) (maxima : Maxima numbers count values) :
    MaxSubarray numbers arg (2 * count + 1) ⟨vars, values, count, some .read⟩
  | next {vars : Vars} {values : List Int} {count : Nat} (less : count + 1 < arg) (kept : vars.arg = arg)
    (counts : vars.i = count + 1) (sums : Sums numbers (count + 1) vars)
    (maxima : Maxima numbers (count + 1) values) :
    MaxSubarray numbers arg (2 * (count + 1)) ⟨vars, values, count + 1, some .next⟩
  | exited {vars : Vars} {values : List Int} {pieces : Nat} (enough : 2 * arg ≤ pieces)
    (maxima : Maxima numbers arg values) : MaxSubarray numbers arg pieces ⟨vars, values, arg, none⟩

theorem firstNumbers_succ (numbers : Nat → Int) (count : Nat) :
    firstNumbers numbers (count + 1) = firstNumbers numbers count ++ [numbers count] := by
  rw [firstNumbers, List.range_succ, List.map_append, List.map_singleton, firstNumbers]

theorem firstNumbers_le (numbers : Nat → Int) {few more : Nat} (less : few ≤ more) :
    firstNumbers numbers few <+: firstNumbers numbers more := by
  induction less with
  | refl => exact List.prefix_rfl
  | step _ ih => exact ih.trans (firstNumbers_succ numbers _ ▸ List.prefix_append _ _)

theorem Maxima.snoc {numbers : Nat → Int} {count : Nat} {values : List Int} {best : Int}
    (maxima : Maxima numbers count values) (last : IsBest (firstNumbers numbers (count + 1)) best) :
    Maxima numbers (count + 1) (values ++ [best]) := by
  refine ⟨by rw [List.length_append, maxima.length]; rfl, fun index value found => ?_⟩
  rcases Nat.lt_trichotomy index count with before | rfl | after
  · rw [List.getElem?_append_left (by rw [maxima.length]; exact before)] at found
    exact maxima.best index value found
  · rw [← maxima.length, List.getElem?_concat_length] at found
    obtain rfl := Option.some.inj found
    exact last
  · rw [List.getElem?_eq_none (by rw [List.length_append, maxima.length]; exact after)] at found
    cases found

-- The sums of the code are those of the blocks while `int` holds them.
theorem Sums.read {numbers : Nat → Int} {count : Nat} {vars : Vars} {bytes : List UInt8}
    (sums : Sums numbers count vars) (full : bytes.length = 5) (number : atoi bytes = numbers count)
    (exact_ : Exact (firstNumbers numbers (count + 1))) :
    ∃ after, maxSubarrayRead bytes vars = (after, some after.y, if vars.arg ≤ vars.i then .exit else .yield) ∧
      Sums numbers (count + 1) after ∧ after.arg = vars.arg ∧ after.i = vars.i := by
  obtain ⟨sound, ending, best⟩ := sums
  have more : vars.x + numbers count ∈ blockSums (firstNumbers numbers (count + 1)) := by
    obtain ⟨block, inside, -, same⟩ := ending.1
    rw [firstNumbers_succ]
    exact endingSums_subset _ ((mem_endingSums_snoc ..).mpr ⟨block, inside, by rw [same]⟩)
  have sum : readSum bytes vars = max (vars.x + numbers count) (numbers count) := by
    obtain ⟨least, most⟩ := exact_ _ more
    rw [readSum, readNumber_full sound full, number, int32_eq least most]
  have here := ending.snoc (numbers count)
  rw [← sum, ← firstNumbers_succ] at here
  have after := sound.read bytes
  rw [maxSubarrayRead_eq] at after ⊢
  refine ⟨_, rfl, ⟨after, here, ?_⟩, rfl, rfl⟩
  rw [firstNumbers_succ] at here ⊢
  exact best.snoc here

-- Before a read. The first time the sums are set to 0.
theorem Sums.body {numbers : Nat → Int} {count : Nat} {vars : Vars} (sums : Sums numbers count vars)
    (counts : vars.i = count + 1) :
    ∃ after, maxSubarray vars = (after, none, .asyncRead) ∧ Sums numbers count after ∧
      after.arg = vars.arg ∧ after.i = vars.i := by
  obtain ⟨sound, ending, best⟩ := sums
  by_cases first : vars.i = 1
  · obtain rfl : count = 0 := by omega
    refine ⟨{ vars with x := 0, y := 0 }, ?_, ⟨⟨rfl, le_rfl, le_rfl, sound.unread⟩, isBestEnding_nil, isBest_nil⟩,
      rfl, rfl⟩
    simp only [maxSubarray, first, if_true]
  · refine ⟨vars, ?_, ⟨sound, ending, best⟩, rfl, rfl⟩
    simp only [maxSubarray, first, if_false]

theorem Sums.counted {numbers : Nat → Int} {count : Nat} {vars : Vars} (sums : Sums numbers count vars) (i : Int) :
    Sums numbers count { vars with i := i } :=
  ⟨⟨sums.sound.fits, sums.sound.most, sums.sound.positive, sums.sound.unread⟩, sums.ending, sums.best⟩

theorem sums_setup (numbers : Nat → Int) (arg : Int) : Sums numbers 0 (setupVars .maxSubarray arg) :=
  ⟨alone_sound arg (fun _ => []) 0, isBestEnding_nil, isBest_nil⟩

section

variable {numbers : Nat → Int} {arg pieces : Nat} {results : Nat → List UInt8}

-- A piece that starts with `count + 1` in the loop counter goes as far as the read.
theorem MaxSubarray.body {count : Nat} {solo : Solo} {point : Point} (vars : Vars) (less : count < arg)
    (kept : vars.arg = arg) (counts : vars.i = count + 1) (sums : Sums numbers count vars)
    (maxima : Maxima numbers count solo.values) (here : solo.point = some point) (other : point ≠ .read)
    (reads : solo.reads = count)
    (ran : code .maxSubarray (results solo.reads) point solo.vars = some (maxSubarray vars)) :
    MaxSubarray numbers arg (2 * count + 1) (solo.advance .maxSubarray results) := by
  obtain ⟨after, ended, sums, kept', counts'⟩ := sums.body counts
  rw [advance_eq here (ran.trans (congrArg some ended)), if_neg other, reads, Option.toList_none, List.append_nil]
  exact .read less (kept'.trans kept) (counts'.trans counts) sums maxima

theorem MaxSubarray.advance {solo : Solo} (positive : 1 ≤ arg) (small : (arg : Int) ≤ intMax)
    (delivers : Delivers results numbers arg) (exact_ : Exact (firstNumbers numbers arg))
    (stage : MaxSubarray numbers arg pieces solo) :
    MaxSubarray numbers arg (pieces + 1) (solo.advance .maxSubarray results) := by
  cases stage with
  | start =>
    exact MaxSubarray.body { setupVars .maxSubarray arg with i := 1 } positive rfl rfl
      ((sums_setup numbers arg).counted 1) ⟨rfl, fun _ _ found => by cases found⟩ rfl (by decide) rfl rfl
  | @next vars values count less kept counts sums maxima =>
    have increment : int32 (vars.i + 1) = ((count + 1 : Nat) : Int) + 1 := by
      rw [counts, int32_eq] <;> simp only [intMin, intMax] at * <;> omega
    exact MaxSubarray.body { vars with i := int32 (vars.i + 1) } less kept increment (sums.counted _) maxima rfl
      (by decide) rfl rfl
  | @read vars values count less kept counts sums maxima =>
    have few := (firstNumbers_le numbers (Nat.succ_le_of_lt less)).isInfix
    obtain ⟨after, ended, sums, kept', counts'⟩ := sums.read (delivers.full count less)
      (delivers.number count less) fun sum member => exact_ sum (blockSums_mono few member)
    have ran : code .maxSubarray (results count) .read vars =
        some (after, some after.y, if vars.arg ≤ vars.i then .exit else .yield) := congrArg some ended
    have maxima := maxima.snoc sums.best
    rw [advance_eq rfl ran, if_pos rfl, Option.toList_some]
    by_cases last : count + 1 = arg
    · rw [if_pos (by omega)]
      exact last ▸ .exited (by omega) maxima
    · rw [if_neg (by omega)]
      exact .next (by omega) (kept'.trans kept) (counts'.trans counts) sums maxima
  | exited enough maxima => exact .exited (by omega) maxima

-- Two pieces for each number are enough.
theorem MaxSubarray.stopped {solo : Solo} (stage : MaxSubarray numbers arg pieces solo) (all : pieces = 2 * arg)
    (positive : 1 ≤ arg) : solo.point = none := by
  cases stage with
  | exited => rfl
  | start => omega
  | _ => omega

theorem MaxSubarray.prints {solo : Solo} (positive : 1 ≤ arg) (stage : MaxSubarray numbers arg pieces solo) :
    solo.Prints arg (fun index value => IsBest (firstNumbers numbers (index + 1)) value) ∧
      solo.reads = solo.values.length := by
  cases stage with
  | start => exact ⟨.going (fun _ _ found => by cases found) positive (by simp [Solo.start]), rfl⟩
  | read less _ _ _ maxima =>
    exact ⟨.going maxima.best (maxima.length.trans_lt less) (by simp), maxima.length.symm⟩
  | next less _ _ _ maxima =>
    exact ⟨.going maxima.best (maxima.length.trans_lt less) (by simp), maxima.length.symm⟩
  | exited _ maxima => exact ⟨.stopped maxima.best maxima.length rfl, maxima.length.symm⟩

end

end SPHomework.Threads
