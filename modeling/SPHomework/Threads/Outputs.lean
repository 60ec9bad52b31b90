import Mathlib.Data.Nat.Fib.Basic
import SPHomework.Threads.OwnPieces

set_option autoImplicit false

/-!
# What a thread prints

A thread that prints so many values by itself and then exits does so in every
run. `fibonacci` prints the Fibonacci numbers, unless its argument is 0.
-/

namespace SPHomework.Threads

open Lib

def intMax : Int := 2147483647

def intMin : Int := -2147483648

theorem int32_eq {value : Int} (least : intMin ≤ value) (most : value ≤ intMax) : int32 value = value := by
  simp only [intMin, intMax] at least most
  exact Int.bmod_eq_of_le (by omega) (by omega)

theorem int32_add (a b : Int) : int32 (int32 a + int32 b) = int32 (a + b) := by
  rw [int32, int32, int32, Int.bmod_add_bmod, Int.add_bmod_bmod, int32]

theorem int32_one : int32 1 = 1 := by decide

/-- At most `count` values, the right ones, and the last of them just before `thread_exit`. -/
structure Solo.Prints (solo : Solo) (count : Nat) (right : Nat → Int → Prop) : Prop where
  most : solo.values.length ≤ count
  right : ∀ index value, solo.values[index]? = some value → right index value
  all : solo.point = none → solo.values.length = count
  last : 0 < count → solo.values.length = count → solo.point = none

theorem Solo.Prints.going {solo : Solo} {count : Nat} {right : Nat → Int → Prop}
    (right_ : ∀ index value, solo.values[index]? = some value → right index value)
    (less : solo.values.length < count) (goes : solo.point ≠ none) : solo.Prints count right :=
  ⟨less.le, right_, fun stopped => absurd stopped goes, fun _ full => absurd full less.ne⟩

theorem Solo.Prints.stopped {solo : Solo} {count : Nat} {right : Nat → Int → Prop}
    (right_ : ∀ index value, solo.values[index]? = some value → right index value)
    (full : solo.values.length = count) (stopped : solo.point = none) : solo.Prints count right :=
  ⟨full.le, right_, fun _ => full, fun _ _ => stopped⟩

/-- The same of a thread in a run, which has exited when the scheduler returns. -/
structure Prints (process : Process) (func : Func) (count : Nat) (right : Nat → Int → Prop) : Prop where
  most : (printedBy process func).length ≤ count
  right : ∀ index value, (printedBy process func)[index]? = some value → right index value
  all : func ∈ process.exited → (printedBy process func).length = count
  last : 0 < count → (printedBy process func).length = count →
    func ∈ process.exited ∨ process.control = .ending func .exit
  returned : process.control = .returned → func ∈ process.exited

section

variable {inputs : Inputs} {process : Process} {func : Func}

theorem Phase.returned (phase : Phase inputs process) (created : func ∈ createdThreads inputs.args)
    (returned : process.control = .returned) : func ∈ process.exited := by
  rcases phase.cases_early with early | ⟨_, _, _, stands, -⟩ | ⟨-, ended⟩
  · rw [returned] at early
    cases early
  · rw [returned] at stands
    cases stands
  · exact (ended.exited func).mpr created

theorem Phase.prints {count : Nat} {right : Nat → Int → Prop} (phase : Phase inputs process)
    (created : func ∈ createdThreads inputs.args)
    (prints : ∀ pieces, (Threads.alone func (inputs.args func) (inputs.results func) pieces).Prints count right) :
    Prints process func count right := by
  obtain ⟨_, ⟨pieces, rfl⟩, printed, -, exited, stopped⟩ := phase.follows created
  obtain ⟨most, right, all, last⟩ := prints pieces
  rw [← printed] at most right all last
  exact ⟨most, right, fun gone => all (exited gone), fun positive full => stopped (last positive full),
    phase.returned created⟩

end

/-- In every run the thread prints so many values, the right ones. By itself it exits after some pieces of its
code, and in a run it is where as many of its own pieces get it by itself. From every state in which the threads
have been created, some further steps bring the thread to its exit. -/
structure PrintsAndExits (inputs : Inputs) (func : Func) (count : Nat) (right : Nat → Int → Prop) : Prop where
  prints : ∀ memory labels process,
    run (Process.step inputs) (Process.begin memory) labels = some process → Prints process func count right
  exits : ∃ pieces, (alone func (inputs.args func) (inputs.results func) pieces).point = none
  paced : ∀ memory labels process, run (Process.step inputs) (Process.begin memory) labels = some process →
    process.schedBuf = true → Follows inputs process func
      (alone func (inputs.args func) (inputs.results func) (ownPieces inputs func memory labels))
  leaves : ∀ memory labels process, run (Process.step inputs) (Process.begin memory) labels = some process →
    process.schedBuf = true →
      ∃ rest final, run (Process.step inputs) process rest = some final ∧ func ∈ final.exited

theorem mem_createdThreads (args : Func → Int) (func : Func) : func ∈ createdThreads args ↔ 0 ≤ args func := by
  cases func <;> simp [createdThreads]

theorem PrintsAndExits.of_alone {inputs : Inputs} {func : Func} {count : Nat} {right : Nat → Int → Prop}
    (created : 0 ≤ inputs.args func)
    (prints : ∀ pieces, (alone func (inputs.args func) (inputs.results func) pieces).Prints count right)
    (exits : ∃ pieces, (alone func (inputs.args func) (inputs.results func) pieces).point = none) :
    PrintsAndExits inputs func count right :=
  ⟨fun _ _ _ ran => (Phase.run ran).prints ((mem_createdThreads ..).mpr created) prints, exits,
    fun _ _ _ ran started => run_paced ((mem_createdThreads ..).mpr created) ran started,
    fun _ _ _ ran started => can_exit ran started ((mem_createdThreads ..).mpr created) exits⟩

/-- `fibonacci` after so many of its pieces. The first `x` is overwritten before it is read. -/
inductive Fibonacci (arg : Nat) : Nat → Solo → Prop
  | start : Fibonacci arg 0 (Solo.start .fibonacci arg)
  | next {vars : Vars} {i : Nat} (less : i + 1 < arg) (kept : vars.arg = arg) (count : vars.i = i + 1)
    (y : vars.y = int32 (Nat.fib (i + 1))) (x : 1 ≤ i → vars.x = int32 (Nat.fib i)) :
    Fibonacci arg (i + 1)
      ⟨vars, (List.range (i + 1)).map fun index => int32 (Nat.fib (index + 1)), 0, some .next⟩
  | exited {vars : Vars} {pieces : Nat} (enough : arg ≤ pieces) :
    Fibonacci arg pieces ⟨vars, (List.range arg).map fun index => int32 (Nat.fib (index + 1)), 0, none⟩

theorem fibonacci_step {arg i : Nat} {vars : Vars} (kept : vars.arg = arg) (count : vars.i = i + 1)
    (y : 1 ≤ i → vars.y = int32 (Nat.fib i)) (x : 2 ≤ i → vars.x = int32 (Nat.fib (i - 1))) :
    ∃ after, fibonacci vars =
        (after, some (int32 (Nat.fib (i + 1))), if i + 1 = arg then .exit else .yield) ∧
      after.arg = arg ∧ after.i = i + 1 ∧ after.y = int32 (Nat.fib (i + 1)) ∧
      (1 ≤ i → after.x = int32 (Nat.fib i)) := by
  have stop : vars.i = vars.arg ↔ i + 1 = arg := by omega
  by_cases first : i ≤ 1
  · have one : int32 (Nat.fib (i + 1)) = 1 := by
      interval_cases i
      · rw [Nat.fib_one, Nat.cast_one, int32_one]
      · rw [Nat.fib_two, Nat.cast_one, int32_one]
    have few : vars.i ≤ 2 := by omega
    refine ⟨{ vars with x := 1, y := 1 }, ?_, kept, count, one.symm, fun next => ?_⟩
    · simp only [fibonacci, few, if_true, one, stop]
    · obtain rfl : i = 1 := by omega
      rw [Nat.fib_one, Nat.cast_one, int32_one]
  · obtain ⟨j, rfl⟩ : ∃ j, i = j + 2 := ⟨i - 2, by omega⟩
    have many : ¬ vars.i ≤ 2 := by omega
    have sum : int32 (vars.x + vars.y) = int32 (Nat.fib (j + 2 + 1)) := by
      have recurrence : Nat.fib (j + 2 + 1) = Nat.fib (j + 2 - 1) + Nat.fib (j + 2) := Nat.fib_add_two
      rw [x (by omega), y (by omega), int32_add, recurrence, Nat.cast_add]
    refine ⟨{ vars with x := vars.y, y := int32 (vars.x + vars.y) }, ?_, kept, count, sum, fun _ => y (by omega)⟩
    simp only [fibonacci, many, if_false, sum, stop]

-- A piece that starts with `i + 1` in the loop counter.
theorem Fibonacci.body {arg i : Nat} (vars : Vars) {results : Nat → List UInt8} {solo : Solo} {point : Point}
    (less : i < arg) (kept : vars.arg = arg) (count : vars.i = i + 1)
    (y : 1 ≤ i → vars.y = int32 (Nat.fib i)) (x : 2 ≤ i → vars.x = int32 (Nat.fib (i - 1)))
    (here : solo.point = some point) (reads : solo.reads = 0) (other : point ≠ .read)
    (values : solo.values = (List.range i).map fun index => int32 (Nat.fib (index + 1)))
    (ran : code .fibonacci (results solo.reads) point solo.vars = some (fibonacci vars)) :
    Fibonacci arg (i + 1) (solo.advance .fibonacci results) := by
  obtain ⟨after, ended, kept, count, y, x⟩ := fibonacci_step kept count y x
  rw [advance_eq here (ran.trans (congrArg some ended)), if_neg other, reads, values, Option.toList_some]
  have more : ((List.range i).map fun index => int32 (Nat.fib (index + 1))) ++ [int32 (Nat.fib (i + 1))] =
      (List.range (i + 1)).map fun index => int32 (Nat.fib (index + 1)) := by
    rw [List.range_succ, List.map_append, List.map_singleton]
  rw [more]
  by_cases last : i + 1 = arg
  · rw [if_pos last, last]
    exact .exited le_rfl
  · rw [if_neg last]
    exact .next (by omega) kept count y x

theorem Fibonacci.advance {arg pieces : Nat} {solo : Solo} (positive : 1 ≤ arg) (small : (arg : Int) ≤ intMax)
    (results : Nat → List UInt8) (fibonacci : Fibonacci arg pieces solo) :
    Fibonacci arg (pieces + 1) (solo.advance .fibonacci results) := by
  cases fibonacci with
  | start =>
    exact Fibonacci.body { setupVars .fibonacci arg with i := 1 } positive rfl rfl (fun none => by omega)
      (fun none => by omega) rfl rfl (by decide) rfl rfl
  | @next vars i less kept count y x =>
    have counts : int32 (vars.i + 1) = ((i + 1 : Nat) : Int) + 1 := by
      rw [count, int32_eq] <;> simp only [intMin, intMax] at * <;> omega
    exact Fibonacci.body { vars with i := int32 (vars.i + 1) } less kept counts (fun _ => y)
      (fun more => x (by omega)) rfl rfl (by decide) rfl rfl
  | exited enough => exact .exited (by omega)

theorem alone_fibonacci {arg : Nat} (positive : 1 ≤ arg) (small : (arg : Int) ≤ intMax)
    (results : Nat → List UInt8) (pieces : Nat) :
    Fibonacci arg pieces (alone .fibonacci arg results pieces) :=
  alone_stage .fibonacci arg results (Fibonacci arg) .start
    (fun _ _ stage => stage.advance positive small results) pieces

theorem Fibonacci.prints {arg pieces : Nat} {solo : Solo} (positive : 1 ≤ arg)
    (fibonacci : Fibonacci arg pieces solo) :
    solo.Prints arg fun index value => value = int32 (Nat.fib (index + 1)) := by
  have right : ∀ count index value, ((List.range count).map fun index => int32 (Nat.fib (index + 1)))[index]? =
      some value → value = int32 (Nat.fib (index + 1)) := by
    intro count index value found
    rw [List.getElem?_map, Option.map_eq_some_iff] at found
    obtain ⟨_, inside, rfl⟩ := found
    obtain ⟨-, rfl⟩ := List.getElem?_eq_some_iff.mp inside
    rw [List.getElem_range]
  have length : ∀ count, ((List.range count).map fun index => int32 (Nat.fib (index + 1))).length = count := by
    intro count
    rw [List.length_map, List.length_range]
  cases fibonacci with
  | start => exact .going (right 0) positive (by simp [Solo.start])
  | @next _ i less => exact .going (right _) ((length (i + 1)).trans_lt less) (by simp)
  | exited => exact .stopped (right _) (length arg) rfl

theorem Fibonacci.stopped {arg pieces : Nat} {solo : Solo} (positive : 1 ≤ arg)
    (fibonacci : Fibonacci arg pieces solo) (enough : arg ≤ pieces) : solo.point = none := by
  cases fibonacci with
  | start => omega
  | next less => omega
  | exited => rfl

def fibonacciLabels : List Label := Label.steps 4 ++ [.schedule (fun _ => false) .all, .next]

-- After `init_signal` and `init_threads`, at the first entry of the scheduler.
def begun (inputs : Inputs) (memory : Func → Tcb) (sched : Sched Func) : Process :=
  { Process.begin memory with
    handlers := 2
    mask := baseMask
    control := .entry .first
    sched := { sched with rqCurrent := 0 }
    heap := fun func => ⟨setupVars func (inputs.args func), (func, .setup)⟩
    schedBuf := true }

theorem run_begun (inputs : Inputs) (memory : Func → Tcb) {sched : Sched Func}
    (made : initThreads (createdThreads inputs.args) = some sched) :
    run (Process.step inputs) (Process.begin memory) (Label.steps 4) = some (begun inputs memory sched) := by
  change some (Process.createThreads inputs _) = _
  rw [Process.createThreads, made]
  rfl

-- `fibonacci` is created first.
theorem fibonacci_first {args : Func → Int} (created : 0 ≤ args .fibonacci) :
    ∃ sched, initThreads (createdThreads args) = some sched ∧
      sched.readyQueue 0 = some .fibonacci ∧ sched.wqSize = 0 := by
  obtain ⟨rest, same, short⟩ : ∃ rest, createdThreads args = .fibonacci :: rest ∧ rest.length ≤ 2 := by
    refine ⟨[Func.collatz, .maxSubarray].filter fun func => 0 ≤ args func, ?_, List.length_filter_le ..⟩
    exact List.filter_cons_of_pos (by simp [created])
  rw [same]
  match rest, short with
  | [], _ => exact ⟨_, rfl, rfl, rfl⟩
  | [a], _ => exact ⟨_, rfl, rfl, rfl⟩
  | [a, b], _ => exact ⟨_, rfl, rfl, rfl⟩

theorem begun_schedule (inputs : Inputs) (memory : Func → Tcb) {sched : Sched Func} {thread : Func}
    (polled : FdSet) (blocking : Blocking) (nobody : sched.wqSize = 0)
    (first : sched.readyQueue 0 = some thread) :
    (begun inputs memory sched).step inputs (.schedule polled blocking) =
      some ((begun inputs memory sched).go (.code thread .start)) := by
  obtain ⟨ready, waiting, rqSize, rqCurrent, wqSize⟩ := sched
  obtain rfl : wqSize = 0 := nobody
  have runs : running (begun inputs memory ⟨ready, waiting, rqSize, rqCurrent, 0⟩).sched = some thread := first
  have ran : scheduler inputs.fd .first polled blocking
      (begun inputs memory ⟨ready, waiting, rqSize, rqCurrent, 0⟩).sched =
        some ((begun inputs memory ⟨ready, waiting, rqSize, rqCurrent, 0⟩).sched, .dispatch thread) := by
    change dispatch _ = _
    rw [dispatch, runs]
    rfl
  change some (Process.leave _ (scheduler inputs.fd .first _ _ _)) = _
  rw [ran]
  rfl

-- The test of the loop counter comes after the output, and the counter is 1 by then.
theorem fibonacci_of_zero (inputs : Inputs) (memory : Func → Tcb) (zero : inputs.args .fibonacci = 0) :
    ∃ process, run (Process.step inputs) (Process.begin memory) fibonacciLabels = some process ∧
      printedBy process .fibonacci = [1] ∧ process.control = .ending .fibonacci .yield := by
  obtain ⟨sched, made, first, nobody⟩ := fibonacci_first zero.ge
  have setup := run_begun inputs memory made
  have enters := begun_schedule inputs memory (fun _ => false) .all nobody first
  have runs : running (begun inputs memory sched).sched = some .fibonacci := first
  have code : ((begun inputs memory sched).go (.code .fibonacci .start)).step inputs .next =
      ((begun inputs memory sched).go (.code .fibonacci .start)).runCode inputs .fibonacci .start .fibonacci := by
    simp only [Process.step, Process.next, Process.go, runs]
  obtain ⟨process, taken, output, control⟩ : ∃ process,
      ((begun inputs memory sched).go (.code .fibonacci .start)).step inputs .next = some process ∧
        process.output = [(0, 1)] ∧ process.control = .ending .fibonacci .yield := by
    rw [code]
    refine ⟨_, rfl, rfl, ?_⟩
    change Control.ending _ (if (1 : Int) = inputs.args .fibonacci then _ else _) = _
    rw [zero]
    rfl
  refine ⟨process, ?_, by rw [printedBy, output]; rfl, control⟩
  rw [fibonacciLabels, run_append]
  exact ⟨_, setup, (run_cons ..).mpr ⟨_, enters, (run_cons ..).mpr ⟨process, taken, rfl⟩⟩⟩

theorem not_prints_none {process : Process} {func : Func} {right : Nat → Int → Prop} {value : Int}
    (printed : printedBy process func = [value]) : ¬ Prints process func 0 right := by
  intro prints
  have most := prints.most
  rw [printed] at most
  cases most

/-- `init_threads` creates the thread for every argument from 0 on. The values are counted from 0. -/
theorem fibonacci_prints_iff (inputs : Inputs) (created : 0 ≤ inputs.args .fibonacci)
    (small : inputs.args .fibonacci ≤ intMax) :
    PrintsAndExits inputs .fibonacci (inputs.args .fibonacci).toNat
        (fun index value => value = int32 (Nat.fib (index + 1))) ↔
      1 ≤ inputs.args .fibonacci := by
  constructor
  · intro prints
    by_contra less
    have zero : inputs.args .fibonacci = 0 := by omega
    obtain ⟨process, ran, printed, -⟩ := fibonacci_of_zero inputs memory0 zero
    rw [zero] at prints
    exact not_prints_none printed (prints.prints _ _ _ ran)
  · intro positive
    obtain ⟨arg, same⟩ := Int.eq_ofNat_of_zero_le created
    have loop : ∀ pieces, Fibonacci arg pieces (alone .fibonacci arg (inputs.results .fibonacci) pieces) :=
      alone_fibonacci (by omega) (by omega) (inputs.results .fibonacci)
    have natural : (inputs.args .fibonacci).toNat = arg := by omega
    rw [← same] at loop
    rw [natural]
    exact .of_alone created (fun pieces => (loop pieces).prints (by omega))
      ⟨arg, (loop arg).stopped (by omega) le_rfl⟩

theorem fibonacci_prints_iff_two :
    PrintsAndExits aloneInputs .fibonacci 2 fun index value => value = int32 (Nat.fib (index + 1)) :=
  (fibonacci_prints_iff aloneInputs (by decide) (by decide)).mpr (by decide)

def zeroInputs : Inputs where
  args func := if func = .fibonacci then 0 else -1
  results _ _ := []
  fd _ := 3

theorem fibonacci_prints_for_zero : ∃ process,
    run (Process.step zeroInputs) (Process.begin memory0) fibonacciLabels = some process ∧
    printedBy process .fibonacci = [1] ∧ process.control = .ending .fibonacci .yield ∧
    ¬ PrintsAndExits zeroInputs .fibonacci 0 fun index value => value = int32 (Nat.fib (index + 1)) := by
  obtain ⟨process, ran, printed, control⟩ := fibonacci_of_zero zeroInputs memory0 rfl
  exact ⟨process, ran, printed, control, fun prints => not_prints_none printed (prints.prints _ _ _ ran)⟩

end SPHomework.Threads
