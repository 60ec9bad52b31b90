import SPHomework.Threads.Overwritten
import SPHomework.Threads.Trajectory

set_option autoImplicit false

/-!
# The whole program

With arguments that the three functions are meant for, every run ends, and then
each thread has printed exactly its numbers.
-/

namespace SPHomework.Threads

open Lib

/-- Arguments and records for which a thread prints what it is meant to: `numbers` are the numbers in the
records, and the trajectory of `col_arg` is at 1 for the first time after `last` steps. -/
def Proper (inputs : Inputs) (numbers : Nat → Int) (last : Nat) (func : Func) : Prop :=
  (1 ≤ inputs.args func ∧ inputs.args func ≤ intMax) ∧
    match func with
    | .fibonacci => True
    | .collatz => InRange (inputs.args .collatz) ∧ Unfinished (inputs.args .collatz) last ∧
      trajectory (inputs.args .collatz) (last + 1) = 1
    | .maxSubarray => Delivers (inputs.results .maxSubarray) numbers (inputs.args .maxSubarray).toNat ∧
      Exact (firstNumbers numbers (inputs.args .maxSubarray).toNat)

section

variable {inputs : Inputs} {numbers : Nat → Int} {last : Nat}

theorem Fibonacci.values {arg pieces : Nat} {solo : Solo} (fibonacci : Fibonacci arg pieces solo)
    (positive : 1 ≤ arg) (enough : arg ≤ pieces) :
    solo.values = (List.range arg).map fun index => int32 (Nat.fib (index + 1)) := by
  cases fibonacci with
  | start => omega
  | next less => omega
  | exited => rfl

theorem MaxSubarray.maxima {arg pieces : Nat} {solo : Solo} (stage : MaxSubarray numbers arg pieces solo)
    (all : pieces = 2 * arg) (positive : 1 ≤ arg) : Maxima numbers arg solo.values := by
  cases stage with
  | exited _ maxima => exact maxima
  | start => omega
  | _ => omega

end

end SPHomework.Threads
