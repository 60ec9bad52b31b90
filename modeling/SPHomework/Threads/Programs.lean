import Mathlib.Logic.Function.Iterate
import Mathlib.Data.List.Basic
import SPHomework.Lib.CString

set_option autoImplicit false

/-!
# The thread functions

`fibonacci`, `collatz` and `max_subarray` from one suspension to the next. All
their variables are fields of the control block. The integers are 32-bit.
-/

namespace SPHomework.Threads

open Lib

inductive Func where
  | fibonacci
  | collatz
  | maxSubarray
  deriving DecidableEq

-- The ids of `init_threads`.
def Func.id : Func → Int
  | .fibonacci => 0
  | .collatz => 1
  | .maxSubarray => 2

/-- The `setjmp` calls that fill in the environment of a thread. -/
inductive Place where
  | setup
  | yield
  | asyncRead
  deriving DecidableEq

-- The fields of the control block that the code of a thread uses.
structure Vars where
  id : Int
  arg : Int
  buf : List UInt8
  i : Int
  x : Int
  y : Int

structure Tcb extends Vars where
  environment : Func × Place

def bufSize : Nat := 512

def int32 (value : Int) : Int := value.bmod 4294967296

/-- `strtol(text, NULL, 10)` -/
def strtolTen (text : CStr) : Int :=
  match text.dropWhile isSpace with
  | [] => 0
  | first :: rest =>
    if first = ascii '-' then max longMin (-(magnitude 10 0 rest : Int))
    else if first = ascii '+' then min longMax (magnitude 10 0 rest)
    else min longMax (magnitude 10 0 (first :: rest))

def atoi (buf : List UInt8) : Int := int32 (strtolTen (cString buf))

-- `read(RUNNING->fd, RUNNING->buf, 5)`, by the bytes it returns.
def readInto (buf bytes : List UInt8) : List UInt8 := bytes.take 5 ++ buf.drop (bytes.take 5).length

inductive Act where
  | yield
  | asyncRead
  | exit
  deriving DecidableEq

/-- Where the code of a thread goes on: after `thread_setup`, after `thread_yield` with `i++`, or
after `async_read` with the `read`. -/
inductive Point where
  | start
  | next
  | read
  deriving DecidableEq

def Place.point : Place → Point
  | .setup => .start
  | .yield => .next
  | .asyncRead => .read

def Act.point : Act → Option Point
  | .yield => some .next
  | .asyncRead => some .read
  | .exit => none

-- What a body has done: the fields, the value in the `printf` if there is one, and how it ends.
abbrev Effect := Vars × Option Int × Act

def fibonacci (tcb : Vars) : Effect :=
  let tcb :=
    if tcb.i ≤ 2 then { tcb with x := 1, y := 1 }
    else { tcb with x := tcb.y, y := int32 (tcb.x + tcb.y) }
  (tcb, some tcb.y, if tcb.i = tcb.arg then .exit else .yield)

def collatz (tcb : Vars) : Effect :=
  let tcb := if tcb.i = 1 then { tcb with x := tcb.arg } else tcb
  let tcb :=
    if tcb.x.tmod 2 = 0 then { tcb with x := tcb.x.tdiv 2 }
    else { tcb with x := int32 (int32 (tcb.x * 3) + 1) }
  (tcb, some tcb.x, if tcb.x = 1 then .exit else .yield)

def maxSubarray (tcb : Vars) : Effect :=
  let tcb := if tcb.i = 1 then { tcb with x := 0, y := 0 } else tcb
  (tcb, none, .asyncRead)

def maxSubarrayRead (bytes : List UInt8) (tcb : Vars) : Effect :=
  let tcb := { tcb with buf := readInto tcb.buf bytes }
  let num := atoi tcb.buf
  let a := int32 (tcb.x + num)
  let b := num
  let tcb := if b < a then { tcb with x := a } else { tcb with x := b }
  let tcb := if tcb.y < tcb.x then { tcb with y := tcb.x } else tcb
  (tcb, some tcb.y, if tcb.arg ≤ tcb.i then .exit else .yield)

def body : Func → Vars → Effect
  | .fibonacci => fibonacci
  | .collatz => collatz
  | .maxSubarray => maxSubarray

/-- The code of a thread function from a point to its next macro. Only `max_subarray` reads. -/
def code (func : Func) (bytes : List UInt8) : Point → Vars → Option Effect
  | .start, tcb => some (body func { tcb with i := 1 })
  | .next, tcb => some (body func { tcb with i := int32 (tcb.i + 1) })
  | .read, tcb => if func = .maxSubarray then some (maxSubarrayRead bytes tcb) else none

/-- A thread by itself: its fields, what it has printed, how often it has read, and where it goes on
if it has not exited. -/
structure Solo where
  vars : Vars
  values : List Int
  reads : Nat
  point : Option Point

-- What `calloc` and `thread_setup` leave in the fields.
def setupVars (func : Func) (arg : Int) : Vars where
  id := func.id
  arg := arg
  buf := List.replicate bufSize 0
  i := 0
  x := 0
  y := 0

def Solo.start (func : Func) (arg : Int) : Solo := ⟨setupVars func arg, [], 0, some .start⟩

def Solo.advance (func : Func) (results : Nat → List UInt8) (solo : Solo) : Solo :=
  match solo.point with
  | none => solo
  | some point =>
    match code func (results solo.reads) point solo.vars with
    | none => solo
    | some (vars, value, act) =>
      { vars := vars
        values := solo.values ++ value.toList
        reads := if point = .read then solo.reads + 1 else solo.reads
        point := act.point }

-- The thread after so many pieces of its code.
def alone (func : Func) (arg : Int) (results : Nat → List UInt8) (pieces : Nat) : Solo :=
  (Solo.advance func results)^[pieces] (Solo.start func arg)

theorem advance_eq {func : Func} {results : Nat → List UInt8} {solo : Solo} {point : Point} {vars : Vars}
    {value : Option Int} {act : Act} (here : solo.point = some point)
    (ran : code func (results solo.reads) point solo.vars = some (vars, value, act)) :
    solo.advance func results =
      ⟨vars, solo.values ++ value.toList, if point = .read then solo.reads + 1 else solo.reads, act.point⟩ := by
  simp only [Solo.advance, here, ran]

theorem alone_succ (func : Func) (arg : Int) (results : Nat → List UInt8) (pieces : Nat) :
    alone func arg results (pieces + 1) = (alone func arg results pieces).advance func results :=
  Function.iterate_succ_apply' _ _ _

theorem alone_stage (func : Func) (arg : Int) (results : Nat → List UInt8) (Stage : Nat → Solo → Prop)
    (start : Stage 0 (Solo.start func arg))
    (advance : ∀ pieces solo, Stage pieces solo → Stage (pieces + 1) (solo.advance func results)) (pieces : Nat) :
    Stage pieces (alone func arg results pieces) := by
  induction pieces with
  | zero => exact start
  | succ pieces ih =>
    rw [alone_succ]
    exact advance pieces _ ih

theorem alone_vars (func : Func) (arg : Int) (results : Nat → List UInt8) (Inv : Vars → Prop)
    (start : Inv (setupVars func arg))
    (kept : ∀ bytes point vars after value act, Inv vars →
      code func bytes point vars = some (after, value, act) → Inv after) (pieces : Nat) :
    Inv (alone func arg results pieces).vars := by
  refine alone_stage func arg results (fun _ solo => Inv solo.vars) start ?_ pieces
  intro _ solo holds
  unfold Solo.advance
  split
  · exact holds
  · split
    · exact holds
    · rename_i ran
      exact kept _ _ _ _ _ _ holds ran

-- After its exit a thread stays as it is.
theorem alone_exited (func : Func) (arg : Int) (results : Nat → List UInt8) {few more : Nat}
    (less : few ≤ more) (exited : (alone func arg results few).point = none) :
    alone func arg results more = alone func arg results few := by
  induction less with
  | refl => rfl
  | step less ih =>
    rw [Nat.succ_eq_add_one, alone_succ, ih, Solo.advance, exited]

end SPHomework.Threads
