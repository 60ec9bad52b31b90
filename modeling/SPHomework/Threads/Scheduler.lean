import Mathlib.Data.List.Basic
import Mathlib.Logic.Function.Basic
import SPHomework.Lib.Run

set_option autoImplicit false

/-!
# The user-level thread scheduler

`scheduler` is the body of `scheduler()` from one `setjmp(sched_buf)` return to
the next `longjmp(RUNNING->environment, 1)`. `none` is a fault: an index past
`THREAD_MAX - 1`, or the use of a null entry of a queue.
-/

namespace SPHomework.Threads

def threadMax : Nat := 16

abbrev FdSet := Int → Bool

abbrev Slots (T : Type) := Nat → Option T

structure Sched (T : Type) where
  readyQueue : Slots T
  waitingQueue : Slots T
  rqSize : Nat
  rqCurrent : Nat
  wqSize : Nat

-- The value `setjmp(sched_buf)` returns when the scheduler is entered.
inductive Jump where
  | first
  | yield
  | asyncRead
  | exit
  deriving DecidableEq

inductive Outcome (T : Type) where
  | dispatch (thread : T)
  | returned
  deriving DecidableEq

/-- The kernel's answers to a `select` without a timeout: some descriptor is ready. -/
structure Blocking where
  answer : FdSet → FdSet
  subset : ∀ set fd, answer set fd = true → set fd = true
  nonempty : ∀ set, (∃ fd, set fd = true) → ∃ fd, answer set fd = true

variable {T : Type}

def load (queue : Slots T) (index : Nat) : Option (Option T) :=
  if index < threadMax then some (queue index) else none

def store (queue : Slots T) (index : Nat) (entry : Option T) : Option (Slots T) :=
  if index < threadMax then some (Function.update queue index entry) else none

-- Use of an entry as a pointer: a null entry is a fault.
def deref (queue : Slots T) (index : Nat) : Option T :=
  (load queue index).bind id

def waitingSet (fd : T → Int) (state : Sched T) : Option FdSet :=
  (List.range state.wqSize).foldlM
    (fun set index => do
      let thread ← deref state.waitingQueue index
      return Function.update set (fd thread) true)
    (fun _ => false)

-- `for(int j = i; j < wq_size - 1; j++) waiting_queue[j] = waiting_queue[j+1];`
def shiftLeft (queue : Slots T) (first wqSize : Nat) : Option (Slots T) :=
  (List.range' first (wqSize - 1 - first)).foldlM
    (fun queue index => do
      let entry ← load queue (index + 1)
      store queue index entry)
    queue

/-- The loop that moves the ready threads. `i--` before the loop's `i++` leaves `index` as it is. -/
def wakeLoop (fd : T → Int) (set : FdSet) : Nat → Nat → Sched T → Option (Sched T)
  | 0, index, state => if index < state.wqSize then none else some state
  | fuel + 1, index, state =>
    if index < state.wqSize then do
      let thread ← deref state.waitingQueue index
      if set (fd thread) then
        let readyQueue ← store state.readyQueue state.rqSize (some thread)
        let cleared ← store state.waitingQueue index none
        let waitingQueue ← shiftLeft cleared index state.wqSize
        wakeLoop fd set fuel index
          { state with
            readyQueue := readyQueue
            rqSize := state.rqSize + 1
            waitingQueue := waitingQueue
            wqSize := state.wqSize - 1 }
      else
        wakeLoop fd set fuel (index + 1) state
    else
      some state

def wake (fd : T → Int) (set : FdSet) (state : Sched T) : Option (Sched T) :=
  wakeLoop fd set state.wqSize 0 state

-- The poll at the head of every entry, with a zero timeout. `polled` is what its `select` answers, and
-- `blocking` below what the one without a timeout does: what they are asked is modelled in `Selects`.
def poll (fd : T → Int) (polled : FdSet) (state : Sched T) : Option (Sched T) := do
  let set ← waitingSet fd state
  wake fd (if state.wqSize ≠ 0 then fun fd => set fd && polled fd else set) state

-- The `select` without a timeout on an empty ready queue.
def block (fd : T → Int) (blocking : Blocking) (state : Sched T) : Option (Sched T) := do
  let set ← waitingSet fd state
  wake fd (blocking.answer set) state

def fillHole (state : Sched T) : Option (Sched T) := do
  let filled ←
    if state.rqCurrent + 1 = state.rqSize then
      some { state with rqCurrent := 0 }
    else do
      let last ← load state.readyQueue (state.rqSize - 1)
      let readyQueue ← store state.readyQueue state.rqCurrent last
      some { state with readyQueue := readyQueue }
  return { filled with rqSize := filled.rqSize - 1 }

def running (state : Sched T) : Option T := deref state.readyQueue state.rqCurrent

def dispatch (state : Sched T) : Option (Sched T × Outcome T) := do
  let thread ← running state
  return (state, .dispatch thread)

def scheduler (fd : T → Int) (jmpval : Jump) (polled : FdSet) (blocking : Blocking)
    (state : Sched T) : Option (Sched T × Outcome T) := do
  let state ← poll fd polled state
  match jmpval with
  | .first => dispatch state
  | .yield =>
    if state.rqCurrent + 1 = state.rqSize then
      dispatch { state with rqCurrent := 0 }
    else
      dispatch { state with rqCurrent := state.rqCurrent + 1 }
  | .asyncRead => do
    let entry ← load state.readyQueue state.rqCurrent
    let waitingQueue ← store state.waitingQueue state.wqSize entry
    let state ← fillHole { state with waitingQueue := waitingQueue, wqSize := state.wqSize + 1 }
    if state.rqSize = 0 then
      let state ← block fd blocking state
      dispatch state
    else
      dispatch state
  | .exit => do
    let state ← fillHole state
    if state.rqSize = 0 ∧ state.wqSize = 0 then
      return (state, .returned)
    else if state.rqSize = 0 then
      let state ← block fd blocking state
      dispatch state
    else
      dispatch state

/-- The set of the `select` without a timeout, when an entry comes to it: the running thread leaves, and it was
the only ready one. -/
def blockedOn (fd : T → Int) (jmpval : Jump) (polled : FdSet) (state : Sched T) : Option FdSet := do
  let state ← poll fd polled state
  let set ← waitingSet fd state
  let thread ← running state
  match jmpval with
  | .asyncRead => if state.rqSize = 1 then some (Function.update set (fd thread) true) else none
  | .exit => if state.rqSize = 1 ∧ state.wqSize ≠ 0 then some set else none
  | _ => none

def threadSetup (state : Sched T) (thread : T) : Option (Sched T) := do
  let readyQueue ← store state.readyQueue state.rqSize (some thread)
  return { state with readyQueue := readyQueue, rqSize := state.rqSize + 1 }

def emptySched : Sched T := ⟨fun _ => none, fun _ => none, 0, 0, 0⟩

def initThreads (threads : List T) : Option (Sched T) :=
  threads.foldlM threadSetup emptySched

structure Entry where
  jmpval : Jump
  reentry : jmpval ≠ .first
  polled : FdSet
  blocking : Blocking

/-- A process that runs the scheduler; `live` and `exited` record what its threads did. -/
inductive Machine (T : Type) where
  | running (state : Sched T) (live exited : List T)
  | returned (state : Sched T) (live exited : List T)

def Machine.of (live exited : List T) : Sched T × Outcome T → Machine T
  | (state, .dispatch _) => .running state live exited
  | (state, .returned) => .returned state live exited

-- `init_threads`, then the first entry of the scheduler from `start_threading`.
def start (fd : T → Int) (polled : FdSet) (blocking : Blocking) (threads : List T) :
    Option (Machine T) := do
  let state ← initThreads threads
  let result ← scheduler fd .first polled blocking { state with rqCurrent := 0 }
  return .of threads [] result

/-- Nothing enters the scheduler after it has returned, so a returned machine stays as it is. -/
def Machine.step [DecidableEq T] (fd : T → Int) : Machine T → Entry → Option (Machine T)
  | .running state live exited, entry => do
    let thread ← Threads.running state
    let result ← scheduler fd entry.jmpval entry.polled entry.blocking state
    if entry.jmpval = .exit then
      return .of (live.erase thread) (thread :: exited) result
    else
      return .of live exited result
  | .returned state live exited, _ => some (.returned state live exited)

end SPHomework.Threads
