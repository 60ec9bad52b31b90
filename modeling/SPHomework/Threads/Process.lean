import SPHomework.Threads.Programs
import SPHomework.Threads.Scheduler

set_option autoImplicit false

/-!
# The process

The threads, the scheduler and the signals together. Signals arrive at any time
and are delivered between two steps when they are not blocked.
-/

namespace SPHomework.Threads

inductive Signal where
  | tstp
  | alrm
  deriving DecidableEq

-- A `sigset_t`, as far as the two signals go.
structure SigSet where
  tstp : Bool
  alrm : Bool
  deriving DecidableEq

def SigSet.has (set : SigSet) : Signal → Bool
  | .tstp => set.tstp
  | .alrm => set.alrm

def SigSet.add (set : SigSet) : Signal → SigSet
  | .tstp => { set with tstp := true }
  | .alrm => { set with alrm := true }

def SigSet.remove (set : SigSet) : Signal → SigSet
  | .tstp => { set with tstp := false }
  | .alrm => { set with alrm := false }

def emptySet : SigSet := ⟨false, false⟩

def baseMask : SigSet := ⟨true, true⟩

def tstpMask : SigSet := ⟨true, false⟩

def alrmMask : SigSet := ⟨false, true⟩

/-- What the process does next. The windows of `thread_yield` follow its first and its second
`sigprocmask`. -/
inductive Control where
  -- `init_signal`
  | boot
  -- `init_threads` and `start_threading`
  | setup
  | code (func : Func) (point : Point)
  -- at one of the macros
  | ending (func : Func) (act : Act)
  | yielding (func : Func)
  | firstWindow (func : Func)
  | secondWindow (func : Func)
  -- `setjmp` has returned once more
  | resumed (func : Func)
  | handler (signo : Signal)
  -- the handler before its `longjmp`
  | leaving
  | entry (jmpval : Jump)
  | returned
  | dead
  deriving DecidableEq

/-- An execution of `thread_yield`: the signals that were pending at its start, the calls of
`sighandler` and the entries of `scheduler` with 1 that it has led to, and whether it is over. -/
structure Yielding where
  atStart : SigSet
  served : List Signal
  switches : Nat
  finished : Bool

/-- `handlers` counts the calls of `signal` in `init_signal`, `reads` the reads of each thread, and
`exited` is who has called `thread_exit`. The last three fields are history: where signals were
delivered, the executions of `thread_yield`, the latest first, and who has started the last of them. -/
structure Process where
  handlers : Nat
  mask : SigSet
  pending : SigSet
  control : Control
  schedBuf : Bool
  sched : Sched Func
  heap : Func → Tcb
  reads : Func → Nat
  output : List (Int × Int)
  exited : List Func
  deliveries : List (Signal × Control)
  yields : Func → List Yielding
  last : Option Func

/-- The arguments of `init_threads`, what the reads of each thread return, one record after the
other, and the descriptors. -/
structure Inputs where
  args : Func → Int
  results : Func → Nat → List UInt8
  fd : Func → Int

inductive Label where
  | arrive (signal : Signal)
  | deliver (signal : Signal)
  | next
  | schedule (polled : FdSet) (blocking : Blocking)

-- So many steps of the process, with no signal between them.
def Label.steps (count : Nat) : List Label := List.replicate count .next

def createdThreads (args : Func → Int) : List Func :=
  [Func.fibonacci, .collatz, .maxSubarray].filter fun func => 0 ≤ args func

def onHead (change : Yielding → Yielding) : List Yielding → List Yielding
  | [] => []
  | current :: rest => change current :: rest

def Control.window : Control → Option Func
  | .firstWindow func => some func
  | .secondWindow func => some func
  | _ => none

def Control.over : Control → Bool
  | .returned => true
  | .dead => true
  | _ => false

-- Where `longjmp(RUNNING->environment, 1)` goes on.
def resume : Func × Place → Control
  | (func, .setup) => .code func .start
  | (func, .yield) => .resumed func
  | (func, .asyncRead) => .code func .read

namespace Process

def begin (memory : Func → Tcb) : Process where
  handlers := 0
  mask := emptySet
  pending := emptySet
  control := .boot
  schedBuf := false
  sched := emptySched
  heap := memory
  reads _ := 0
  output := []
  exited := []
  deliveries := []
  yields _ := []
  last := none

-- Whether `init_signal` has installed the handler. Without it a signal has its default action.
def installed (process : Process) : Signal → Bool
  | .tstp => 1 ≤ process.handlers
  | .alrm => 2 ≤ process.handlers

def go (process : Process) (control : Control) : Process := { process with control := control }

def onYield (process : Process) (func : Func) (change : Yielding → Yielding) : Process :=
  { process with
    yields := Function.update process.yields func (onHead change (process.yields func)) }

def setEnvironment (process : Process) (thread : Func) (environment : Func × Place) : Process :=
  { process with
    heap := Function.update process.heap thread { process.heap thread with environment := environment } }

/-- The call of `sighandler`. The signal is blocked meanwhile. -/
def deliver (process : Process) (signal : Signal) : Process :=
  let process := { process with
    mask := process.mask.add signal
    pending := process.pending.remove signal
    control := .handler signal
    deliveries := process.deliveries ++ [(signal, process.control)]
    yields :=
      match process.control.window with
      | some func => Function.update process.yields func
        (onHead (fun current => { current with served := current.served ++ [signal] }) (process.yields func))
      | none => process.yields }
  process

def deliverable (process : Process) (signal : Signal) : Bool :=
  process.pending.has signal && !process.mask.has signal

/-- `sigprocmask(SIG_SETMASK, ..)`: a pending signal that it unblocks is delivered before it returns. -/
def setMask (process : Process) (mask : SigSet) (control : Control) : Process :=
  let process := { process with mask := mask, control := control }
  if process.deliverable .tstp then process.deliver .tstp
  else if process.deliverable .alrm then process.deliver .alrm
  else process

-- The last `sigprocmask` of `thread_yield`.
def finishYield (process : Process) (func : Func) : Process :=
  (process.onYield func fun current => { current with finished := true }).setMask baseMask
    (.code func .next)

def arrive (process : Process) (signal : Signal) : Option Process :=
  if process.control.over then none
  else if process.installed signal then
    some { process with pending := process.pending.add signal }
  else
    match signal with
    -- stopped, until it is continued
    | .tstp => some process
    | .alrm => some (process.go .dead)

def runCode (inputs : Inputs) (process : Process) (func : Func) (point : Point) (thread : Func) : Option Process :=
  (Threads.code func (inputs.results thread (process.reads thread)) point (process.heap thread).toVars).map
    fun (vars, value, act) =>
      { process with
        heap := Function.update process.heap thread { process.heap thread with toVars := vars }
        reads := if point = .read then
          Function.update process.reads thread (process.reads thread + 1) else process.reads
        output := process.output ++ value.toList.map fun value => (vars.id, value)
        control := .ending func act }

def runMacro (process : Process) (func : Func) (thread : Func) : Act → Process
  | .yield =>
    { process.setEnvironment thread (func, .yield) with
      yields := Function.update process.yields func (⟨process.pending, [], 0, false⟩ :: process.yields func)
      last := some func
      control := .yielding func }
  | .asyncRead => (process.setEnvironment thread (func, .asyncRead)).go (.entry .asyncRead)
  | .exit => { process with exited := thread :: process.exited, control := .entry .exit }

def createThreads (inputs : Inputs) (process : Process) : Process :=
  match initThreads (createdThreads inputs.args) with
  | none => process.go .dead
  | some sched =>
    { process with
      sched := { sched with rqCurrent := 0 }
      heap := fun func => ⟨setupVars func (inputs.args func), (func, .setup)⟩
      schedBuf := true
      control := .entry .first }

def next (inputs : Inputs) (process : Process) : Option Process :=
  match process.control with
  | .boot =>
    if process.handlers < 2 then some { process with handlers := process.handlers + 1 }
    else some (process.setMask baseMask .setup)
  | .setup => some (process.createThreads inputs)
  | .code func point =>
    match running process.sched with
    | none => some (process.go .dead)
    | some thread => process.runCode inputs func point thread
  | .ending func act =>
    match running process.sched with
    | none => some (process.go .dead)
    | some thread => some (process.runMacro func thread act)
  | .yielding func => some (process.setMask alrmMask (.firstWindow func))
  | .firstWindow func => some (process.setMask tstpMask (.secondWindow func))
  | .secondWindow func => some (process.finishYield func)
  | .resumed func => some (process.finishYield func)
  | .handler _ => some (process.setMask baseMask .leaving)
  | .leaving => if process.schedBuf then some (process.go (.entry .yield)) else some (process.go .dead)
  | _ => none

-- The entry with 1 counts as a switch of the execution of `thread_yield` it comes from.
def countSwitch (process : Process) (jmpval : Jump) : Process :=
  match jmpval, running process.sched with
  | .yield, some thread =>
    process.onYield thread fun current => { current with switches := current.switches + 1 }
  | _, _ => process

-- The end of `scheduler()`: a fault, `return` or `longjmp(RUNNING->environment, 1)`.
def leave (process : Process) : Option (Sched Func × Outcome Func) → Process
  | none => process.go .dead
  | some (sched, .returned) => { process with sched := sched, control := .returned }
  | some (sched, .dispatch thread) =>
    { process with sched := sched, control := resume (process.heap thread).environment }

def schedule (inputs : Inputs) (process : Process) (polled : FdSet) (blocking : Blocking) : Option Process :=
  match process.control with
  | .entry jmpval =>
    some ((process.countSwitch jmpval).leave (scheduler inputs.fd jmpval polled blocking process.sched))
  | _ => none

def step (inputs : Inputs) (process : Process) : Label → Option Process
  | .arrive signal => process.arrive signal
  | .deliver signal =>
    if !process.control.over && process.installed signal && process.deliverable signal then
      some (process.deliver signal)
    else none
  | .next => process.next inputs
  | .schedule polled blocking => process.schedule inputs polled blocking

end Process

end SPHomework.Threads
