import SPHomework.Booking.Request
import SPHomework.Lib.Program

set_option autoImplicit false

/-!
# The handlers of read_server and write_server

The body of the loop over descriptors, as code that makes system calls. The
memory is the globals of one process.
-/

namespace SPHomework.Booking

open Lib

inductive LockMode where
  | read
  | write
  deriving DecidableEq

inductive ServerKind where
  | readServer
  | writeServer
  deriving DecidableEq

structure Memory where
  requestP : Nat → Request
  readLock : Nat → Int
  writeLock : Nat → Bool
  masterSet : Nat → Bool

/-- The system calls; records stand for their byte offset in the file. -/
inductive Call where
  | fcntl (type : Option LockMode) (record : Nat)
  | lseek (record : Nat)
  | read
  | write (record : Record)
  | recv (fd : Int)
  | send (fd : Int) (message : Message)
  | close (fd : Int)

@[reducible] def Answer : Call → Type
  | .fcntl _ _ => Int
  | .lseek _ => Unit
  | .read => Record
  | .write _ => Unit
  | .recv _ => Input
  | .send _ _ => Unit
  | .close _ => Unit

inductive Flow where
  | next
  | breakLoop
  deriving DecidableEq

abbrev Handler := Code Memory Call Answer

def syscall (call : Call) : Handler (Answer call) := Code.request call

def setRequest (fd : Nat) (request : Request) (memory : Memory) : Memory :=
  { memory with requestP := Function.update memory.requestP fd request }

def setReadLock (record : Nat) (count : Int) (memory : Memory) : Memory :=
  { memory with readLock := Function.update memory.readLock record count }

def setWriteLock (record : Nat) (held : Bool) (memory : Memory) : Memory :=
  { memory with writeLock := Function.update memory.writeLock record held }

/-- `FD_CLR(fd, &master_set)`. POSIX gives it no meaning for `-1`; the set is then left as it is,
which only lets `select` report more. -/
def fdClr (fd : Int) (memory : Memory) : Memory :=
  { memory with masterSet := fun other => if (other : Int) = fd then false else memory.masterSet other }

@[simp] theorem fdClr_requestP (fd : Int) (memory : Memory) :
    (fdClr fd memory).requestP = memory.requestP := rfl

@[simp] theorem fdClr_masterSet (fd : Nat) (memory : Memory) :
    (fdClr fd memory).masterSet fd = false := by
  simp [fdClr]

@[simp] theorem setRequest_requestP (fd : Nat) (request : Request) (memory : Memory) :
    (setRequest fd request memory).requestP fd = request := Function.update_self ..

@[simp] theorem setRequest_setRequest (fd : Nat) (request former : Request) (memory : Memory) :
    setRequest fd request (setRequest fd former memory) = setRequest fd request memory := by
  simp [setRequest]

def slot (fd : Nat) : Handler Request := return (← Code.get).requestP fd

@[simp] theorem slot_run (fd : Nat) (memory : Memory) :
    slot fd memory = .done memory (memory.requestP fd) := rfl

@[simp] theorem syscall_run (call : Call) (memory : Memory) :
    syscall call memory = .call memory call fun answer => .done memory answer := rfl

def send (fd : Nat) (message : Message) : Handler Unit := do
  syscall (.send (← slot fd).connFd message)

def handleRead (fd : Nat) : Handler Int := do
  let reqP ← slot fd
  let input : Input ← syscall (.recv reqP.connFd)
  match input with
  | .failed => return -1
  | .eof => return 0
  | .chunk bytes =>
    match frame bytes with
    | .fatal => Code.halt
    | .interrupted => return 0
    | .line length => do
      Code.modify (setRequest fd (reqP.fill bytes length))
      return 1

def rdLockOn (id : Nat) : Handler Int := syscall (.fcntl (some .read) id)

def wrLockOn (id : Nat) : Handler Int := syscall (.fcntl (some .write) id)

def lockOff (id : Nat) : Handler Int := syscall (.fcntl none id)

-- `unlocked && lock != -1`: the call is made only when the arrays allow it.
def andGranted (unlocked : Bool) (lock : Handler Int) : Handler Bool := do
  if unlocked then
    return (← lock) != -1
  else
    return false

-- `FD_CLR(...); close(...); free_request(...);` on the slot of a connection.
def closeConnection (fd : Nat) : Handler Unit := do
  Code.modify (fdClr (← slot fd).connFd)
  syscall (.close (← slot fd).connFd)
  Code.modify (setRequest fd (freeRequest (← slot fd)))

def reject (fd : Nat) (message : Message) : Handler Flow := do
  send fd message
  closeConnection fd
  return .next

def readRecord (record : Nat) : Handler Record := do
  syscall (.lseek record)
  syscall .read

def writeRecord (record : Nat) (value : Record) : Handler Unit := do
  syscall (.lseek record)
  syscall (.write value)

def openSession (fd id : Nat) (message : Counts → Message) : Handler Flow := do
  let readBuf ← readRecord id
  send fd (message readBuf.counts)
  Code.modify (setRequest fd { (← slot fd) with stage := 1 })
  Code.modify (setRequest fd { (← slot fd) with id := id })
  return .next

-- What READ_SERVER does with the id in the buffer of a slot.
def readEntry (fd : Nat) : Handler Flow := do
  let currentId := validId (cString (← slot fd).buf)
  if currentId > 0 then
    let currentId := (currentId - 902001).toNat
    let unlocked := !(← Code.get).writeLock currentId
    let granted ← andGranted unlocked (rdLockOn currentId)
    if granted then
      Code.modify (setReadLock currentId ((← Code.get).readLock currentId + 1))
      openSession fd currentId .bookings
    else
      reject fd .locked
  else if (← slot fd).stage = 0 then
    reject fd .failed
  else
    return .next

/-- READ_SERVER at stage 0. The clean-up after a failed read does not end the handler. -/
def readStage0 (fd : Nat) : Handler Flow := do
  let ret ← handleRead fd
  if ret ≤ 0 then
    closeConnection fd
  readEntry fd

def releaseRead (fd : Nat) : Handler Flow := do
  Code.modify (fdClr (← slot fd).connFd)
  syscall (.close (← slot fd).connFd)
  let currId := (← slot fd).id
  Code.modify (setRequest fd (freeRequest (← slot fd)))
  Code.modify (setReadLock currId ((← Code.get).readLock currId - 1))
  if (← Code.get).readLock currId = 0 then
    let _ ← lockOff currId
  return .next

def exitLine : CStr := ofChars ['E', 'x', 'i', 't']

def readStage1 (fd : Nat) : Handler Flow := do
  let ret ← handleRead fd
  if ret ≤ 0 ∨ cString (← slot fd).buf = exitLine then
    releaseRead fd
  else
    return .next

def writeStage0 (fd : Nat) : Handler Flow := do
  let ret ← handleRead fd
  if ret ≤ 0 then
    closeConnection fd
    return .next
  else
    let currentId := validId (cString (← slot fd).buf)
    if currentId > 0 then
      let currentId := (currentId - 902001).toNat
      let unlocked := !(← Code.get).writeLock currentId && (← Code.get).readLock currentId == 0
      let granted ← andGranted unlocked (wrLockOn currentId)
      if granted then
        Code.modify (setWriteLock currentId true)
        openSession fd currentId .prompt
      else
        reject fd .locked
    else
      reject fd .failed

-- The clean-up that every end of a stage-1 session of WRITE_SERVER repeats.
def release (fd : Nat) (flow : Flow) : Handler Flow := do
  Code.modify (fdClr (← slot fd).connFd)
  let currId := (← slot fd).id
  syscall (.close (← slot fd).connFd)
  Code.modify (setRequest fd (freeRequest (← slot fd)))
  Code.modify (setWriteLock currId false)
  let _ ← lockOff currId
  return flow

def answer (fd : Nat) (message : Message) : Handler Flow := do
  send fd message
  release fd .next

/-- `isint` on a token; on a missing token it dereferences a null pointer. -/
def isintToken (token : Option CStr) : Handler (CInt × Bool) :=
  match token with
  | none => Code.halt
  | some text => return isint text

def book (fd : Nat) (readBuf : Record) (foodNum concertNum electronicNum : CInt) : Handler Flow := do
  match verdict readBuf foodNum concertNum electronicNum with
  | .tooMany => answer fd .tooMany
  | .belowZero => answer fd .belowZero
  | .stored updated =>
    writeRecord (← slot fd).id updated
    answer fd (.updated updated)

-- WRITE_SERVER at stage 1, from the `strtok` calls on.
def readCommand (fd : Nat) (readBuf : Record) : Handler Flow := do
  let (food, concert, electronic) := words (cString (← slot fd).buf)
  let (foodNum, err) ← isintToken food
  if err then
    answer fd .failed
  else
    let (concertNum, err) ← isintToken concert
    if err then
      answer fd .failed
    else
      let (electronicNum, err) ← isintToken electronic
      if err then
        answer fd .failed
      else
        book fd readBuf foodNum concertNum electronicNum

def writeStage1 (fd : Nat) : Handler Flow := do
  let retval ← handleRead fd
  if retval ≤ 0 then
    release fd .breakLoop
  else
    let readBuf ← readRecord (← slot fd).id
    readCommand fd readBuf

def handler (kind : ServerKind) (fd stage : Nat) : Option (Handler Flow) :=
  match kind, stage with
  | .readServer, 0 => some (readStage0 fd)
  | .readServer, 1 => some (readStage1 fd)
  | .writeServer, 0 => some (writeStage0 fd)
  | .writeServer, 1 => some (writeStage1 fd)
  | _, _ => none

end SPHomework.Booking
