import SPHomework.Booking.Server
import SPHomework.Lib.Run

set_option autoImplicit false

/-!
# Any number of servers on one bookingRecord

A step is one system call of one process, or the top of its loop (`select` and
`accept`), or the loop going to the next descriptor. The label carries what the
kernel and the clients decide.
-/

namespace SPHomework.Booking

open Lib

/-- An accepted connection, with all that its client sent and was shown. -/
structure Conn where
  sid : Nat
  received : List (List UInt8)
  shown : List Message
  deriving DecidableEq

def lineOf (bytes : List UInt8) : Option CStr :=
  match frame bytes with
  | .line length => some (bytes.take length)
  | _ => none

def Conn.entered (conn : Conn) : Option Nat :=
  (conn.received.head?.bind lineOf).bind recordOf

def command (line : CStr) : Option Counts :=
  match words line with
  | (some food, some concert, some electronic) =>
    if (isint food).2 || (isint concert).2 || (isint electronic).2 then none
    else some ⟨(isint food).1, (isint concert).1, (isint electronic).1⟩
  | _ => none

-- The booking command of a connection: the second line of its client.
def Conn.delta (conn : Conn) : Option Counts :=
  (conn.received[1]?.bind lineOf).bind command

/-- What the processes share: the file, the fcntl locks, the file positions and the connections.
The rest is history: the sessions whose command was stored (`ledger`), those the server closed
(`past`), and the read locks granted to a handler whose connection was closed (`leaked`). -/
structure Kernel (P : Type) where
  file : Nat → Record
  locks : P → Nat → Option LockMode
  offset : P → Nat
  conns : P → Nat → Option Conn
  nextSid : Nat
  ledger : List Conn
  past : List Conn
  leaked : P → Nat → Nat

structure Choice where
  grant : Bool
  input : Input
  deriving DecidableEq

-- The arguments of the processes: the descriptor limit, and two descriptors that are no
-- connection.
structure Host where
  maxfd : Nat
  fileFd : Nat
  listenFd : Nat

variable {P : Type} [DecidableEq P]

def Conflict (kernel : Kernel P) (pid : P) (mode : LockMode) (record : Nat) : Prop :=
  ∃ other, other ≠ pid ∧
    (kernel.locks other record = some .write ∨
      mode = .write ∧ kernel.locks other record = some .read)

instance [Fintype P] (kernel : Kernel P) (pid : P) (mode : LockMode) (record : Nat) :
    Decidable (Conflict kernel pid mode record) :=
  inferInstanceAs (Decidable (∃ _, _))

namespace Kernel

def setLock (kernel : Kernel P) (pid : P) (record : Nat) (lock : Option LockMode) : Kernel P :=
  { kernel with
    locks := Function.update kernel.locks pid (Function.update (kernel.locks pid) record lock) }

def setConn (kernel : Kernel P) (pid : P) (fd : Nat) (conn : Option Conn) : Kernel P :=
  { kernel with
    conns := Function.update kernel.conns pid (Function.update (kernel.conns pid) fd conn) }

def seek (kernel : Kernel P) (pid : P) (record : Nat) : Kernel P :=
  { kernel with offset := Function.update kernel.offset pid record }

def leak (kernel : Kernel P) (pid : P) (record : Nat) : Kernel P :=
  { kernel with
    leaked := Function.update kernel.leaked pid
      (Function.update (kernel.leaked pid) record (kernel.leaked pid record + 1)) }

def store (kernel : Kernel P) (record : Nat) (value : Record) (session : Option Conn) : Kernel P :=
  { kernel with
    file := Function.update kernel.file record value
    ledger := kernel.ledger ++ session.toList }

def endConn (kernel : Kernel P) (pid : P) (fd : Nat) (conn : Conn) : Kernel P :=
  { kernel.setConn pid fd none with past := kernel.past ++ [conn] }

/-- The open connection an `int` descriptor refers to; a call on any other descriptor fails. -/
def connAt (kernel : Kernel P) (pid : P) (fd : Int) : Option Conn :=
  if 0 ≤ fd then kernel.conns pid fd.toNat else none

-- A granted lock; on behalf of a closed connection, it leaks.
def grant (kernel : Kernel P) (pid : P) (handled : Nat) (mode : LockMode) (record : Nat) : Kernel P :=
  let locked := kernel.setLock pid record (some mode)
  if (kernel.conns pid handled).isNone then locked.leak pid record else locked

def exec [Fintype P] (kernel : Kernel P) (pid : P) (handled : Nat) (choice : Choice) :
    (call : Call) → Option (Answer call × Kernel P)
  | .fcntl (some mode) record =>
    if choice.grant ∧ ¬ Conflict kernel pid mode record then
      some ((0 : Int), kernel.grant pid handled mode record)
    else
      some ((-1 : Int), kernel)
  | .fcntl none record => some ((0 : Int), kernel.setLock pid record none)
  | .lseek record => some ((), kernel.seek pid record)
  | .read =>
    some (kernel.file (kernel.offset pid), kernel.seek pid (kernel.offset pid + 1))
  | .write value =>
    let stored := kernel.store (kernel.offset pid) value (kernel.conns pid handled)
    some ((), stored.seek pid (kernel.offset pid + 1))
  | .recv fd =>
    match kernel.connAt pid fd, choice.input with
    | none, _ => some (.failed, kernel)
    | some _, .failed => some (.failed, kernel)
    | some _, .eof => some (.eof, kernel)
    | some conn, .chunk bytes =>
      if (Input.chunk bytes).Fits then
        some (.chunk bytes,
          kernel.setConn pid fd.toNat (some { conn with received := conn.received ++ [bytes] }))
      else none
  | .send fd message =>
    match kernel.connAt pid fd with
    | none => some ((), kernel)
    | some conn =>
      some ((), kernel.setConn pid fd.toNat (some { conn with shown := conn.shown ++ [message] }))
  | .close fd =>
    match kernel.connAt pid fd with
    | none => some ((), kernel)
    | some conn => some ((), kernel.endConn pid fd.toNat conn)

-- The end of a process: its connections are closed and its locks dropped.
def exit (kernel : Kernel P) (pid : P) : Kernel P :=
  { kernel with
    locks := Function.update kernel.locks pid fun _ => none
    conns := Function.update kernel.conns pid fun _ => none }

end Kernel

/-- Where a process is: in its loop, with the descriptors of the working set it has still to
visit, or inside the handler of one descriptor. -/
inductive Proc where
  | loop (memory : Memory) (working : List Nat)
  | handling (fd : Nat) (working : List Nat) (code : Prog Memory Call Answer Flow)
  | exited

def Proc.memory : Proc → Option Memory
  | .loop memory _ => some memory
  | .handling _ _ code => some code.memory
  | .exited => none

structure System (P : Type) where
  kernel : Kernel P
  proc : P → Proc

inductive Accept where
  | notReady
  | again
  | fatal
  | conn (fd : Nat)
  deriving DecidableEq

inductive Label (P : Type) where
  | select (pid : P) (ready : List Nat) (accept : Accept)
  | visit (pid : P)
  | call (pid : P) (choice : Choice)
  | finish (pid : P)

def System.setProc (system : System P) (pid : P) (proc : Proc) : System P :=
  { system with proc := Function.update system.proc pid proc }

-- The working set that `select` may report: descriptors of the master set, in the order of the
-- loop.
def Reported (host : Host) (memory : Memory) (ready : List Nat) (accept : Accept) : Prop :=
  ready.Pairwise (· < ·) ∧
    (∀ fd ∈ ready, 3 ≤ fd ∧ fd < host.maxfd ∧ memory.masterSet fd = true) ∧
    (host.listenFd ∈ ready ↔ accept ≠ .notReady)

instance (host : Host) (memory : Memory) (ready : List Nat) (accept : Accept) :
    Decidable (Reported host memory ready accept) :=
  inferInstanceAs (Decidable (_ ∧ _))

def Fresh (host : Host) (kernel : Kernel P) (pid : P) (fd : Nat) : Prop :=
  3 ≤ fd ∧ fd < host.maxfd ∧ fd ≠ host.fileFd ∧ fd ≠ host.listenFd ∧ kernel.conns pid fd = none

instance (host : Host) (kernel : Kernel P) (pid : P) (fd : Nat) :
    Decidable (Fresh host kernel pid fd) :=
  inferInstanceAs (Decidable (_ ∧ _))

def acceptConn (kernel : Kernel P) (pid : P) (fd : Nat) : Kernel P :=
  { kernel.setConn pid fd (some ⟨kernel.nextSid, [], [.enterId]⟩) with
    nextSid := kernel.nextSid + 1 }

def acceptRequest (memory : Memory) (fd : Nat) : Memory :=
  { setRequest fd { memory.requestP fd with connFd := fd, stage := 0 } memory with
    masterSet := Function.update memory.masterSet fd true }

variable [Fintype P]

def System.step (host : Host) (kind : P → ServerKind) (system : System P) :
    Label P → Option (System P)
  | .select pid ready accept =>
    match system.proc pid with
    | .loop memory [] =>
      if Reported host memory ready accept then
        match accept with
        | .notReady => some (system.setProc pid (.loop memory ready))
        | .again => some (system.setProc pid (.loop memory []))
        | .fatal => some { system.setProc pid .exited with kernel := system.kernel.exit pid }
        | .conn fd =>
          if Fresh host system.kernel pid fd then
            some { system.setProc pid (.loop (acceptRequest memory fd) ready) with
              kernel := acceptConn system.kernel pid fd }
          else none
      else none
    | _ => none
  | .visit pid =>
    match system.proc pid with
    | .loop memory (fd :: working) =>
      if fd = host.listenFd ∨ fd = host.fileFd then some (system.setProc pid (.loop memory working))
      else
        match handler (kind pid) fd (memory.requestP fd).stage with
        | some code => some (system.setProc pid (.handling fd working (code memory)))
        | none => some (system.setProc pid (.loop memory working))
    | _ => none
  | .call pid choice =>
    match system.proc pid with
    | .handling fd working (.call _ request next) =>
      (system.kernel.exec pid fd choice request).map fun (answer, kernel) =>
        { system.setProc pid (.handling fd working (next answer)) with kernel := kernel }
    | _ => none
  | .finish pid =>
    match system.proc pid with
    | .handling _ working (.done memory .next) => some (system.setProc pid (.loop memory working))
    | .handling _ _ (.done memory .breakLoop) => some (system.setProc pid (.loop memory []))
    | .handling _ _ (.halt _) =>
      some { system.setProc pid .exited with kernel := system.kernel.exit pid }
    | _ => none

-- The memory after `init_server`; the buffers hold what `malloc` returned.
def initMemory (host : Host) (heap : Nat → List UInt8) : Memory where
  requestP fd :=
    if fd = host.listenFd then { connFd := fd, buf := heap fd, bufLen := 0, id := 0, stage := 0 }
    else { connFd := -1, buf := heap fd, bufLen := 0, id := 0, stage := 0 }
  readLock _ := 0
  writeLock _ := false
  masterSet fd := fd = host.listenFd

def System.init (host : Host) (file : Nat → Record) (heap : P → Nat → List UInt8) : System P where
  kernel :=
    { file := file
      locks := fun _ _ => none
      offset := fun _ => 0
      conns := fun _ _ => none
      nextSid := 0
      ledger := []
      past := []
      leaked := fun _ _ => 0 }
  proc pid := .loop (initMemory host (heap pid)) []

end SPHomework.Booking
