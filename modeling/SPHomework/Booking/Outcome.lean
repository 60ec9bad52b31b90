import SPHomework.Booking.Handlers

set_option autoImplicit false

/-!
# How a booking command ends

The stage-1 handler of write_server, performed on its own.
-/

namespace SPHomework.Booking

open Lib

variable {P : Type} [DecidableEq P] [Fintype P]

def alone (pid : P) (fd : Nat) (choice : Choice) (kernel : Kernel P) (call : Call) :
    Option (Answer call × Kernel P) :=
  kernel.exec pid fd choice call

-- The slot and the connection of a session on a record.
structure Serving (kernel : Kernel P) (memory : Memory) (pid : P) (fd record : Nat) (conn : Conn) :
    Prop where
  connFd : (memory.requestP fd).connFd = fd
  id : (memory.requestP fd).id = record
  here : kernel.conns pid fd = some conn

-- The session is over: its connection is closed, its locks are released.
structure Closed (before after : Kernel P) (memory : Memory) (pid : P) (fd record : Nat)
    (conn : Conn) : Prop where
  past : after.past = before.past ++ [conn]
  closed : after.conns pid fd = none
  unlocked : after.locks pid record = none
  released : memory.writeLock record = false
  cleared : memory.masterSet fd = false

abbrev Answered (before after : Kernel P) (memory : Memory) (pid : P) (fd record : Nat)
    (conn : Conn) (message : Message) : Prop :=
  Closed before after memory pid fd record (conn.tell message)

variable {kernel : Kernel P} {memory : Memory} {pid : P} {fd record : Nat} {conn : Conn}

omit [DecidableEq P] [Fintype P] in
theorem Serving.connAt (serving : Serving kernel memory pid fd record conn) :
    kernel.connAt pid (memory.requestP fd).connFd = some conn := by
  rw [serving.connFd]
  simpa [Kernel.connAt] using serving.here

theorem Serving.exec_send (choice : Choice) (serving : Serving kernel memory pid fd record conn)
    (message : Message) :
    kernel.exec pid fd choice (.send (memory.requestP fd).connFd message) =
      some ((), kernel.setConn pid fd (some (conn.tell message))) := by
  simp only [Kernel.exec, serving.connAt]
  rw [serving.connFd]
  rfl

theorem Serving.exec_close (choice : Choice) (serving : Serving kernel memory pid fd record conn) :
    kernel.exec pid fd choice (.close (memory.requestP fd).connFd) =
      some ((), kernel.endConn pid fd conn) := by
  simp only [Kernel.exec, serving.connAt]
  rw [serving.connFd]
  rfl

omit [Fintype P] in
theorem Serving.setConn (serving : Serving kernel memory pid fd record conn) (next : Conn) :
    Serving (kernel.setConn pid fd (some next)) memory pid fd record next :=
  ⟨serving.connFd, serving.id, by simp⟩

theorem perform_release (choice : Choice) (serving : Serving kernel memory pid fd record conn)
    (flow : Flow) :
    ∃ after memory', (release fd flow memory).perform (alone pid fd choice) kernel =
        some (after, .done memory' flow) ∧
      Closed kernel after memory' pid fd record conn ∧ after.file = kernel.file := by
  refine ⟨(kernel.endConn pid fd conn).setLock pid record none,
    setWriteLock record false (setRequest fd (freeRequest (memory.requestP fd))
      (Booking.fdClr (memory.requestP fd).connFd memory)), ?_, ⟨rfl, ?_, ?_, ?_, ?_⟩, rfl⟩
  · have closed := serving.exec_close choice
    have unlocked : ∀ later : Kernel P,
        later.exec pid fd choice (.fcntl none (memory.requestP fd).id) =
          some ((0 : Int), later.setLock pid record none) := by
      intro later
      rw [serving.id]
      rfl
    simp [release, lockOff, Prog.perform, alone, closed, unlocked, serving.id]
  · simp [Kernel.setLock, Kernel.endConn]
  · simp
  · simp [setWriteLock]
  · simp [setWriteLock, setRequest, serving.connFd]

theorem perform_answer (choice : Choice) (serving : Serving kernel memory pid fd record conn)
    (message : Message) :
    ∃ after memory', (answer fd message memory).perform (alone pid fd choice) kernel =
        some (after, .done memory' .next) ∧
      Answered kernel after memory' pid fd record conn message ∧ after.file = kernel.file := by
  have sent : (send fd message memory).perform (alone pid fd choice) kernel =
      some (kernel.setConn pid fd (some (conn.tell message)), .done memory ()) := by
    have told := serving.exec_send choice message
    simp [send, Prog.perform, alone, told]
  obtain ⟨after, memory', performed, closed, file⟩ :=
    perform_release choice (serving.setConn (conn.tell message)) .next
  refine ⟨after, memory', ?_, { closed with past := closed.past }, file⟩
  simp only [answer, Code.bind_run]
  rw [Prog.perform_bind _ sent, performed]

def Verdict.message : Verdict → Message
  | .tooMany => .tooMany
  | .belowZero => .belowZero
  | .stored record => .updated record

-- The record of the file after a verdict on what was read of it.
def Verdict.leaves (readBuf : Record) : Verdict → Record
  | .stored record => record
  | _ => readBuf

theorem perform_writeRecord (choice : Choice) (serving : Serving kernel memory pid fd record conn)
    (value : Record) :
    ∃ after, (writeRecord (memory.requestP fd).id value memory).perform (alone pid fd choice) kernel =
        some (after, .done memory ()) ∧
      Serving after memory pid fd record conn ∧ after.past = kernel.past ∧
      after.file = Function.update kernel.file record value := by
  refine ⟨_, rfl, ⟨serving.connFd, serving.id, serving.here⟩, rfl, ?_⟩
  simp [Kernel.store, Kernel.seek, serving.id]

theorem perform_book (choice : Choice) (serving : Serving kernel memory pid fd record conn)
    (delta : Counts) :
    ∃ after memory', (book fd (kernel.file record) delta.food delta.concert delta.electronics
        memory).perform (alone pid fd choice) kernel = some (after, .done memory' .next) ∧
      Answered kernel after memory' pid fd record conn
        (verdict (kernel.file record) delta.food delta.concert delta.electronics).message ∧
      after.file = Function.update kernel.file record
        ((verdict (kernel.file record) delta.food delta.concert delta.electronics).leaves
          (kernel.file record)) := by
  unfold book
  rcases verdict (kernel.file record) delta.food delta.concert delta.electronics with _ | _ | updated
  · obtain ⟨after, memory', performed, answered, file⟩ := perform_answer choice serving .tooMany
    exact ⟨after, memory', performed, answered, by simp [file, Verdict.leaves]⟩
  · obtain ⟨after, memory', performed, answered, file⟩ := perform_answer choice serving .belowZero
    exact ⟨after, memory', performed, answered, by simp [file, Verdict.leaves]⟩
  · obtain ⟨middle, wrote, again, past, content⟩ := perform_writeRecord choice serving updated
    obtain ⟨after, memory', performed, answered, file⟩ :=
      perform_answer choice again (.updated updated)
    refine ⟨after, memory', ?_, { answered with past := past ▸ answered.past }, ?_⟩
    · simp only [Code.bind_run, slot_run, Prog.bind_done]
      rw [Prog.perform_bind _ wrote, performed]
    · rw [file, content]
      rfl

theorem perform_handleRead (choice : Choice) (serving : Serving kernel memory pid fd record conn)
    (bytes : List UInt8) (input : choice.input = .chunk bytes) (fits : (Input.chunk bytes).Fits) :
    (handleRead fd memory).perform (alone pid fd choice) kernel =
      some (kernel.setConn pid fd (some (conn.receive bytes)),
        match frame bytes with
        | .fatal => .halt memory
        | .interrupted => .done memory 0
        | .line length => .done (setRequest fd ((memory.requestP fd).fill bytes length) memory) 1) := by
  have received : kernel.exec pid fd choice (.recv (memory.requestP fd).connFd) =
      some (.chunk bytes, kernel.setConn pid fd (some (conn.receive bytes))) := by
    simp only [Kernel.exec, serving.connAt, input, fits, if_true]
    rw [serving.connFd]
    rfl
  simp only [handleRead, Code.bind_run, slot_run, syscall_run, Prog.bind_done, Prog.bind_call,
    Prog.perform, alone, received]
  rcases frame bytes with length | _ | _ <;> rfl

theorem perform_readRecord (choice : Choice) (number : Nat) :
    (readRecord number memory).perform (alone pid fd choice) kernel =
      some ((kernel.seek pid number).seek pid (number + 1), .done memory (kernel.file number)) := by
  simp [readRecord, Prog.perform, alone, Kernel.exec]
  rfl

/-- The read of the handler returns a chunk that is framed to a line. -/
structure Reads (choice : Choice) (bytes : List UInt8) (line : CStr) : Prop where
  input : choice.input = .chunk bytes
  fits : (Input.chunk bytes).Fits
  framed : frame bytes = .line line.length
  text : bytes.take line.length = line

-- `handle_read` and the read of the record.
theorem perform_writeStage1 {choice : Choice} {bytes : List UInt8} {line : CStr}
    (reads : Reads choice bytes line) (serving : Serving kernel memory pid fd record conn) :
    ∃ after memory', (writeStage1 fd memory).perform (alone pid fd choice) kernel =
        (readCommand fd (kernel.file record) memory').perform (alone pid fd choice) after ∧
      Serving after memory' pid fd record (conn.receive bytes) ∧
      cString (memory'.requestP fd).buf = line ∧ after.past = kernel.past ∧
      after.file = kernel.file := by
  have read := perform_handleRead choice serving bytes reads.input reads.fits
  rw [reads.framed] at read
  refine ⟨((kernel.setConn pid fd (some (conn.receive bytes))).seek pid record).seek pid (record + 1),
    setRequest fd ((memory.requestP fd).fill bytes line.length) memory, ?_, ⟨?_, ?_, ?_⟩, ?_, rfl, rfl⟩
  · simp only [writeStage1, Code.bind_run]
    rw [Prog.perform_bind _ read]
    have target : ((setRequest fd ((memory.requestP fd).fill bytes line.length) memory).requestP fd).id =
        record := by
      rw [setRequest_requestP]
      exact serving.id
    simp only [show ¬ (1 : Int) ≤ 0 by decide, if_false, Code.bind_run, slot_run, Prog.bind_done, target]
    rw [Prog.perform_bind _ (perform_readRecord choice record)]
    rfl
  · rw [setRequest_requestP]
    exact serving.connFd
  · rw [setRequest_requestP]
    exact serving.id
  · simp [Kernel.seek]
  · rw [setRequest_requestP, Request.fill_line _ _ _ reads.framed, reads.text]

/-- The words as the handler checks them, one after the other: nothing when it comes to a missing
word, `some none` when it comes to one that is no integer. -/
def checkWords (line : CStr) : Option (Option Counts) :=
  let (food, concert, electronic) := words line
  food.bind fun food =>
    if (isint food).2 then some none
    else concert.bind fun concert =>
      if (isint concert).2 then some none
      else electronic.bind fun electronic =>
        if (isint electronic).2 then some none
        else some (some ⟨(isint food).1, (isint concert).1, (isint electronic).1⟩)

theorem readCommand_checkWords (fd : Nat) (readBuf : Record) (memory : Memory) :
    readCommand fd readBuf memory =
      match checkWords (cString (memory.requestP fd).buf) with
      | none => .halt memory
      | some none => answer fd .failed memory
      | some (some delta) => book fd readBuf delta.food delta.concert delta.electronics memory := by
  simp only [readCommand, checkWords, Code.bind_run, slot_run, Prog.bind_done]
  rcases words (cString (memory.requestP fd).buf) with ⟨food, concert, electronic⟩
  rcases food with _ | food
  · rfl
  simp only [isintToken, Code.pure_run, Prog.bind_done, Option.bind_some]
  by_cases foodErr : (isint food).2 = true
  · rw [if_pos foodErr, if_pos foodErr]
  rw [if_neg foodErr, if_neg foodErr]
  rcases concert with _ | concert
  · rfl
  simp only [Code.bind_run, Code.pure_run, Prog.bind_done, Option.bind_some]
  by_cases concertErr : (isint concert).2 = true
  · rw [if_pos concertErr, if_pos concertErr]
  rw [if_neg concertErr, if_neg concertErr]
  rcases electronic with _ | electronic
  · rfl
  simp only [Code.bind_run, Code.pure_run, Prog.bind_done, Option.bind_some]
  by_cases electronicErr : (isint electronic).2 = true
  · rw [if_pos electronicErr, if_pos electronicErr]
  rw [if_neg electronicErr, if_neg electronicErr]

theorem checkWords_command (line : CStr) (delta : Counts) (delivered : command line = some delta) :
    checkWords line = some (some delta) := by
  unfold command at delivered
  unfold checkWords
  split at delivered
  · rename_i food concert electronic tokens
    split_ifs at delivered with bad
    simp only [Bool.or_eq_true, not_or, Bool.not_eq_true] at bad
    rw [tokens]
    simpa [bad.1.1, bad.1.2, bad.2] using delivered
  · exact absurd delivered (by simp)

/-- A command of three integers ends in the answer of its verdict. -/
theorem perform_command {choice : Choice} {bytes : List UInt8} {line : CStr} {delta : Counts}
    (reads : Reads choice bytes line) (serving : Serving kernel memory pid fd record conn)
    (delivered : command line = some delta) :
    ∃ after memory', (writeStage1 fd memory).perform (alone pid fd choice) kernel =
        some (after, .done memory' .next) ∧
      Answered kernel after memory' pid fd record (conn.receive bytes)
        (verdict (kernel.file record) delta.food delta.concert delta.electronics).message ∧
      after.file = Function.update kernel.file record
        ((verdict (kernel.file record) delta.food delta.concert delta.electronics).leaves
          (kernel.file record)) := by
  obtain ⟨middle, memory', performed, again, text, past, file⟩ := perform_writeStage1 reads serving
  obtain ⟨after, final, booked, answered, content⟩ := perform_book choice again delta
  rw [readCommand_checkWords, text, checkWords_command line delta delivered] at performed
  rw [file] at booked answered content
  exact ⟨after, final, performed.trans booked, { answered with past := past ▸ answered.past }, content⟩

-- A write_server with one client on descriptor 5, at stage 1 on record 0.
def onlyKernel (file : Nat → Record) : Kernel Unit where
  file := file
  locks _ record := if record = 0 then some .write else none
  offset _ := 0
  conns _ fd := if fd = 5 then some ⟨0, [], []⟩ else none
  nextSid := 1
  ledger := []
  past := []
  leaked _ _ := 0

def onlyMemory : Memory where
  requestP _ := ⟨5, [], 0, 0, 1⟩
  readLock _ := 0
  writeLock record := record = 0
  masterSet fd := fd = 5

theorem onlyServing (file : Nat → Record) :
    Serving (onlyKernel file) onlyMemory () 5 0 ⟨0, [], []⟩ :=
  ⟨rfl, rfl, rfl⟩

end SPHomework.Booking
