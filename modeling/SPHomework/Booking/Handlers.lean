import SPHomework.Booking.Calls

set_option autoImplicit false

/-!
# The handlers keep the accounts

A specification for each function of the server, put together to one for the
handler of each stage.
-/

namespace SPHomework.Booking

open Lib

variable {P : Type} [DecidableEq P] [Fintype P] {visit : Visit P} {progress : Progress}
  {conn : Option Conn} {found : Conn} {kernel : Kernel P} {memory : Memory}

-- The slot names the open connection, or none.
def Linked (fd : Nat) (conn : Option Conn) (request : Request) : Prop :=
  request.connFd = if conn.isSome then (fd : Int) else -1

omit [DecidableEq P] [Fintype P] in
theorem At.connAt (at_ : At visit progress conn kernel memory) {request : Request}
    (linked : Linked visit.fd conn request) : kernel.connAt visit.pid request.connFd = conn := by
  rw [linked]
  rcases conn with _ | found
  · simp [Kernel.connAt]
  · simp [Kernel.connAt, at_.here]

theorem closeConnection_safe (at_ : At visit progress conn kernel memory)
    (linked : Linked visit.fd conn (memory.requestP visit.fd))
    (cleared : conn = none → memory.masterSet visit.fd = false)
    (told : ∀ found, conn = some found → progress.booked → found.Told) :
    visit.party.Safe (fun kernel' memory' _ => At visit progress none kernel' memory' ∧
        memory'.masterSet visit.fd = false ∧
        memory'.requestP visit.fd = freeRequest (memory.requestP visit.fd))
      kernel (closeConnection visit.fd memory) := by
  simp only [closeConnection, Code.bind_run, slot_run, Code.modify_run, syscall_run, Prog.bind_done,
    Prog.bind_call, fdClr_requestP]
  refine (at_.fdClr _).call fun later at_ _ choice answer after executed => ?_
  simp only [Kernel.exec, at_.connAt linked] at executed
  rcases conn with _ | found
  · obtain rfl : later = after := (Prod.mk.inj (Option.some.inj executed)).2
    refine ⟨Promise.refl .., (at_.freeSlot _).done fun _ at_ _ => ⟨at_, ?_, by simp⟩⟩
    simp [setRequest, Booking.fdClr, cleared rfl]
  · rw [linked] at executed
    obtain rfl : later.endConn visit.pid visit.fd found = after := by simpa using executed
    refine ⟨at_.promise_endConn (told found rfl), ?_⟩
    refine ((at_.endConn (told found rfl)).freeSlot _).done fun _ at_ _ => ⟨at_, ?_, by simp⟩
    rw [linked]
    simp [setRequest]

def Conn.tell (message : Message) (conn : Conn) : Conn :=
  { conn with shown := conn.shown ++ [message] }

theorem Conn.tell_continues (message : Message) (conn : Conn) : conn.Continues (conn.tell message) :=
  ⟨rfl, List.prefix_rfl, List.prefix_append _ _⟩

theorem send_safe (at_ : At visit progress conn kernel memory)
    (linked : Linked visit.fd conn (memory.requestP visit.fd)) (message : Message)
    (told : ∀ record, message = .updated record → progress.booked) :
    visit.party.Safe (fun kernel' memory' _ =>
        At visit progress (conn.map (·.tell message)) kernel' memory ∧ memory' = memory ∧
          At.Fixed progress kernel kernel')
      kernel (send visit.fd message memory) := by
  simp only [send, Code.bind_run, slot_run, syscall_run, Prog.bind_done]
  refine at_.call fun later at_ fixed choice answer after executed => ?_
  simp only [Kernel.exec, at_.connAt linked] at executed
  rcases conn with _ | found
  · obtain rfl : later = after := (Prod.mk.inj (Option.some.inj executed)).2
    refine ⟨Promise.refl .., at_.done fun final at_ same => ⟨at_, rfl, fun record own => ?_⟩⟩
    rw [same record own, fixed record own]
  · rw [linked] at executed
    obtain rfl : later.setConn visit.pid visit.fd (some (found.tell message)) = after := by
      simpa [Conn.tell] using executed
    have booked : (found.tell message).Told → progress.booked := by
      rintro ⟨record, member⟩
      rcases List.mem_append.mp member with before | last
      · exact at_.booked_of_told ⟨record, before⟩
      · exact told record (List.mem_singleton.mp last).symm
    refine ⟨at_.promise_setConn (found.tell_continues message) booked,
      (at_.setConn (found.tell_continues message) booked).done fun final at_ same =>
        ⟨at_, rfl, fun record own => ?_⟩⟩
    rw [same record own, ← fixed record own]
    rfl

theorem readRecord_safe (at_ : At visit progress conn kernel memory) (record : Nat) :
    visit.party.Safe (fun kernel' memory' value => At visit progress conn kernel' memory ∧
        memory' = memory ∧ (progress.own = some record → value = kernel'.file record))
      kernel (readRecord record memory) := by
  simp only [readRecord, Code.bind_run, syscall_run, Prog.bind_done, Prog.bind_call]
  refine at_.call fun later at_ _ choice answer after executed => ?_
  simp only [Kernel.exec, Option.some.injEq, Prod.mk.injEq] at executed
  obtain ⟨-, rfl⟩ := executed
  refine ⟨Promise.seek, (at_.seek record).callThere (later.seek_offset visit.pid record)
    fun later at_ _ position choice answer after executed => ?_⟩
  simp only [Kernel.exec, position, Option.some.injEq, Prod.mk.injEq] at executed
  obtain ⟨rfl, rfl⟩ := executed
  exact ⟨Promise.seek, (at_.seek _).done fun _ at_ same => ⟨at_, rfl, fun own => (same record own).symm⟩⟩

theorem writeRecord_safe {record : Nat} {counted : Option Nat} {delta : Counts}
    (at_ : At visit ⟨some record, counted, False⟩ (some found) kernel memory)
    (writer : visit.kind = .writeServer) (entered : found.entered = some record)
    (booked : found.delta = some delta) :
    visit.party.Safe (fun kernel' memory' _ =>
        At visit ⟨some record, counted, True⟩ (some found) kernel' memory ∧ memory' = memory)
      kernel (writeRecord record
        ⟨(kernel.file record).id, (kernel.file record).counts + delta⟩ memory) := by
  simp only [writeRecord, Code.bind_run, syscall_run, Prog.bind_call, Prog.bind_done]
  refine at_.call fun later at_ fixed choice answer after executed => ?_
  simp only [Kernel.exec, Option.some.injEq, Prod.mk.injEq] at executed
  obtain ⟨-, rfl⟩ := executed
  refine ⟨Promise.seek, (at_.seek record).callThere (later.seek_offset visit.pid record)
    fun final at_ same position choice answer after executed => ?_⟩
  have content : final.file record = kernel.file record :=
    (same record rfl).trans (fixed record rfl)
  simp only [Kernel.exec, position, at_.here, ← content, Option.some.injEq, Prod.mk.injEq] at executed
  obtain ⟨-, rfl⟩ := executed
  obtain ⟨promise, stored⟩ := at_.store writer entered booked
  exact ⟨promise, stored.done fun _ at_ _ => ⟨at_, rfl⟩⟩

def Conn.receive (bytes : List UInt8) (conn : Conn) : Conn :=
  { conn with received := conn.received ++ [bytes] }

theorem Conn.receive_continues (bytes : List UInt8) (conn : Conn) :
    conn.Continues (conn.receive bytes) :=
  ⟨rfl, List.prefix_append _ _, List.prefix_rfl⟩

-- What `handle_read` has done when it returns.
def Got (visit : Visit P) (progress : Progress) (found : Conn) (memory : Memory) (kernel : Kernel P)
    (after : Memory) (ret : Int) : Prop :=
  (ret ≤ 0 ∧ after = memory ∧ ∃ found', found'.shown = found.shown ∧
    At visit progress (some found') kernel memory) ∨
  ∃ bytes length, ret = 1 ∧ frame bytes = .line length ∧
    after = setRequest visit.fd ((memory.requestP visit.fd).fill bytes length) memory ∧
    At visit progress (some (found.receive bytes)) kernel after

theorem handleRead_safe (at_ : At visit progress (some found) kernel memory)
    (linked : (memory.requestP visit.fd).connFd = visit.fd) :
    visit.party.Safe (Got visit progress found memory) kernel (handleRead visit.fd memory) := by
  have whole : Linked visit.fd (some found) (memory.requestP visit.fd) := linked
  simp only [handleRead, Code.bind_run, slot_run, syscall_run, Prog.bind_done, Prog.bind_call]
  refine at_.call fun later at_ _ choice answer after executed => ?_
  simp only [Kernel.exec, at_.connAt whole] at executed
  rcases input : choice.input with _ | _ | bytes
  · simp only [input, Option.some.injEq, Prod.mk.injEq] at executed
    obtain ⟨rfl, rfl⟩ := executed
    exact ⟨Promise.refl .., at_.done fun _ at_ _ => .inl ⟨by decide, rfl, found, rfl, at_⟩⟩
  · simp only [input, Option.some.injEq, Prod.mk.injEq] at executed
    obtain ⟨rfl, rfl⟩ := executed
    exact ⟨Promise.refl .., at_.done fun _ at_ _ => .inl ⟨le_refl 0, rfl, found, rfl, at_⟩⟩
  · simp only [input] at executed
    split_ifs at executed
    rw [linked, Int.toNat_natCast] at executed
    simp only [Option.some.injEq, Prod.mk.injEq] at executed
    obtain ⟨rfl, rfl⟩ := executed
    have told : (found.receive bytes).Told → progress.booked := at_.booked_of_told
    refine ⟨at_.promise_setConn (found.receive_continues bytes) told, ?_⟩
    have received := at_.setConn (found.receive_continues bytes) told
    rcases framed : frame bytes with length | _ | _
    · simp only [framed, Code.bind_run, Code.modify_run, Prog.bind_done, Code.pure_run]
      exact (received.setSlot ((memory.requestP visit.fd).fill bytes length) rfl rfl).done
        fun _ at_ _ => .inr ⟨bytes, length, rfl, framed, rfl, at_⟩
    · simp only [framed, Code.pure_run]
      exact received.done fun _ at_ _ => .inl ⟨le_refl 0, rfl, found.receive bytes, rfl, at_⟩
    · simp only [framed, Code.halt_run]
      exact received.halt

structure Served (visit : Visit P) (kernel : Kernel P) (memory : Memory) : Prop where
  idle : Idle visit.file visit.host visit.kind visit.pid visit.working kernel memory
  kept : ∀ other, other ≠ visit.fd →
    kernel.conns visit.pid other = visit.conns other ∧ memory.requestP other = visit.requests other
  ended : visit.kind = .writeServer → (visit.requests visit.fd).stage = 1 →
    kernel.conns visit.pid visit.fd = none

omit [DecidableEq P] [Fintype P] in
theorem At.served_closed {booked : Prop} (at_ : At visit ⟨none, none, booked⟩ none kernel memory)
    (cleared : memory.masterSet visit.fd = false) : Served visit kernel memory :=
  ⟨at_.leave (by simp [ownRecord]) (by simp [ownRecord]) (fun _ absent => absurd absent (by simp))
    (by simp [cleared]), at_.kept, fun _ _ => at_.here⟩

omit [DecidableEq P] [Fintype P] in
theorem At.served_open {id : Nat} (at_ : At visit ⟨some id, some id, False⟩ (some found) kernel memory)
    (linked : (memory.requestP visit.fd).connFd = visit.fd)
    (stage : (memory.requestP visit.fd).stage = 1) (owner : (memory.requestP visit.fd).id = id)
    (single : visit.kind = .writeServer →
      found.received.length = 1 ∧ (visit.requests visit.fd).stage ≠ 1) :
    Served visit kernel memory := by
  obtain ⟨own, _, shown⟩ := at_.session found rfl stage
  refine ⟨at_.leave (by simp [ownRecord, stage, owner]) (by simp [ownRecord, stage, owner]) ?_ (by simp),
    at_.kept, fun writer first => absurd first (single writer).2⟩
  rintro _ ⟨⟩
  exact ⟨linked, (at_.booked found rfl).not.mpr not_false, .inr ⟨stage, shown.resolve_right (·.2),
    fun writer => (single writer).1⟩⟩

theorem reject_safe (at_ : At visit ⟨none, none, False⟩ conn kernel memory)
    (linked : Linked visit.fd conn (memory.requestP visit.fd))
    (cleared : conn = none → memory.masterSet visit.fd = false) (message : Message)
    (error : ∀ record, message ≠ .updated record) :
    visit.party.Safe (fun kernel' memory' _ => Served visit kernel' memory') kernel
      (reject visit.fd message memory) := by
  refine (send_safe at_ linked message fun record is => absurd is (error record)).andThen ?_
  rintro kernel _ _ ⟨at_, rfl, -⟩
  refine (closeConnection_safe at_ ?_ ?_ (fun _ _ => False.elim)).andThen ?_
  · simpa [Linked] using linked
  · simpa using cleared
  · rintro kernel memory _ ⟨at_, off, -⟩
    exact at_.done fun _ at_ _ => at_.served_closed off

-- The end of stage 0 where the lock is granted; a closed connection holds nothing.
theorem openSession_safe (conn : Option Conn) {id : Nat}
    (at_ : At visit ⟨conn.map fun _ => id, conn.map fun _ => id, False⟩ conn kernel memory)
    (linked : Linked visit.fd conn (memory.requestP visit.fd))
    (cleared : conn = none → memory.masterSet visit.fd = false)
    (entered : ∀ found, conn = some found → found.entered = some id ∧ found.shown = [.enterId])
    (single : visit.kind = .writeServer → (visit.requests visit.fd).stage ≠ 1 ∧
      ∀ found, conn = some found → found.received.length = 1) :
    visit.party.Safe (fun kernel' memory' _ => Served visit kernel' memory') kernel
      (openSession visit.fd id (snapshot visit.kind) memory) := by
  refine (readRecord_safe at_ id).andThen ?_
  rintro kernel _ readBuf ⟨at_, rfl, read⟩
  refine (send_safe at_ linked _ fun record is => ?_).andThen ?_
  · cases kind : visit.kind <;> simp [snapshot, kind] at is
  · rintro kernel _ _ ⟨at_, rfl, fixed⟩
    simp only [Code.bind_run, slot_run, Code.modify_run, Prog.bind_done, Code.pure_run,
      setRequest_requestP, setRequest_setRequest]
    rcases conn with _ | found
    · refine (at_.freeSlot _).done fun _ at_ _ => at_.served_closed (cleared rfl)
    · obtain ⟨selected, shown⟩ := entered found rfl
      have opened : Shown visit.kind kernel.file (found.tell (snapshot visit.kind readBuf.counts)) id := by
        refine ⟨(found.tell_continues _).entered selected, ?_⟩
        rw [Conn.tell, shown, read rfl, ← fixed id rfl]
        rfl
      refine (at_.enter opened _ rfl).done fun _ at_ _ => at_.served_open ?_ ?_ ?_ fun writer => ?_
      · simpa [Linked] using linked
      · simp
      · simp
      · exact ⟨(single writer).2 found rfl, (single writer).1⟩

theorem release_safe {id : Nat} {booked : Prop} (writer : visit.kind = .writeServer)
    (at_ : At visit ⟨some id, some id, booked⟩ (some found) kernel memory)
    (linked : (memory.requestP visit.fd).connFd = visit.fd) (owner : (memory.requestP visit.fd).id = id)
    (told : booked → found.Told) (flow : Flow) :
    visit.party.Safe (fun kernel' memory' _ => Served visit kernel' memory') kernel
      (release visit.fd flow memory) := by
  have whole : Linked visit.fd (some found) (memory.requestP visit.fd) := linked
  simp only [release, lockOff, Code.bind_run, slot_run, Code.modify_run, syscall_run, Prog.bind_done, Prog.bind_call,
    fdClr_requestP]
  subst owner
  refine (at_.fdClr _).call fun later at_ _ choice answer after executed => ?_
  simp only [Kernel.exec, at_.connAt whole] at executed
  rw [linked] at executed
  obtain rfl : later.endConn visit.pid visit.fd found = after := by simpa using executed
  refine ⟨at_.promise_endConn told, ?_⟩
  refine (((at_.endConn told).freeSlot _).uncountWrite writer).call
    fun later at_ _ choice answer after executed => ?_
  simp only [Kernel.exec, Option.some.injEq, Prod.mk.injEq] at executed
  obtain ⟨rfl, rfl⟩ := executed
  -- a writer shares its lock with nobody, so the unlock drops no other session's
  have last : At.sharers visit later (memory.requestP visit.fd).id = 0 := by
    have sole := (at_.tally (memory.requestP visit.fd).id).sole writer
    simp only [ownedBy, if_pos] at sole
    unfold At.sharers
    omega
  refine ⟨At.promise_unlock later _, (at_.unlock last).done fun _ at_ _ => at_.served_closed ?_⟩
  rw [linked]
  simp [setWriteLock, setRequest]

theorem answer_safe {id : Nat} {booked : Prop} (writer : visit.kind = .writeServer)
    (at_ : At visit ⟨some id, some id, booked⟩ (some found) kernel memory)
    (linked : (memory.requestP visit.fd).connFd = visit.fd) (owner : (memory.requestP visit.fd).id = id)
    (message : Message) (told : booked ↔ ∃ record, message = .updated record) :
    visit.party.Safe (fun kernel' memory' _ => Served visit kernel' memory') kernel
      (answer visit.fd message memory) := by
  refine (send_safe at_ linked message fun record is => told.mpr ⟨record, is⟩).andThen ?_
  rintro kernel _ _ ⟨at_, rfl, -⟩
  refine release_safe writer at_ linked owner (fun was => ?_) .next
  obtain ⟨record, rfl⟩ := told.mp was
  exact ⟨record, by simp [Conn.tell]⟩

theorem andGranted_safe {α : Type} {post : Kernel P → Memory → α → Prop} {mode : LockMode}
    {record : Nat} {unlocked : Bool} {rest : Bool → Handler α}
    (at_ : At visit progress conn kernel memory)
    (refused : ∀ later, At visit progress conn later memory →
      visit.party.Safe post later (rest false memory))
    (granted : unlocked = true → ∀ later, At visit progress conn later memory →
      ¬ Conflict later visit.pid mode record →
      visit.party.Safe post (later.grant visit.pid visit.fd mode record) (rest true memory)) :
    visit.party.Safe post kernel
      ((andGranted unlocked (syscall (.fcntl (some mode) record)) >>= rest) memory) := by
  cases unlocked
  · exact refused kernel at_
  · simp only [andGranted, Code.bind_run, syscall_run, if_true, Prog.bind_done, Prog.bind_call,
      Code.pure_run]
    refine at_.call fun later at_ _ choice answer after executed => ?_
    simp only [Kernel.exec] at executed
    split_ifs at executed with free
    · obtain ⟨rfl, rfl⟩ := Prod.mk.inj (Option.some.inj executed)
      exact ⟨At.promise_grant free.2, granted rfl later at_ free.2⟩
    · obtain ⟨rfl, rfl⟩ := Prod.mk.inj (Option.some.inj executed)
      exact ⟨Promise.refl .., refused later at_⟩

omit [DecidableEq P] [Fintype P] in
theorem entered_first {bytes : List UInt8} {length : Nat} (first : found.received = [])
    (framed : frame bytes = .line length) :
    (found.receive bytes).entered = recordOf (bytes.take length) := by
  simp [Conn.entered, Conn.receive, first, lineOf, framed]

theorem readEntry_safe (reader : visit.kind = .readServer)
    (at_ : At visit ⟨none, none, False⟩ conn kernel memory)
    (linked : Linked visit.fd conn (memory.requestP visit.fd))
    (cleared : conn = none → memory.masterSet visit.fd = false)
    (stage : (memory.requestP visit.fd).stage = 0)
    (entered : ∀ found, conn = some found → found.shown = [.enterId] ∧
      found.entered = recordOf (cString (memory.requestP visit.fd).buf)) :
    visit.party.Safe (fun kernel' memory' _ => Served visit kernel' memory') kernel
      (readEntry visit.fd memory) := by
  simp only [readEntry, Code.bind_run, slot_run, Prog.bind_done]
  by_cases valid : validId (cString (memory.requestP visit.fd).buf) > 0
  · rw [if_pos valid]
    refine andGranted_safe at_ (fun later at_ => ?_) (fun _ later at_ free => ?_)
    · exact reject_safe at_ linked cleared .locked nofun
    · have opened := openSession_safe conn (at_.grantRead reader free stage) linked cleared
        (fun found is => ⟨?_, (entered found is).1⟩) (fun writer => absurd (reader.symm.trans writer) nofun)
      · rw [reader] at opened
        exact opened
      · rw [(entered found is).2, recordOf, if_pos valid]
  · rw [if_neg valid]
    simp only [Code.bind_run, slot_run, Prog.bind_done, stage, if_true]
    exact reject_safe at_ linked cleared .failed nofun

theorem readStage0_safe (reader : visit.kind = .readServer)
    (at_ : At visit ⟨none, none, False⟩ (some found) kernel memory)
    (linked : (memory.requestP visit.fd).connFd = visit.fd)
    (stage : (memory.requestP visit.fd).stage = 0) (received : found.received = [])
    (shown : found.shown = [.enterId]) :
    visit.party.Safe (fun kernel' memory' _ => Served visit kernel' memory') kernel
      (readStage0 visit.fd memory) := by
  refine (handleRead_safe at_ linked).andThen ?_
  rintro kernel after ret (⟨closed, rfl, found', same, at_⟩ | ⟨bytes, length, rfl, framed, rfl, at_⟩)
  · rw [if_pos closed]
    -- the clean-up does not end the handler: it goes on with no connection
    refine (closeConnection_safe at_ linked nofun fun _ _ => False.elim).andThen ?_
    rintro kernel memory _ ⟨at_, off, freed⟩
    exact readEntry_safe reader at_ (by rw [freed]; rfl) (fun _ => off) (by rw [freed]; rfl) nofun
  · rw [if_neg (by decide)]
    refine readEntry_safe reader at_ ?_ nofun ?_ ?_
    · simpa [Linked, Request.fill] using linked
    · simpa [Request.fill] using stage
    · rintro _ ⟨⟩
      rw [setRequest_requestP, Request.fill_line _ _ _ framed]
      exact ⟨shown, entered_first received framed⟩

theorem unlockRead_safe {id : Nat} (reader : visit.kind = .readServer)
    (at_ : At visit ⟨some id, none, False⟩ none kernel memory)
    (cleared : memory.masterSet visit.fd = false) :
    visit.party.Safe (fun kernel' memory' _ => Served visit kernel' memory') kernel
      ((if memory.readLock id = 0 then lockOff id >>= fun _ => pure Flow.next
        else pure Flow.next : Handler Flow) memory) := by
  have counted : memory.readLock id = At.sharers visit kernel id := by
    have tally := (at_.tally id).readLock
    simpa [reader, ownedBy, At.sharers] using tally
  -- the array counts all that share the lock of the process, leaked ones too
  by_cases last : memory.readLock id = 0
  · rw [if_pos last]
    refine at_.call fun later at_ _ choice answer after executed => ?_
    simp only [Kernel.exec, Option.some.injEq, Prod.mk.injEq] at executed
    obtain ⟨rfl, rfl⟩ := executed
    have counted : memory.readLock id = At.sharers visit later id := by
      have tally := (at_.tally id).readLock
      simpa [reader, ownedBy, At.sharers] using tally
    exact ⟨At.promise_unlock later id, (at_.unlock (by omega)).done fun _ at_ _ => at_.served_closed cleared⟩
  · rw [if_neg last]
    exact (at_.leaveLock (by omega)).done fun _ at_ _ => at_.served_closed cleared

theorem releaseRead_safe (reader : visit.kind = .readServer)
    (at_ : At visit ⟨some (memory.requestP visit.fd).id, some (memory.requestP visit.fd).id, False⟩
      (some found) kernel memory)
    (linked : (memory.requestP visit.fd).connFd = visit.fd) :
    visit.party.Safe (fun kernel' memory' _ => Served visit kernel' memory') kernel
      (releaseRead visit.fd memory) := by
  have whole : Linked visit.fd (some found) (memory.requestP visit.fd) := linked
  simp only [releaseRead, Code.bind_run, slot_run, Code.modify_run, Code.get_run, syscall_run,
    Prog.bind_done, Prog.bind_call, fdClr_requestP]
  refine (at_.fdClr _).call fun later at_ _ choice answer after executed => ?_
  simp only [Kernel.exec, at_.connAt whole] at executed
  rw [linked] at executed
  obtain rfl : later.endConn visit.pid visit.fd found = after := by simpa using executed
  refine ⟨at_.promise_endConn False.elim, ?_⟩
  refine unlockRead_safe reader (((at_.endConn False.elim).freeSlot _).uncountRead reader) ?_
  rw [linked]
  simp [setReadLock, setRequest]

theorem readStage1_safe (reader : visit.kind = .readServer)
    (at_ : At visit ⟨some (memory.requestP visit.fd).id, some (memory.requestP visit.fd).id, False⟩
      (some found) kernel memory)
    (linked : (memory.requestP visit.fd).connFd = visit.fd)
    (stage : (memory.requestP visit.fd).stage = 1) :
    visit.party.Safe (fun kernel' memory' _ => Served visit kernel' memory') kernel
      (readStage1 visit.fd memory) := by
  refine (handleRead_safe at_ linked).andThen ?_
  rintro kernel after ret (⟨closed, rfl, found', same, at_⟩ | ⟨bytes, length, rfl, framed, rfl, at_⟩)
  · simp only [Code.bind_run, slot_run, Prog.bind_done]
    rw [if_pos (.inl closed)]
    exact releaseRead_safe reader at_ linked
  · simp only [Code.bind_run, slot_run, Prog.bind_done, setRequest_requestP]
    split_ifs
    · exact releaseRead_safe reader (by simpa [Request.fill] using at_)
        (by simpa [Request.fill] using linked)
    · refine at_.done fun _ at_ _ => at_.served_open ?_ ?_ ?_ fun writer => absurd (reader.symm.trans writer) nofun
      · simpa [Request.fill] using linked
      · simpa [Request.fill] using stage
      · simp [Request.fill]

theorem writeStage0_safe (writer : visit.kind = .writeServer)
    (at_ : At visit ⟨none, none, False⟩ (some found) kernel memory)
    (linked : (memory.requestP visit.fd).connFd = visit.fd)
    (stage : (memory.requestP visit.fd).stage = 0) (received : found.received = [])
    (shown : found.shown = [.enterId]) (initial : (visit.requests visit.fd).stage ≠ 1) :
    visit.party.Safe (fun kernel' memory' _ => Served visit kernel' memory') kernel
      (writeStage0 visit.fd memory) := by
  refine (handleRead_safe at_ linked).andThen ?_
  rintro kernel after ret (⟨closed, rfl, found', same, at_⟩ | ⟨bytes, length, rfl, framed, rfl, at_⟩)
  · rw [if_pos closed]
    refine (closeConnection_safe at_ linked nofun fun _ _ => False.elim).andThen ?_
    rintro kernel memory _ ⟨at_, off, freed⟩
    exact at_.done fun _ at_ _ => at_.served_closed off
  · rw [if_neg (by decide)]
    have linked' : Linked visit.fd (some (found.receive bytes))
        ((setRequest visit.fd ((memory.requestP visit.fd).fill bytes length) memory).requestP visit.fd) := by
      simpa [Linked, Request.fill] using linked
    simp only [Code.bind_run, slot_run, Prog.bind_done, setRequest_requestP,
      Request.fill_line _ _ _ framed]
    by_cases valid : validId (bytes.take length) > 0
    · rw [if_pos valid]
      refine andGranted_safe at_ (fun later at_ => ?_) (fun unlocked later at_ free => ?_)
      · exact reject_safe at_ linked' nofun .locked nofun
      · simp only [Bool.and_eq_true, Bool.not_eq_true', beq_iff_eq] at unlocked
        have granted := at_.grantWrite writer free unlocked.1 (by simpa [Request.fill] using stage)
        have opened := openSession_safe (some (found.receive bytes)) granted linked' nofun ?_ fun _ => ⟨initial, ?_⟩
        · rw [writer] at opened
          exact opened
        · rintro _ ⟨⟩
          rw [entered_first received framed, recordOf, if_pos valid]
          exact ⟨rfl, shown⟩
        · rintro _ ⟨⟩
          simp [Conn.receive, received]
    · rw [if_neg valid]
      exact reject_safe at_ linked' nofun .failed nofun

theorem book_safe {id : Nat} (writer : visit.kind = .writeServer)
    (at_ : At visit ⟨some id, some id, False⟩ (some found) kernel memory)
    (linked : (memory.requestP visit.fd).connFd = visit.fd) (owner : (memory.requestP visit.fd).id = id)
    (entered : found.entered = some id) (food concert electronic : CInt)
    (delta : found.delta = some ⟨food, concert, electronic⟩) (readBuf : Record)
    (read : readBuf = kernel.file id) :
    visit.party.Safe (fun kernel' memory' _ => Served visit kernel' memory') kernel
      (book visit.fd readBuf food concert electronic memory) := by
  unfold book
  rcases decided : verdict readBuf food concert electronic with _ | _ | updated
  · exact answer_safe writer at_ linked owner .tooMany (by simp)
  · exact answer_safe writer at_ linked owner .belowZero (by simp)
  · obtain rfl := verdict_stored _ _ _ _ _ decided
    simp only [Code.bind_run, slot_run, Prog.bind_done, owner, read]
    -- the counts that were read are still those of the file, since the record is locked
    refine (writeRecord_safe at_ writer entered delta).andThen ?_
    rintro kernel _ _ ⟨at_, rfl⟩
    exact answer_safe writer at_ linked owner _ (by simp)

theorem readCommand_safe {id : Nat} (writer : visit.kind = .writeServer)
    (at_ : At visit ⟨some id, some id, False⟩ (some found) kernel memory)
    (linked : (memory.requestP visit.fd).connFd = visit.fd) (owner : (memory.requestP visit.fd).id = id)
    (entered : found.entered = some id)
    (delta : found.delta = command (cString (memory.requestP visit.fd).buf)) (readBuf : Record)
    (read : readBuf = kernel.file id) :
    visit.party.Safe (fun kernel' memory' _ => Served visit kernel' memory') kernel
      (readCommand visit.fd readBuf memory) := by
  simp only [readCommand, Code.bind_run, slot_run, Prog.bind_done]
  rcases tokens : words (cString (memory.requestP visit.fd).buf) with ⟨food, concert, electronic⟩
  rw [command, tokens] at delta
  have failed := answer_safe writer at_ linked owner .failed (by simp)
  rcases food with _ | food
  -- a missing token ends the process
  · exact at_.halt
  simp only [isintToken, Code.pure_run, Prog.bind_done]
  by_cases foodErr : (isint food).2
  · rw [if_pos foodErr]
    exact failed
  rw [if_neg foodErr]
  rcases concert with _ | concert
  · exact at_.halt
  simp only [Code.bind_run, Code.pure_run, Prog.bind_done]
  by_cases concertErr : (isint concert).2
  · rw [if_pos concertErr]
    exact failed
  rw [if_neg concertErr]
  rcases electronic with _ | electronic
  · exact at_.halt
  simp only [Code.bind_run, Code.pure_run, Prog.bind_done]
  by_cases electronicErr : (isint electronic).2
  · rw [if_pos electronicErr]
    exact failed
  rw [if_neg electronicErr]
  refine book_safe writer at_ linked owner entered _ _ _ ?_ readBuf read
  simpa [foodErr, concertErr, electronicErr] using delta

omit [DecidableEq P] [Fintype P] in
theorem delta_second {bytes : List UInt8} {length : Nat} (single : found.received.length = 1)
    (framed : frame bytes = .line length) :
    (found.receive bytes).delta = command (bytes.take length) := by
  simp [Conn.delta, Conn.receive, single, lineOf, framed]

theorem writeStage1_safe (writer : visit.kind = .writeServer)
    (at_ : At visit ⟨some (memory.requestP visit.fd).id, some (memory.requestP visit.fd).id, False⟩
      (some found) kernel memory)
    (linked : (memory.requestP visit.fd).connFd = visit.fd)
    (stage : (memory.requestP visit.fd).stage = 1) (single : found.received.length = 1) :
    visit.party.Safe (fun kernel' memory' _ => Served visit kernel' memory') kernel
      (writeStage1 visit.fd memory) := by
  refine (handleRead_safe at_ linked).andThen ?_
  rintro kernel after ret (⟨closed, rfl, found', same, at_⟩ | ⟨bytes, length, rfl, framed, rfl, at_⟩)
  · rw [if_pos closed]
    exact release_safe writer at_ linked rfl False.elim .breakLoop
  · rw [if_neg (by decide)]
    simp only [Code.bind_run, slot_run, Prog.bind_done, setRequest_requestP]
    refine (readRecord_safe at_ _).andThen ?_
    rintro kernel _ readBuf ⟨at_, rfl, read⟩
    refine readCommand_safe writer at_ ?_ ?_ ?_ ?_ readBuf (read rfl)
    · simpa [Request.fill] using linked
    · simp [Request.fill]
    · exact (at_.session _ rfl (by simpa [Request.fill] using stage)).2.1.trans (by simp [Request.fill])
    · rw [setRequest_requestP, Request.fill_line _ _ _ framed, delta_second single framed]

/-- Every handler that the loop starts keeps its word to the others and comes back idle. -/
theorem handler_safe {file : Nat → Record} {host : Host} {kind : ServerKind} {pid : P} {fd : Nat}
    {working : List Nat} (idle : Idle file host kind pid (fd :: working) kernel memory)
    (connection : fd ≠ host.listenFd) :
    ∃ code, handler kind fd (memory.requestP fd).stage = some code ∧
      (Visit.mk file host kind pid fd working (kernel.conns pid) memory.requestP).party.Safe
        (fun kernel' memory' _ =>
          Served ⟨file, host, kind, pid, fd, working, kernel.conns pid, memory.requestP⟩ kernel' memory')
        kernel (code memory) := by
  obtain ⟨found, slot, at_⟩ := idle.enter connection
  rcases slot.stage with ⟨stage, received, shown⟩ | ⟨stage, _, single⟩
  · rw [ownRecord, if_neg (by simp [stage])] at at_
    rw [stage]
    cases kind with
    | readServer => exact ⟨_, rfl, readStage0_safe rfl at_ slot.connFd stage received shown⟩
    | writeServer =>
      exact ⟨_, rfl, writeStage0_safe rfl at_ slot.connFd stage received shown (by simp [stage])⟩
  · rw [ownRecord, if_pos (by simp [stage])] at at_
    rw [stage]
    cases kind with
    | readServer => exact ⟨_, rfl, readStage1_safe rfl at_ slot.connFd stage⟩
    | writeServer => exact ⟨_, rfl, writeStage1_safe rfl at_ slot.connFd stage (single rfl)⟩

end SPHomework.Booking
