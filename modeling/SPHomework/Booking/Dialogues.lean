import SPHomework.Booking.Outcome

set_option autoImplicit false

/-!
# What one client is shown

The dialogue of a connection with its server, and the handler of a descriptor as
a program that carries it on. Of what other processes do, the handler sees only
what a record holds when it is read.
-/

namespace SPHomework.Booking

open Lib

-- The line in an input of the client, if there is one.
def Conn.line (conn : Conn) (number : Nat) : Option CStr := conn.received[number]?.bind lineOf

/-- What write_server answers to a command line, by the record it has read; nothing when it comes to a
missing word. -/
def reply (before : Record) (line : CStr) : Option Message :=
  (checkWords line).map fun
    | none => .failed
    | some delta => (verdict before delta.food delta.concert delta.electronics).message

/-- The dialogue of a connection, when its handler is not running. Each snapshot of a record is one
after some number of the stored commands, `known` or more, and the answer to a command is the verdict
on the snapshot that its client was shown. -/
inductive Dialogue (file : Nat → Record) (ledger : List Conn) (known : Nat) (kind : ServerKind)
    (conn : Conn) : Prop
  | greeted (silent : conn.line 0 = none) (shown : conn.shown = [.enterId])
  | refused (line : CStr) (first : conn.line 0 = some line) (invalid : recordOf line = none)
      (shown : conn.shown = [.enterId, .failed])
  | locked (record : Nat) (entered : conn.entered = some record)
      (shown : conn.shown = [.enterId, .locked])
  | opened (record number : Nat) (recent : known ≤ number) (entered : conn.entered = some record)
      (silent : kind = .writeServer → conn.line 1 = none)
      (shown : conn.shown =
        [.enterId, snapshot kind (afterBookings file (ledger.take number) record).counts])
  | settled (record number : Nat) (line : CStr) (message : Message) (writer : kind = .writeServer)
      (recent : known ≤ number) (entered : conn.entered = some record)
      (second : conn.line 1 = some line)
      (answered : reply (afterBookings file (ledger.take number) record) line = some message)
      (shown : conn.shown =
        [.enterId, .prompt (afterBookings file (ledger.take number) record).counts, message])
      (stored : ∀ value, message = .updated value →
        ∃ entry, ledger[number]? = some entry ∧ entry.sid = conn.sid)

/-- What the handler of a descriptor sees of the kernel. -/
structure View where
  offset : Nat
  conn : Option Conn
  booked : Prop

def View.connAt (view : View) (fd : Nat) (other : Int) : Option Conn :=
  if other = fd then view.conn else none

-- The handler of a descriptor calls on that one, or on one that is closed.
def Own (fd : Nat) (other : Int) : Prop := other = fd ∨ other = -1

/-- The record under the file position, with what is known of its counts. -/
structure Fetched (file : Nat → Record) (ledger : List Conn) (known : Nat) (kind : ServerKind)
    (view : View) (request : Request) (value : Record) : Prop where
  serial : ∃ number, known ≤ number ∧ value = afterBookings file (ledger.take number) view.offset
  kept : ∀ conn, view.conn = some conn → request.stage = 1 → request.id = view.offset →
    ¬ view.booked → conn.shown[1]? = some (snapshot kind value.counts)

/-- A session that may store a record: its command was decided on the counts its client was shown. -/
structure Deciding (view : View) (request : Request) (conn : Conn) (before value : Record) : Prop where
  stage : request.stage = 1
  owner : request.id = view.offset
  unbooked : ¬ view.booked
  entered : conn.entered = some view.offset
  line : ∃ line, conn.line 1 = some line ∧ reply before line = some (.updated value)
  shown : conn.shown = [.enterId, .prompt before.counts]

section

variable (file : Nat → Record) (ledger : List Conn) (known : Nat) (kind : ServerKind) (fd : Nat)

def callWp (view : View) (memory : Memory) :
    (call : Call) → (Answer call → View → Prop) → Prop
  | .fcntl _ _, next => ∀ answer : Int, next answer view
  | .lseek record, next => next () { view with offset := record }
  | .read, next => ∀ value : Record, Fetched file ledger known kind view (memory.requestP fd) value →
      next value { view with offset := view.offset + 1 }
  | .write value, next => ∃ conn before, view.conn = some conn ∧
      before.id = (file view.offset).id ∧ Deciding view (memory.requestP fd) conn before value ∧
      ∀ number booked, known ≤ number → before = afterBookings file (ledger.take number) view.offset →
        ledger[number]? = some conn → next () ⟨view.offset + 1, some conn, booked⟩
  | .recv other, next => Own fd other ∧
      match view.connAt fd other with
      | none => next Input.failed view
      | some conn => next Input.failed view ∧ next Input.eof view ∧
          ∀ bytes, next (Input.chunk bytes) { view with conn := some (conn.receive bytes) }
  | .send other message, next => Own fd other ∧
      match view.connAt fd other with
      | none => next () view
      | some conn => next () { view with conn := some (conn.tell message) }
  | .close other, next => Own fd other ∧
      match view.connAt fd other with
      | none => next () view
      | some conn => Dialogue file ledger known kind conn ∧ next () ⟨view.offset, none, False⟩

theorem callWp_mono (view : View) (memory : Memory) (call : Call)
    (next later : Answer call → View → Prop)
    (more : ∀ answer after, next answer after → later answer after)
    (holds : callWp file ledger known kind fd view memory call next) :
    callWp file ledger known kind fd view memory call later := by
  cases call with
  | fcntl type record => exact fun answer => more _ _ (holds answer)
  | lseek record => exact more _ _ holds
  | read => exact fun value fetched => more _ _ (holds value fetched)
  | write value =>
    obtain ⟨conn, before, here, id, deciding, stored⟩ := holds
    exact ⟨conn, before, here, id, deciding, fun number booked recent serial entry =>
      more _ _ (stored number booked recent serial entry)⟩
  | recv other =>
    simp only [callWp] at holds ⊢
    refine holds.imp_right fun rest => ?_
    cases here : view.connAt fd other with
    | none => exact more _ _ (by simpa [here] using rest)
    | some conn =>
      simp only [here] at rest
      exact ⟨more _ _ rest.1, more _ _ rest.2.1, fun bytes => more _ _ (rest.2.2 bytes)⟩
  | send other message =>
    simp only [callWp] at holds ⊢
    refine holds.imp_right fun rest => ?_
    cases here : view.connAt fd other with
    | none => exact more _ _ (by simpa [here] using rest)
    | some conn => exact more _ _ (by simpa [here] using rest)
  | close other =>
    simp only [callWp] at holds ⊢
    refine holds.imp_right fun rest => ?_
    cases here : view.connAt fd other with
    | none => exact more _ _ (by simpa [here] using rest)
    | some conn =>
      simp only [here] at rest
      exact ⟨rest.1, more _ _ rest.2⟩

def desk : Rules View Memory Call Answer where
  wp := callWp file ledger known kind fd
  mono := callWp_mono file ledger known kind fd

-- How a handler leaves the connection of its descriptor.
def Left (view : View) : Prop := ∀ conn, view.conn = some conn → Dialogue file ledger known kind conn

abbrev Tends (view : View) (program : Prog Memory Call Answer Flow) : Prop :=
  (desk file ledger known kind fd).Meets (fun view' _ _ => Left file ledger known kind view') view
    program

end

variable {file : Nat → Record} {ledger : List Conn} {known : Nat} {kind : ServerKind} {fd : Nat}
  {view : View} {memory : Memory} {conn : Conn}

theorem left_closed (gone : view.conn = none) : Left file ledger known kind view :=
  fun _ here => absurd (gone.symm.trans here) (by simp)

theorem Linked.own {other : Option Conn} {request : Request} (linked : Linked fd other request) :
    Own fd request.connFd := by
  rw [linked]
  split_ifs
  · exact .inl rfl
  · exact .inr rfl

theorem Linked.connAt {request : Request} (linked : Linked fd view.conn request) :
    view.connAt fd request.connFd = view.conn := by
  rw [View.connAt, linked]
  rcases view.conn with _ | conn <;> simp

theorem linked_open (here : view.conn = some conn) {request : Request} (connFd : request.connFd = fd) :
    Linked fd view.conn request := by
  rw [Linked, here]
  exact connFd

theorem send_meets (linked : Linked fd view.conn (memory.requestP fd)) (message : Message) :
    (desk file ledger known kind fd).Meets
      (fun view' memory' _ => memory' = memory ∧
        view' = { view with conn := view.conn.map (·.tell message) })
      view (send fd message memory) := by
  simp only [send, Code.bind_run, slot_run, syscall_run, Prog.bind_done]
  refine ⟨linked.own, ?_⟩
  rw [linked.connAt]
  rcases view with ⟨offset, _ | conn, booked⟩ <;> exact ⟨rfl, rfl⟩

theorem closeConnection_meets (linked : Linked fd view.conn (memory.requestP fd))
    (left : Left file ledger known kind view) :
    (desk file ledger known kind fd).Meets
      (fun view' memory' _ => view'.conn = none ∧
        memory'.requestP fd = freeRequest (memory.requestP fd))
      view (closeConnection fd memory) := by
  simp only [closeConnection, Code.bind_run, slot_run, Code.modify_run, syscall_run, Prog.bind_done,
    Prog.bind_call, fdClr_requestP]
  refine ⟨linked.own, ?_⟩
  rw [linked.connAt]
  cases here : view.conn with
  | none => exact ⟨here, by simp⟩
  | some conn => exact ⟨left conn here, rfl, by simp⟩

theorem reject_meets (linked : Linked fd view.conn (memory.requestP fd)) (message : Message)
    (dialogue : ∀ conn, view.conn = some conn → Dialogue file ledger known kind (conn.tell message)) :
    Tends file ledger known kind fd view (reject fd message memory) := by
  refine (send_meets linked message).andThen ?_
  rintro _ _ _ ⟨rfl, rfl⟩
  refine (closeConnection_meets ?_ ?_).andThen ?_
  · simpa [Linked] using linked
  · intro conn here
    obtain ⟨before, was, rfl⟩ := Option.map_eq_some_iff.mp here
    exact dialogue before was
  · rintro view' _ _ ⟨gone, -⟩
    exact left_closed gone

theorem readRecord_meets (record : Nat) :
    (desk file ledger known kind fd).Meets
      (fun view' memory' value => memory' = memory ∧ view' = { view with offset := record + 1 } ∧
        Fetched file ledger known kind { view with offset := record } (memory.requestP fd) value)
      view (readRecord record memory) := by
  simp only [readRecord, Code.bind_run, syscall_run, Prog.bind_done, Prog.bind_call]
  exact fun value fetched => ⟨rfl, rfl, fetched⟩

theorem openSession_meets {id : Nat} (linked : Linked fd view.conn (memory.requestP fd))
    (entered : ∀ conn, view.conn = some conn → conn.entered = some id ∧ conn.shown = [.enterId] ∧
      (kind = .writeServer → conn.line 1 = none)) :
    Tends file ledger known kind fd view (openSession fd id (snapshot kind) memory) := by
  refine (readRecord_meets id).andThen ?_
  rintro _ _ value ⟨rfl, rfl, ⟨number, recent, serial⟩, -⟩
  refine Rules.Meets.andThen (send_meets ?_ (snapshot kind value.counts)) ?_
  · exact linked
  rintro _ _ _ ⟨rfl, rfl⟩ conn here
  obtain ⟨before, was, rfl⟩ := Option.map_eq_some_iff.mp here
  obtain ⟨selected, shown, silent⟩ := entered before was
  refine .opened id number recent selected silent ?_
  rw [Conn.tell, shown, serial]
  rfl

/-- What `handle_read` has done when it returns: the input was a line, or there was none in it. -/
def Heard (fd : Nat) (view : View) (conn : Conn) (memory : Memory) (view' : View) (memory' : Memory)
    (ret : Int) : Prop :=
  (ret ≤ 0 ∧ memory' = memory ∧ ∃ conn', view'.conn = some conn' ∧ conn.Continues conn' ∧
    conn'.shown = conn.shown ∧ ∀ number, conn.line number = none → conn'.line number = none) ∨
  ∃ bytes length, ret = 1 ∧ frame bytes = .line length ∧
    memory' = setRequest fd ((memory.requestP fd).fill bytes length) memory ∧
    view' = { view with conn := some (conn.receive bytes) }

theorem line_receive (bytes : List UInt8) (conn : Conn) (number : Nat) :
    (conn.receive bytes).line number =
      if number = conn.received.length then lineOf bytes else conn.line number := by
  unfold Conn.line Conn.receive
  rcases lt_trichotomy number conn.received.length with inside | rfl | beyond
  · rw [if_neg inside.ne, List.getElem?_append_left inside]
  · simp
  · rw [if_neg beyond.ne', List.getElem?_eq_none (by simpa using beyond),
      List.getElem?_eq_none beyond.le]

theorem handleRead_meets (here : view.conn = some conn) (connFd : (memory.requestP fd).connFd = fd) :
    (desk file ledger known kind fd).Meets (Heard fd view conn memory) view (handleRead fd memory) := by
  have linked := linked_open here connFd
  have quiet : ∀ view', view'.conn = some conn → ∀ ret : Int, ret ≤ 0 →
      Heard fd view conn memory view' memory ret := fun view' same ret closed =>
    .inl ⟨closed, rfl, conn, same, ⟨rfl, List.prefix_rfl, List.prefix_rfl⟩, rfl, fun _ silent => silent⟩
  simp only [handleRead, Code.bind_run, slot_run, syscall_run, Prog.bind_done, Prog.bind_call]
  refine ⟨linked.own, ?_⟩
  rw [linked.connAt, here]
  refine ⟨quiet view here (-1) (by decide), quiet view here 0 le_rfl, fun bytes => ?_⟩
  have unframed : lineOf bytes = none → Heard fd view conn memory
      { view with conn := some (conn.receive bytes) } memory 0 := by
    refine fun nothing => .inl ⟨le_rfl, rfl, _, rfl, conn.receive_continues bytes, rfl, ?_⟩
    intro number silent
    rw [line_receive, nothing, silent, ite_self]
  rcases framed : frame bytes with length | _ | _
  · simp only [framed, Code.bind_run, Code.modify_run, Prog.bind_done, Code.pure_run]
    exact .inr ⟨bytes, length, rfl, framed, rfl, rfl⟩
  · simp only [framed, Code.pure_run]
    exact unframed (by simp [lineOf, framed])
  · simp only [framed, Code.halt_run]
    trivial

theorem lineOf_framed {bytes : List UInt8} {length : Nat} (framed : frame bytes = .line length) :
    lineOf bytes = some (bytes.take length) := by
  simp [lineOf, framed]

theorem entered_line (conn : Conn) : conn.entered = (conn.line 0).bind recordOf := by
  rw [Conn.entered, Conn.line, List.head?_eq_getElem?]

theorem andGranted_meets {α : Type} {post : View → Memory → α → Prop} {mode : LockMode} {record : Nat}
    (unlocked : Bool) {rest : Bool → Handler α}
    (refused : (desk file ledger known kind fd).Meets post view (rest false memory))
    (granted : (desk file ledger known kind fd).Meets post view (rest true memory)) :
    (desk file ledger known kind fd).Meets post view
      ((andGranted unlocked (syscall (.fcntl (some mode) record)) >>= rest) memory) := by
  cases unlocked
  · exact refused
  · simp only [andGranted, Code.bind_run, syscall_run, if_true, Prog.bind_done, Prog.bind_call,
      Code.pure_run]
    intro answer
    show (desk file ledger known kind fd).Meets post view (rest (answer != -1) memory)
    cases answer != -1
    · exact refused
    · exact granted

/-- Stage 0, once the line is in the buffer: `entry` decides on the lock, and the client is shown the
record, or why not. -/
structure Entering (view : View) (request : Request) (fd : Nat) : Prop where
  linked : Linked fd view.conn request
  shown : ∀ conn, view.conn = some conn → conn.shown = [.enterId]
  line : ∀ conn, view.conn = some conn → conn.line 0 = some (cString request.buf)
  silent : ∀ conn, view.conn = some conn → conn.line 1 = none

theorem entering_framed {bytes : List UInt8} {length : Nat} (received : conn.received = [])
    (shown : conn.shown = [.enterId]) (connFd : (memory.requestP fd).connFd = fd)
    (framed : frame bytes = .line length) :
    Entering { view with conn := some (conn.receive bytes) }
      ((memory.requestP fd).fill bytes length) fd := by
  refine ⟨connFd, ?_, ?_, ?_⟩
  · rintro _ ⟨⟩
    exact shown
  · rintro _ ⟨⟩
    rw [line_receive, received, Request.fill_line _ _ _ framed]
    exact lineOf_framed framed
  · rintro _ ⟨⟩
    rw [line_receive, if_neg (by simp [received])]
    simp [Conn.line, received]

theorem Entering.entered {request : Request} (entering : Entering view request fd)
    (here : view.conn = some conn) : conn.entered = recordOf (cString request.buf) := by
  rw [entered_line, entering.line conn here]
  rfl

theorem Entering.refuse (entering : Entering view (memory.requestP fd) fd)
    (invalid : ¬ validId (cString (memory.requestP fd).buf) > 0) :
    Tends file ledger known kind fd view (reject fd .failed memory) := by
  refine reject_meets entering.linked .failed fun conn here => ?_
  refine .refused _ (entering.line conn here) (if_neg invalid) ?_
  rw [Conn.tell, entering.shown conn here]
  rfl

theorem Entering.lock (entering : Entering view (memory.requestP fd) fd)
    (valid : validId (cString (memory.requestP fd).buf) > 0) :
    Tends file ledger known kind fd view (reject fd .locked memory) := by
  refine reject_meets entering.linked .locked fun conn here => ?_
  refine .locked _ ((entering.entered here).trans (if_pos valid)) ?_
  rw [Conn.tell, entering.shown conn here]
  rfl

theorem Entering.grant {memory' : Memory} (entering : Entering view (memory.requestP fd) fd)
    (valid : validId (cString (memory.requestP fd).buf) > 0)
    (same : memory'.requestP = memory.requestP) :
    Tends file ledger known kind fd view
      (openSession fd (validId (cString (memory.requestP fd).buf) - 902001).toNat (snapshot kind)
        memory') := by
  refine openSession_meets (same ▸ entering.linked) fun conn here => ⟨?_, entering.shown conn here, ?_⟩
  · exact (entering.entered here).trans (if_pos valid)
  · exact fun _ => entering.silent conn here

theorem readEntry_meets (entering : Entering view (memory.requestP fd) fd)
    (stage : (memory.requestP fd).stage = 0) :
    Tends file ledger known .readServer fd view (readEntry fd memory) := by
  simp only [readEntry, Code.bind_run, slot_run, Prog.bind_done]
  by_cases valid : validId (cString (memory.requestP fd).buf) > 0
  · rw [if_pos valid]
    refine andGranted_meets _ ?_ ?_
    · exact entering.lock valid
    · exact entering.grant valid rfl
  · rw [if_neg valid]
    simp only [Code.bind_run, slot_run, Prog.bind_done, stage, if_true]
    exact entering.refuse valid

theorem readStage0_meets (here : view.conn = some conn) (connFd : (memory.requestP fd).connFd = fd)
    (stage : (memory.requestP fd).stage = 0) (received : conn.received = [])
    (shown : conn.shown = [.enterId]) :
    Tends file ledger known .readServer fd view (readStage0 fd memory) := by
  refine (handleRead_meets here connFd).andThen ?_
  rintro view' memory' ret (⟨closed, rfl, conn', here', -, same, silent⟩ |
    ⟨bytes, length, rfl, framed, rfl, rfl⟩)
  · rw [if_pos closed]
    refine (closeConnection_meets (linked_open here' connFd) ?_).andThen ?_
    · intro found there
      obtain rfl := Option.some.inj (here'.symm.trans there)
      exact .greeted (silent 0 (by simp [Conn.line, received])) (same.trans shown)
    -- the handler goes on with a freed slot, but there is nobody to talk to
    · rintro view memory _ ⟨gone, freed⟩
      have nobody : ∀ found, view.conn ≠ some found := by simp [gone]
      refine readEntry_meets ⟨?_, ?_, ?_, ?_⟩ (by rw [freed]; rfl)
      · rw [gone, freed]
        rfl
      · exact fun found there => absurd there (nobody found)
      · exact fun found there => absurd there (nobody found)
      · exact fun found there => absurd there (nobody found)
  · rw [if_neg (by decide)]
    refine readEntry_meets ?_ ?_
    · rw [setRequest_requestP]
      exact entering_framed received shown connFd framed
    · simpa [Request.fill] using stage

theorem writeStage0_meets (here : view.conn = some conn) (connFd : (memory.requestP fd).connFd = fd)
    (received : conn.received = []) (shown : conn.shown = [.enterId]) :
    Tends file ledger known .writeServer fd view (writeStage0 fd memory) := by
  refine (handleRead_meets here connFd).andThen ?_
  rintro view' memory' ret (⟨closed, rfl, conn', here', -, same, silent⟩ |
    ⟨bytes, length, rfl, framed, rfl, rfl⟩)
  · rw [if_pos closed]
    refine (closeConnection_meets (linked_open here' connFd) ?_).andThen ?_
    · intro found there
      obtain rfl := Option.some.inj (here'.symm.trans there)
      exact .greeted (silent 0 (by simp [Conn.line, received])) (same.trans shown)
    · rintro view memory _ ⟨gone, -⟩
      exact left_closed gone
  · rw [if_neg (by decide)]
    have entering : Entering { view with conn := some (conn.receive bytes) }
        ((setRequest fd ((memory.requestP fd).fill bytes length) memory).requestP fd) fd := by
      rw [setRequest_requestP]
      exact entering_framed received shown connFd framed
    simp only [Code.bind_run, slot_run, Prog.bind_done]
    by_cases valid : validId (cString ((setRequest fd ((memory.requestP fd).fill bytes length)
        memory).requestP fd).buf) > 0
    · rw [if_pos valid]
      refine andGranted_meets _ ?_ ?_
      · exact entering.lock valid
      · exact entering.grant valid rfl
    · rw [if_neg valid]
      exact entering.refuse valid

/-- Stage 1: the client was shown the record as it was after some of the stored commands. -/
structure Session (file : Nat → Record) (ledger : List Conn) (known : Nat) (kind : ServerKind)
    (view : View) (request : Request) (fd : Nat) (conn : Conn) : Prop where
  here : view.conn = some conn
  connFd : request.connFd = fd
  stage : request.stage = 1
  unbooked : ¬ view.booked
  entered : conn.entered = some request.id
  single : kind = .writeServer → conn.received.length = 1
  shown : ∃ number, known ≤ number ∧ conn.shown =
    [.enterId, snapshot kind (afterBookings file (ledger.take number) request.id).counts]

theorem Session.opened {request : Request} {later : Conn}
    (session : Session file ledger known kind view request fd conn) (continues : conn.Continues later)
    (same : later.shown = conn.shown) (silent : kind = .writeServer → later.line 1 = none) :
    Dialogue file ledger known kind later := by
  obtain ⟨number, recent, shown⟩ := session.shown
  exact .opened request.id number recent (continues.entered session.entered) silent (same.trans shown)

theorem unlockRead_meets {id : Nat} (gone : view.conn = none) :
    Tends file ledger known kind fd view
      ((if memory.readLock id = 0 then lockOff id >>= fun _ => pure Flow.next
        else pure Flow.next : Handler Flow) memory) := by
  by_cases last : memory.readLock id = 0
  · rw [if_pos last]
    exact fun _ => left_closed gone
  · rw [if_neg last]
    exact left_closed gone

theorem releaseRead_meets (here : view.conn = some conn) (connFd : (memory.requestP fd).connFd = fd)
    (dialogue : Dialogue file ledger known kind conn) :
    Tends file ledger known kind fd view (releaseRead fd memory) := by
  have linked := linked_open here connFd
  simp only [releaseRead, Code.bind_run, slot_run, Code.modify_run, Code.get_run, syscall_run,
    Prog.bind_done, Prog.bind_call, fdClr_requestP]
  refine ⟨linked.own, ?_⟩
  rw [linked.connAt, here]
  exact ⟨dialogue, unlockRead_meets rfl⟩

theorem release_meets (here : view.conn = some conn) (connFd : (memory.requestP fd).connFd = fd)
    (dialogue : Dialogue file ledger known kind conn) (flow : Flow) :
    Tends file ledger known kind fd view (release fd flow memory) := by
  have linked := linked_open here connFd
  simp only [release, lockOff, Code.bind_run, slot_run, Code.modify_run, syscall_run, Prog.bind_done,
    Prog.bind_call, fdClr_requestP]
  refine ⟨linked.own, ?_⟩
  rw [linked.connAt, here]
  exact ⟨dialogue, fun _ => left_closed rfl⟩

theorem readStage1_meets
    (session : Session file ledger known .readServer view (memory.requestP fd) fd conn) :
    Tends file ledger known .readServer fd view (readStage1 fd memory) := by
  refine (handleRead_meets session.here session.connFd).andThen ?_
  rintro view' memory' ret (⟨closed, rfl, conn', here', continues, same, -⟩ |
    ⟨bytes, length, rfl, framed, rfl, rfl⟩)
  · simp only [Code.bind_run, slot_run, Prog.bind_done]
    rw [if_pos (.inl closed)]
    exact releaseRead_meets here' session.connFd (session.opened continues same nofun)
  · have dialogue : Dialogue file ledger known .readServer (conn.receive bytes) :=
      session.opened (conn.receive_continues bytes) rfl nofun
    simp only [Code.bind_run, slot_run, Prog.bind_done, setRequest_requestP]
    split_ifs
    · refine releaseRead_meets rfl ?_ dialogue
      rw [setRequest_requestP]
      exact session.connFd
    · rintro _ ⟨⟩
      exact dialogue

theorem answer_meets (here : view.conn = some conn) (connFd : (memory.requestP fd).connFd = fd)
    (message : Message) (dialogue : Dialogue file ledger known kind (conn.tell message)) :
    Tends file ledger known kind fd view (answer fd message memory) := by
  refine (send_meets (linked_open here connFd) message).andThen ?_
  rintro _ _ _ ⟨rfl, rfl⟩
  exact release_meets (by rw [here]; rfl) connFd dialogue .next

/-- Stage 1 of write_server, with the command in the buffer and the record read again. -/
structure Commanding (file : Nat → Record) (ledger : List Conn) (known : Nat) (view : View)
    (request : Request) (fd : Nat) (conn : Conn) (readBuf : Record) : Prop where
  here : view.conn = some conn
  connFd : request.connFd = fd
  stage : request.stage = 1
  unbooked : ¬ view.booked
  entered : conn.entered = some request.id
  line : conn.line 1 = some (cString request.buf)
  shown : conn.shown = [.enterId, .prompt readBuf.counts]
  serial : ∃ number, known ≤ number ∧ readBuf = afterBookings file (ledger.take number) request.id

theorem Commanding.settle {request : Request} {readBuf : Record} {message : Message}
    (commanding : Commanding file ledger known view request fd conn readBuf) (number : Nat)
    (recent : known ≤ number)
    (serial : readBuf = afterBookings file (ledger.take number) request.id)
    (answered : reply readBuf (cString request.buf) = some message)
    (stored : ∀ value, message = .updated value →
      ∃ entry, ledger[number]? = some entry ∧ entry.sid = conn.sid) :
    Dialogue file ledger known .writeServer (conn.tell message) := by
  refine .settled request.id number _ message rfl recent commanding.entered commanding.line ?_ ?_ stored
  · exact serial ▸ answered
  · rw [Conn.tell, commanding.shown, serial]
    rfl

theorem Commanding.tell {readBuf : Record} {message : Message}
    (commanding : Commanding file ledger known view (memory.requestP fd) fd conn readBuf)
    (answered : reply readBuf (cString (memory.requestP fd).buf) = some message)
    (error : ∀ value, message ≠ .updated value) :
    Tends file ledger known .writeServer fd view (answer fd message memory) := by
  obtain ⟨number, recent, serial⟩ := commanding.serial
  exact answer_meets commanding.here commanding.connFd message
    (commanding.settle number recent serial answered fun value is => absurd is (error value))

theorem Commanding.deciding {readBuf value : Record}
    (commanding : Commanding file ledger known view (memory.requestP fd) fd conn readBuf)
    (answered : reply readBuf (cString (memory.requestP fd).buf) = some (.updated value)) :
    Deciding { view with offset := (memory.requestP fd).id } (memory.requestP fd) conn readBuf value :=
  ⟨commanding.stage, rfl, commanding.unbooked, commanding.entered, ⟨_, commanding.line, answered⟩,
    commanding.shown⟩

theorem readCommand_meets {readBuf : Record}
    (commanding : Commanding file ledger known view (memory.requestP fd) fd conn readBuf) :
    Tends file ledger known .writeServer fd view (readCommand fd readBuf memory) := by
  rw [readCommand_checkWords]
  cases checked : checkWords (cString (memory.requestP fd).buf) with
  -- a missing token ends the process
  | none => trivial
  | some outcome =>
  cases outcome with
  | none => exact commanding.tell (by rw [reply, checked]; rfl) nofun
  | some delta =>
  have answered : reply readBuf (cString (memory.requestP fd).buf) =
      some (verdict readBuf delta.food delta.concert delta.electronics).message := by
    rw [reply, checked]
    rfl
  show (desk file ledger known .writeServer fd).Meets _ view
    (book fd readBuf delta.food delta.concert delta.electronics memory)
  unfold book
  cases decided : verdict readBuf delta.food delta.concert delta.electronics with
  | tooMany => exact commanding.tell (by rw [answered, decided]; rfl) nofun
  | belowZero => exact commanding.tell (by rw [answered, decided]; rfl) nofun
  | stored value =>
    rw [decided] at answered
    obtain ⟨number, recent, serial⟩ := commanding.serial
    have id : readBuf.id = (file (memory.requestP fd).id).id := by
      rw [serial]
      rfl
    simp only [writeRecord, Code.bind_run, slot_run, syscall_run, Prog.bind_done, Prog.bind_call]
    refine ⟨conn, readBuf, commanding.here, id, commanding.deciding answered, ?_⟩
    intro place booked recent serial entry
    exact answer_meets rfl commanding.connFd _
      (commanding.settle place recent serial answered fun _ _ => ⟨conn, entry, rfl⟩)

theorem Session.commanding {bytes : List UInt8} {length : Nat} {readBuf : Record}
    (session : Session file ledger known .writeServer view (memory.requestP fd) fd conn)
    (framed : frame bytes = .line length)
    (fetched : Fetched file ledger known .writeServer
      ⟨(memory.requestP fd).id, some (conn.receive bytes), view.booked⟩
      ((memory.requestP fd).fill bytes length) readBuf) (offset : Nat) :
    Commanding file ledger known ⟨offset, some (conn.receive bytes), view.booked⟩
      ((memory.requestP fd).fill bytes length) fd (conn.receive bytes) readBuf where
  here := rfl
  connFd := session.connFd
  stage := session.stage
  unbooked := session.unbooked
  entered := (conn.receive_continues bytes).entered session.entered
  line := by
    rw [line_receive, session.single rfl, if_pos rfl, lineOf_framed framed,
      Request.fill_line _ _ _ framed]
  shown := by
    -- the record is locked, so it still says what the client was shown
    have kept := fetched.kept _ rfl session.stage rfl session.unbooked
    obtain ⟨number, -, shown⟩ := session.shown
    rw [Conn.receive, shown] at kept ⊢
    exact congrArg (fun message => [Message.enterId, message]) (Option.some.inj kept)
  serial := fetched.serial

theorem writeStage1_meets
    (session : Session file ledger known .writeServer view (memory.requestP fd) fd conn) :
    Tends file ledger known .writeServer fd view (writeStage1 fd memory) := by
  refine (handleRead_meets session.here session.connFd).andThen ?_
  rintro view' memory' ret (⟨closed, rfl, conn', here', continues, same, silent⟩ |
    ⟨bytes, length, rfl, framed, rfl, rfl⟩)
  · rw [if_pos closed]
    have quiet : conn.line 1 = none := by simp [Conn.line, session.single rfl]
    exact release_meets here' session.connFd
      (session.opened continues same fun _ => silent 1 quiet) .breakLoop
  · rw [if_neg (by decide)]
    simp only [Code.bind_run, slot_run, Prog.bind_done, setRequest_requestP]
    refine (readRecord_meets _).andThen ?_
    rintro _ _ readBuf ⟨rfl, rfl, fetched⟩
    rw [setRequest_requestP] at fetched
    have commanding := session.commanding framed fetched ((memory.requestP fd).id + 1)
    rw [← setRequest_requestP fd ((memory.requestP fd).fill bytes length) memory] at commanding
    exact readCommand_meets commanding

end SPHomework.Booking
