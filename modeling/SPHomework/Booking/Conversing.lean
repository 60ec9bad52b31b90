import SPHomework.Booking.Dialogues
import SPHomework.Booking.Safety

set_option autoImplicit false

/-!
# Every connection of every server

Each client has its dialogue in any interleaving: what the handler of a
descriptor sees of the kernel is not changed by the others.
-/

namespace SPHomework.Booking

open Lib

/-- The stored command at a place of the ledger was decided on the record as the commands before it
left it, which is what its client was shown, and the next commands find the record it made. -/
structure Decided (file : Nat → Record) (ledger : List Conn) (number : Nat) (conn : Conn)
    (record : Nat) (line : CStr) : Prop where
  entered : conn.entered = some record
  second : conn.line 1 = some line
  shown : conn.shown =
    [.enterId, .prompt (afterBookings file (ledger.take number) record).counts]
  answered : reply (afterBookings file (ledger.take number) record) line =
    some (.updated (afterBookings file (ledger.take (number + 1)) record))

variable {P : Type}

def Kernel.view (kernel : Kernel P) (pid : P) (fd : Nat) : View where
  offset := kernel.offset pid
  conn := kernel.conns pid fd
  booked := ∃ conn, kernel.conns pid fd = some conn ∧ kernel.Booked conn.sid

def Greets (file : Nat → Record) (ledger : List Conn) (known : Nat → Nat) (kind : ServerKind) (pid : P)
    (kernel : Kernel P) (fd : Nat) : Prop :=
  ∀ conn, kernel.conns pid fd = some conn → Dialogue file ledger (known conn.sid) kind conn

/-- The handler of a descriptor knows at least as many stored commands as its session has to. -/
structure Tending (file : Nat → Record) (ledger : List Conn) (known : Nat → Nat) (kind : ServerKind)
    (pid : P) (kernel : Kernel P) (fd : Nat) (code : Prog Memory Call Answer Flow) (least : Nat) :
    Prop where
  session : ∀ conn, kernel.conns pid fd = some conn → least = known conn.sid
  stored : least ≤ kernel.ledger.length
  tends : Tends file ledger least kind fd (kernel.view pid fd) code

-- What a process owes to the clients of its open connections.
def Attending (file : Nat → Record) (ledger : List Conn) (known : Nat → Nat) (kind : ServerKind)
    (pid : P) (kernel : Kernel P) : Proc → Prop
  | .loop _ _ => ∀ fd, Greets file ledger known kind pid kernel fd
  | .handling fd _ code =>
    (∃ least, Tending file ledger known kind pid kernel fd code least) ∧
      ∀ other, other ≠ fd → Greets file ledger known kind pid kernel other
  | .exited => True

/-- `ledger` is that of the end of the run, and a session has to know as many of its commands as
`known` says. -/
structure Conversing (file : Nat → Record) (ledger : List Conn) (known : Nat → Nat)
    (kind : P → ServerKind) (system : System P) : Prop where
  stored : ∀ number conn, system.kernel.ledger[number]? = some conn →
    ∃ record line, Decided file ledger number conn record line
  past : ∀ conn ∈ system.kernel.past, ∃ pid, Dialogue file ledger (known conn.sid) (kind pid) conn
  procs : ∀ pid, Attending file ledger known (kind pid) pid system.kernel (system.proc pid)

variable {file : Nat → Record} {ledger : List Conn} {known : Nat → Nat} {least : Nat} {host : Host}
  {pid : P} {fd : Nat}
  {kernel after : Kernel P} {memory : Memory} {conn : Conn}

theorem Relies.view (relies : Relies file pid kernel after) (fd : Nat) :
    after.view pid fd = kernel.view pid fd := by
  simp only [Kernel.view, relies.offset, relies.conns, View.mk.injEq, true_and]
  exact propext (exists_congr fun conn => and_congr_right fun here => relies.booked fd conn here)

theorem Attending.stable {kind : ServerKind} {proc : Proc}
    (attending : Attending file ledger known kind pid kernel proc) (relies : Relies file pid kernel after)
    (longer : kernel.ledger <+: after.ledger) : Attending file ledger known kind pid after proc := by
  have kept : ∀ fd, Greets file ledger known kind pid kernel fd →
      Greets file ledger known kind pid after fd := by
    intro fd greets conn there
    exact greets conn (relies.conns ▸ there)
  cases proc with
  | loop memory working => exact fun fd => kept fd (attending fd)
  | handling fd working code =>
    obtain ⟨⟨least, session, stored, tends⟩, elsewhere⟩ := attending
    refine ⟨⟨least, ?_, stored.trans longer.length_le, ?_⟩, fun other different =>
      kept other (elsewhere other different)⟩
    · rw [relies.conns]
      exact session
    · rw [relies.view]
      exact tends
  | exited => trivial

theorem take_room (room : kernel.ledger <+: ledger) :
    ledger.take kernel.ledger.length = kernel.ledger :=
  (List.prefix_iff_eq_take.mp room).symm

theorem Kernel.view_ext (offset : after.offset pid = kernel.offset pid)
    (conns : after.conns pid fd = kernel.conns pid fd) (ledger : after.ledger = kernel.ledger) :
    after.view pid fd = kernel.view pid fd := by
  simp only [view, Booked, offset, conns, ledger]

theorem connAt_view {other : Int} (own : Own fd other) :
    (kernel.view pid fd).connAt fd other = kernel.connAt pid other := by
  rcases own with rfl | rfl
  · simp [View.connAt, Kernel.connAt, Kernel.view]
  · simp [View.connAt, Kernel.connAt]

theorem own_open {other : Int} (own : Own fd other) (here : kernel.connAt pid other = some conn) :
    other.toNat = fd ∧ kernel.conns pid fd = some conn := by
  rcases own with rfl | rfl
  · exact ⟨Int.toNat_natCast fd, by simpa [Kernel.connAt] using here⟩
  · simp [Kernel.connAt] at here

variable {kind : ServerKind}

-- What the handler reads is what some of the stored commands made of the record.
theorem view_fetched (inv : KernelInv file kernel) (room : kernel.ledger <+: ledger)
    (recent : least ≤ kernel.ledger.length) (covered : Covered host kind pid kernel memory) :
    Fetched file ledger least kind (kernel.view pid fd) (memory.requestP fd)
      (kernel.file (kernel.offset pid)) where
  serial := ⟨kernel.ledger.length, recent, by rw [take_room room, inv.content]; rfl⟩
  kept := by
    intro conn here stage owner unbooked
    rcases (covered.shown fd conn here stage).2 with shown | ⟨-, booked⟩
    · rw [← show (memory.requestP fd).id = kernel.offset pid from owner]
      exact shown.shown
    · exact absurd ⟨conn, here, booked⟩ unbooked

-- The counts that the client was shown are still those of the file when its command is stored.
theorem deciding_reads {before value : Record} (inv : KernelInv file kernel)
    (covered : Covered host kind pid kernel memory) (here : kernel.conns pid fd = some conn)
    (id : before.id = (file (kernel.offset pid)).id)
    (deciding : Deciding (kernel.view pid fd) (memory.requestP fd) conn before value) :
    before = kernel.file (kernel.offset pid) := by
  have owner : (memory.requestP fd).id = kernel.offset pid := deciding.owner
  rcases (covered.shown fd conn here deciding.stage).2 with shown | ⟨-, booked⟩
  · have same := shown.shown
    rw [deciding.shown, owner] at same
    have counts : before.counts = (kernel.file (kernel.offset pid)).counts := by
      cases kind with
      | readServer => exact absurd same (by simp [snapshot])
      | writeServer => exact Message.prompt.inj (Option.some.inj same)
    have name : (kernel.file (kernel.offset pid)).id = (file (kernel.offset pid)).id := by
      rw [inv.content]
      rfl
    cases before
    cases reads : kernel.file (kernel.offset pid)
    simp_all
  · exact absurd ⟨conn, here, booked⟩ deciding.unbooked

variable [DecidableEq P]

theorem view_setConn {conn' : Conn} (here : kernel.conns pid fd = some conn)
    (same : conn'.sid = conn.sid) :
    (kernel.setConn pid fd (some conn')).view pid fd =
      { kernel.view pid fd with conn := some conn' } := by
  simp [Kernel.view, here, same, Kernel.Booked, Kernel.setConn]

theorem view_endConn :
    (kernel.endConn pid fd conn).view pid fd = ⟨kernel.offset pid, none, False⟩ := by
  simp [Kernel.view, Kernel.endConn, Kernel.setConn]

/-- What a call of the handler of a descriptor does beside it. -/
structure Advances (file : Nat → Record) (ledger : List Conn) (least : Nat) (kind : ServerKind) (pid : P)
    (fd : Nat) (kernel after : Kernel P) : Prop where
  elsewhere : ∀ other, other ≠ fd → after.conns pid other = kernel.conns pid other
  here : ∀ conn, after.conns pid fd = some conn →
    ∃ before, kernel.conns pid fd = some before ∧ before.sid = conn.sid
  past : after.past = kernel.past ∨ ∃ conn, after.past = kernel.past ++ [conn] ∧
    kernel.conns pid fd = some conn ∧ Dialogue file ledger least kind conn
  stored : after.ledger = kernel.ledger ∨ ∃ conn record line,
    after.ledger = kernel.ledger ++ [conn] ∧
      Decided file ledger kernel.ledger.length conn record line

omit [DecidableEq P] in
theorem Advances.private (conns : after.conns = kernel.conns) (past : after.past = kernel.past)
    (stored : after.ledger = kernel.ledger) : Advances file ledger least kind pid fd kernel after :=
  ⟨fun _ _ => by rw [conns], fun conn there => ⟨conn, conns ▸ there, rfl⟩, .inl past, .inl stored⟩

theorem Advances.setConn {conn' : Conn} (here : kernel.conns pid fd = some conn)
    (same : conn'.sid = conn.sid) :
    Advances file ledger least kind pid fd kernel (kernel.setConn pid fd (some conn')) := by
  refine ⟨fun other different => by simp [different], fun found there => ?_, .inl rfl, .inl rfl⟩
  obtain rfl : conn' = found := by simpa using there
  exact ⟨conn, here, same.symm⟩

theorem write_advances {value : Record} {next : Unit → View → Prop} (inv : KernelInv file kernel)
    (covered : Covered host kind pid kernel memory)
    (executed : (kernel.store (kernel.offset pid) value (kernel.conns pid fd)).seek pid
      (kernel.offset pid + 1) = after) (inv' : KernelInv file after) (room : after.ledger <+: ledger)
    (recent : least ≤ kernel.ledger.length)
    (holds : callWp file ledger least kind fd (kernel.view pid fd) memory (.write value) next) :
    next () (after.view pid fd) ∧ Advances file ledger least kind pid fd kernel after := by
  obtain ⟨conn, before, here, id, deciding, stored⟩ := holds
  have here : kernel.conns pid fd = some conn := here
  have reads := deciding_reads inv covered here id deciding
  rw [here] at executed
  subst executed
  have start : kernel.ledger <+: ledger := (List.prefix_append _ _).trans room
  have serial : before = afterBookings file (ledger.take kernel.ledger.length) (kernel.offset pid) := by
    rw [take_room start, reads, inv.content]
  have entry : ledger[kernel.ledger.length]? = some conn := by
    obtain ⟨rest, rfl⟩ := room
    simp [Kernel.store, Kernel.seek]
  have wrote : value =
      afterBookings file (ledger.take (kernel.ledger.length + 1)) (kernel.offset pid) := by
    have content := inv'.content (kernel.offset pid)
    have whole := take_room room
    simp only [Kernel.store, Kernel.seek, Option.toList_some, List.length_append, List.length_singleton,
      Function.update_self] at content whole
    rw [whole, ← content]
  refine ⟨?_, fun _ _ => rfl, fun found there => ⟨found, there, rfl⟩, .inl rfl,
    .inr ⟨conn, kernel.offset pid, ?_⟩⟩
  · have moved : ((kernel.store (kernel.offset pid) value (some conn)).seek pid
        (kernel.offset pid + 1)).view pid fd = ⟨kernel.offset pid + 1, some conn,
          (((kernel.store (kernel.offset pid) value (some conn)).seek pid
            (kernel.offset pid + 1)).view pid fd).booked⟩ := by
      simp [Kernel.view, Kernel.seek, Kernel.store, here]
    rw [moved]
    exact stored _ _ recent serial entry
  · obtain ⟨line, second, answered⟩ := deciding.line
    exact ⟨line, rfl, deciding.entered, second, serial ▸ deciding.shown, serial ▸ wrote ▸ answered⟩

variable [Fintype P]

/-- A call that is made as the handler has to make it goes on as the handler has to go on. -/
theorem exec_advances {choice : Choice} {call : Call} {answer : Answer call}
    {next : Answer call → View → Prop} (inv : KernelInv file kernel) (inv' : KernelInv file after)
    (covered : Covered host kind pid kernel memory) (room : after.ledger <+: ledger)
    (recent : least ≤ kernel.ledger.length)
    (holds : callWp file ledger least kind fd (kernel.view pid fd) memory call next)
    (executed : kernel.exec pid fd choice call = some (answer, after)) :
    next answer (after.view pid fd) ∧ Advances file ledger least kind pid fd kernel after := by
  cases call with
  | fcntl type record =>
    cases type with
    | none =>
      obtain ⟨rfl, rfl⟩ := Prod.mk.inj (Option.some.inj executed)
      exact ⟨holds _, .private rfl rfl rfl⟩
    | some mode =>
      simp only [Kernel.exec] at executed
      split_ifs at executed
      · obtain ⟨rfl, rfl⟩ := Prod.mk.inj (Option.some.inj executed)
        have same : (kernel.grant pid fd mode record).view pid fd = kernel.view pid fd := by
          refine Kernel.view_ext ?_ (by simp) (by simp)
          unfold Kernel.grant
          split_ifs <;> rfl
        have past : (kernel.grant pid fd mode record).past = kernel.past := by
          unfold Kernel.grant
          split_ifs <;> rfl
        exact ⟨same ▸ holds _, .private (by simp) past (by simp)⟩
      · obtain ⟨rfl, rfl⟩ := Prod.mk.inj (Option.some.inj executed)
        exact ⟨holds _, .private rfl rfl rfl⟩
  | lseek record =>
    obtain ⟨-, rfl⟩ := Prod.mk.inj (Option.some.inj executed)
    refine ⟨?_, .private rfl rfl rfl⟩
    have moved : (kernel.seek pid record).view pid fd = { kernel.view pid fd with offset := record } := by
      simp [Kernel.view, Kernel.seek, Kernel.Booked]
    exact moved ▸ holds
  | read =>
    obtain ⟨rfl, rfl⟩ := Prod.mk.inj (Option.some.inj executed)
    refine ⟨?_, .private rfl rfl rfl⟩
    have moved : (kernel.seek pid (kernel.offset pid + 1)).view pid fd =
        { kernel.view pid fd with offset := kernel.offset pid + 1 } := by
      simp [Kernel.view, Kernel.seek, Kernel.Booked]
    exact moved ▸ holds _ (view_fetched inv room recent covered)
  | write value =>
    exact write_advances inv covered (Prod.mk.inj (Option.some.inj executed)).2 inv' room recent holds
  | recv other =>
    obtain ⟨own, rest⟩ := holds
    rw [connAt_view own] at rest
    simp only [Kernel.exec] at executed
    cases here : kernel.connAt pid other with
    | none =>
      simp only [here] at executed rest
      obtain ⟨rfl, rfl⟩ := Prod.mk.inj (Option.some.inj executed)
      exact ⟨rest, .private rfl rfl rfl⟩
    | some conn =>
      obtain ⟨same, open_⟩ := own_open own here
      simp only [here, same] at executed rest
      rcases input : choice.input with _ | _ | bytes
      · simp only [input] at executed
        obtain ⟨rfl, rfl⟩ := Prod.mk.inj (Option.some.inj executed)
        exact ⟨rest.1, .private rfl rfl rfl⟩
      · simp only [input] at executed
        obtain ⟨rfl, rfl⟩ := Prod.mk.inj (Option.some.inj executed)
        exact ⟨rest.2.1, .private rfl rfl rfl⟩
      · simp only [input] at executed
        split_ifs at executed
        obtain ⟨rfl, rfl⟩ := Prod.mk.inj (Option.some.inj executed)
        refine ⟨?_, .setConn open_ rfl⟩
        have moved := view_setConn open_ (show (conn.receive bytes).sid = conn.sid from rfl)
        rw [Conn.receive] at moved
        rw [moved]
        exact rest.2.2 bytes
  | send other message =>
    obtain ⟨own, rest⟩ := holds
    rw [connAt_view own] at rest
    simp only [Kernel.exec] at executed
    cases here : kernel.connAt pid other with
    | none =>
      simp only [here] at executed rest
      obtain ⟨-, rfl⟩ := Prod.mk.inj (Option.some.inj executed)
      exact ⟨rest, .private rfl rfl rfl⟩
    | some conn =>
      obtain ⟨same, open_⟩ := own_open own here
      simp only [here, same] at executed rest
      obtain ⟨-, rfl⟩ := Prod.mk.inj (Option.some.inj executed)
      refine ⟨?_, .setConn open_ rfl⟩
      have moved := view_setConn open_ (show (conn.tell message).sid = conn.sid from rfl)
      rw [Conn.tell] at moved
      rw [moved]
      exact rest
  | close other =>
    obtain ⟨own, rest⟩ := holds
    rw [connAt_view own] at rest
    simp only [Kernel.exec] at executed
    cases here : kernel.connAt pid other with
    | none =>
      simp only [here] at executed rest
      obtain ⟨-, rfl⟩ := Prod.mk.inj (Option.some.inj executed)
      exact ⟨rest, .private rfl rfl rfl⟩
    | some conn =>
      obtain ⟨same, open_⟩ := own_open own here
      simp only [here, same] at executed rest
      obtain ⟨-, rfl⟩ := Prod.mk.inj (Option.some.inj executed)
      refine ⟨?_, fun number different => ?_, fun found there => ?_, .inr ⟨conn, rfl, open_, rest.1⟩,
        .inl rfl⟩
      · rw [view_endConn]
        exact rest.2
      · simp [Kernel.endConn, different]
      · simp [Kernel.endConn] at there

omit [DecidableEq P] [Fintype P] in
theorem slot_session (here : kernel.conns pid fd = some conn)
    (slot : SlotOk kind kernel (memory.requestP fd) fd conn) (stage : (memory.requestP fd).stage = 1)
    (dialogue : Dialogue file ledger least kind conn) :
    Session file ledger least kind (kernel.view pid fd) (memory.requestP fd) fd conn := by
  obtain ⟨shown, single⟩ := (slot.stage.resolve_left fun fresh =>
    absurd (fresh.1.symm.trans stage) zero_ne_one).2
  have unbooked : ¬ (kernel.view pid fd).booked := by
    rintro ⟨found, there, booked⟩
    obtain rfl := Option.some.inj (here.symm.trans there)
    exact slot.unbooked booked
  refine ⟨here, slot.connFd, stage, unbooked, shown.entered, single, ?_⟩
  have second := shown.shown
  cases dialogue with
  | greeted silent said => simp [said] at second
  | refused line first invalid said => cases kind <;> simp [said, snapshot] at second
  | locked record entered said => cases kind <;> simp [said, snapshot] at second
  | opened record number recent entered silent said =>
    obtain rfl := Option.some.inj (entered.symm.trans shown.entered)
    exact ⟨number, recent, said⟩
  | settled record number line message writer recent entered line' answered said stored =>
    have silent : conn.line 1 = none := by simp [Conn.line, single writer]
    exact absurd (silent.symm.trans line') (by simp)

omit [DecidableEq P] [Fintype P] in
theorem handler_meets (here : kernel.conns pid fd = some conn)
    (slot : SlotOk kind kernel (memory.requestP fd) fd conn)
    (dialogue : Dialogue file ledger least kind conn) {code : Handler Flow}
    (chosen : handler kind fd (memory.requestP fd).stage = some code) :
    Tends file ledger least kind fd (kernel.view pid fd) (code memory) := by
  rcases slot.stage with ⟨stage, received, shown⟩ | ⟨stage, -, -⟩
  · rw [stage] at chosen
    cases kind with
    | readServer =>
      obtain rfl := Option.some.inj chosen
      exact readStage0_meets here slot.connFd stage received shown
    | writeServer =>
      obtain rfl := Option.some.inj chosen
      exact writeStage0_meets here slot.connFd received shown
  · have session := slot_session here slot stage dialogue
    rw [stage] at chosen
    cases kind with
    | readServer =>
      obtain rfl := Option.some.inj chosen
      exact readStage1_meets session
    | writeServer =>
      obtain rfl := Option.some.inj chosen
      exact writeStage1_meets session

variable {kind : P → ServerKind} {system next final : System P} {label : Label P}
  {heap : P → Nat → List UInt8} {labels : List (Label P)}

theorem Conversing.moved (conversing : Conversing file ledger known kind system)
    (moves : Moves file host kind pid system next) (stored : next.kernel.ledger = system.kernel.ledger)
    (past : next.kernel.past = system.kernel.past)
    (own : Attending file ledger known (kind pid) pid next.kernel (next.proc pid)) :
    Conversing file ledger known kind next := by
  refine ⟨stored ▸ conversing.stored, past ▸ conversing.past, fun other => ?_⟩
  by_cases same : other = pid
  · exact same ▸ own
  · obtain ⟨unmoved, relies⟩ := moves.other same
    rw [unmoved]
    exact (conversing.procs other).stable relies (by rw [stored])

theorem Conversing.setProc {proc : Proc} (conversing : Conversing file ledger known kind system)
    (moves : Moves file host kind pid system (system.setProc pid proc))
    (own : Attending file ledger known (kind pid) pid system.kernel proc) :
    Conversing file ledger known kind (system.setProc pid proc) :=
  conversing.moved moves rfl rfl (by simpa [System.setProc] using own)

theorem Conversing.advanced {working : List Nat} {code : Prog Memory Call Answer Flow}
    (conversing : Conversing file ledger known kind system)
    (moves : Moves file host kind pid system next)
    (tended : ∀ conn, system.kernel.conns pid fd = some conn → least = known conn.sid)
    (advances : Advances file ledger least (kind pid) pid fd system.kernel next.kernel)
    (longer : system.kernel.ledger <+: next.kernel.ledger)
    (proc : next.proc pid = .handling fd working code)
    (own : Attending file ledger known (kind pid) pid next.kernel (.handling fd working code)) :
    Conversing file ledger known kind next := by
  refine ⟨?_, ?_, fun other => ?_⟩
  · intro number conn place
    rcases advances.stored with same | ⟨last, record, line, more, decided⟩
    · exact conversing.stored number conn (same ▸ place)
    · rw [more, List.getElem?_append] at place
      split_ifs at place with before
      · exact conversing.stored number conn place
      · rw [List.getElem?_singleton] at place
        split_ifs at place
        obtain rfl := Option.some.inj place
        obtain rfl : number = system.kernel.ledger.length := by omega
        exact ⟨record, line, decided⟩
  · intro conn member
    rcases advances.past with same | ⟨last, more, here, dialogue⟩
    · exact conversing.past conn (same ▸ member)
    · rw [more] at member
      rcases List.mem_append.mp member with before | ended
      · exact conversing.past conn before
      · obtain rfl := List.mem_singleton.mp ended
        exact ⟨pid, tended conn here ▸ dialogue⟩
  · by_cases same : other = pid
    · subst same
      exact proc ▸ own
    · obtain ⟨unmoved, relies⟩ := moves.other same
      rw [unmoved]
      exact (conversing.procs other).stable relies longer

theorem Kernel.exec_ledger {kernel after : Kernel P} {choice : Choice} {call : Call}
    {answer : Answer call} (executed : kernel.exec pid fd choice call = some (answer, after)) :
    kernel.ledger <+: after.ledger := by
  cases call with
  | fcntl type record =>
    cases type with
    | none =>
      obtain ⟨-, rfl⟩ := Prod.mk.inj (Option.some.inj executed)
      exact List.prefix_rfl
    | some mode =>
      simp only [exec] at executed
      split_ifs at executed
      · obtain ⟨-, rfl⟩ := Prod.mk.inj (Option.some.inj executed)
        simp
      · obtain ⟨-, rfl⟩ := Prod.mk.inj (Option.some.inj executed)
        exact List.prefix_rfl
  | lseek record =>
    obtain ⟨-, rfl⟩ := Prod.mk.inj (Option.some.inj executed)
    exact List.prefix_rfl
  | read =>
    obtain ⟨-, rfl⟩ := Prod.mk.inj (Option.some.inj executed)
    exact List.prefix_rfl
  | write value =>
    obtain ⟨-, rfl⟩ := Prod.mk.inj (Option.some.inj executed)
    exact List.prefix_append _ _
  | recv other =>
    simp only [exec] at executed
    split at executed <;> try split_ifs at executed
    all_goals
      obtain ⟨-, rfl⟩ := Prod.mk.inj (Option.some.inj executed)
      exact List.prefix_rfl
  | send other message =>
    simp only [exec] at executed
    split at executed <;>
    · obtain ⟨-, rfl⟩ := Prod.mk.inj (Option.some.inj executed)
      exact List.prefix_rfl
  | close other =>
    simp only [exec] at executed
    split at executed <;>
    · obtain ⟨-, rfl⟩ := Prod.mk.inj (Option.some.inj executed)
      exact List.prefix_rfl

theorem step_ledger (taken : system.step host kind label = some next) :
    system.kernel.ledger <+: next.kernel.ledger := by
  cases label with
  | select pid ready accept =>
    simp only [System.step] at taken
    split at taken
    · split_ifs at taken
      cases accept <;> simp only at taken
      all_goals try split_ifs at taken
      all_goals exact Option.some.inj taken ▸ List.prefix_rfl
    · exact absurd taken (by simp)
  | visit pid =>
    simp only [System.step] at taken
    split at taken
    · split_ifs at taken
      · exact Option.some.inj taken ▸ List.prefix_rfl
      · split at taken <;> exact Option.some.inj taken ▸ List.prefix_rfl
    · exact absurd taken (by simp)
  | call pid choice =>
    simp only [System.step] at taken
    split at taken
    · obtain ⟨⟨answer, after⟩, executed, rfl⟩ := Option.map_eq_some_iff.mp taken
      exact Kernel.exec_ledger executed
    · exact absurd taken (by simp)
  | finish pid =>
    simp only [System.step] at taken
    split at taken
    all_goals first | exact Option.some.inj taken ▸ List.prefix_rfl | exact absurd taken (by simp)

theorem Conversing.step (inv : SystemInv file host kind system)
    (conversing : Conversing file ledger known kind system)
    (recent : ∀ sid, known sid ≤ system.kernel.ledger.length)
    (taken : system.step host kind label = some next) (room : next.kernel.ledger <+: ledger) :
    Conversing file ledger known kind next := by
  have moves := step_moves inv taken
  have own := conversing.procs label.pid
  have ok := inv.procs label.pid
  have inv' := inv.step taken
  have moved := taken
  cases label with
  | select pid ready accept =>
    simp only [System.step, Label.pid] at taken own moves
    split at taken
    · rename_i memory here
      rw [here] at own
      split_ifs at taken
      cases accept with
      | notReady =>
        obtain rfl := Option.some.inj taken
        exact conversing.setProc moves own
      | again =>
        obtain rfl := Option.some.inj taken
        exact conversing.setProc moves own
      | fatal =>
        obtain rfl := Option.some.inj taken
        exact conversing.moved moves rfl rfl (by simp [System.setProc, Attending])
      | conn fd =>
        simp only at taken
        split_ifs at taken
        obtain rfl := Option.some.inj taken
        refine conversing.moved moves rfl rfl ?_
        simp only [System.setProc, Function.update_self]
        intro other conn there
        simp only [acceptConn, Kernel.setConn_conns] at there
        split_ifs at there
        · obtain rfl := Option.some.inj there
          exact .greeted rfl rfl
        · exact own other conn there
    · exact absurd taken (by simp)
  | visit pid =>
    simp only [System.step, Label.pid] at taken own moves ok
    split at taken
    · rename_i memory fd working here
      rw [here] at own ok
      split_ifs at taken with skipped
      · obtain rfl := Option.some.inj taken
        exact conversing.setProc moves own
      · obtain ⟨conn, slot, at_⟩ := Idle.enter ok (not_or.mp skipped).1
        cases chosen : handler (kind pid) fd (memory.requestP fd).stage with
        | none =>
          simp only [chosen] at taken
          obtain rfl := Option.some.inj taken
          exact conversing.setProc moves own
        | some code =>
          simp only [chosen] at taken
          obtain rfl := Option.some.inj taken
          have tends := handler_meets at_.here slot (own fd conn at_.here) chosen
          refine conversing.setProc moves ⟨⟨known conn.sid, ?_, recent _, tends⟩, fun other _ => own other⟩
          intro found there
          rw [Option.some.inj (at_.here.symm.trans there)]
    · exact absurd taken (by simp)
  | call pid choice =>
    simp only [System.step, Label.pid] at taken own moves
    split at taken
    · rename_i fd working memory call continuation here
      rw [here] at own
      obtain ⟨⟨least, session, stored, tends⟩, elsewhere⟩ := own
      have longer := step_ledger moved
      obtain ⟨⟨answer, after⟩, executed, rfl⟩ := Option.map_eq_some_iff.mp taken
      have covered : Covered host (kind pid) pid system.kernel memory := inv.covered (by rw [here]; rfl)
      obtain ⟨goes, advances⟩ :=
        exec_advances inv.kernel inv'.kernel covered room stored tends executed
      refine conversing.advanced moves session advances longer (Function.update_self ..)
        ⟨⟨least, ?_, stored.trans longer.length_le, goes⟩, fun other different => ?_⟩
      · intro conn there
        obtain ⟨before, was, same⟩ := advances.here conn there
        rw [session before was, same]
      · intro conn there
        exact elsewhere other different conn ((advances.elsewhere other different).symm.trans there)
    · exact absurd taken (by simp)
  | finish pid =>
    simp only [System.step, Label.pid] at taken own moves
    have left : ∀ fd working memory flow, system.proc pid = .handling fd working (.done memory flow) →
        ∀ other, Greets file ledger known (kind pid) pid system.kernel other := by
      intro fd working memory flow here other
      rw [here] at own
      obtain ⟨⟨least, session, -, tends⟩, elsewhere⟩ := own
      by_cases same : other = fd
      · subst same
        exact fun conn there => session conn there ▸ tends conn there
      · exact elsewhere other same
    split at taken
    · rename_i fd working memory here
      obtain rfl := Option.some.inj taken
      exact conversing.setProc moves (left fd working memory _ here)
    · rename_i fd working memory here
      obtain rfl := Option.some.inj taken
      exact conversing.setProc moves (left fd working memory _ here)
    · obtain rfl := Option.some.inj taken
      exact conversing.moved moves rfl rfl (by simp [System.setProc, Attending])
    · exact absurd taken (by simp)

theorem run_ledger (ran : run (System.step host kind) system labels = some final) :
    system.kernel.ledger <+: final.kernel.ledger :=
  run_invariant _ (fun state => system.kernel.ledger <+: state.kernel.ledger)
    (fun _ _ _ longer taken => longer.trans (step_ledger taken)) _ _ labels List.prefix_rfl ran

theorem Conversing.run (inv : SystemInv file host kind system)
    (conversing : Conversing file ledger known kind system)
    (recent : ∀ sid, known sid ≤ system.kernel.ledger.length)
    (ran : Lib.run (System.step host kind) system labels = some final)
    (room : final.kernel.ledger <+: ledger) : Conversing file ledger known kind final := by
  refine (run_invariant _ (fun state => SystemInv file host kind state ∧
    system.kernel.ledger <+: state.kernel.ledger ∧
    (state.kernel.ledger <+: ledger → Conversing file ledger known kind state)) ?_ _ _ labels
    ⟨inv, List.prefix_rfl, fun _ => conversing⟩ ran).2.2 room
  rintro state label next ⟨inv, longer, conversing⟩ taken
  refine ⟨inv.step taken, longer.trans (step_ledger taken), fun room => ?_⟩
  exact (conversing ((step_ledger taken).trans room)).step inv
    (fun sid => (recent sid).trans longer.length_le) taken room

theorem Conversing.reachable
    (ran : Lib.run (System.step host kind) (System.init host file heap) labels = some system)
    (room : system.kernel.ledger <+: ledger) : Conversing file ledger (fun _ => 0) kind system := by
  refine Conversing.run (SystemInv.init heap) ?_ (fun _ => Nat.zero_le _) ran room
  refine ⟨by simp [System.init], by simp [System.init], fun pid fd conn here => ?_⟩
  exact absurd here (by simp [System.init])

-- The sessions that are there may have to know as much as before.
omit [DecidableEq P] [Fintype P] in
theorem Conversing.since {known' : Nat → Nat} (conversing : Conversing file ledger known kind system)
    (inv : KernelInv file system.kernel)
    (same : ∀ sid < system.kernel.nextSid, known' sid = known sid) :
    Conversing file ledger known' kind system := by
  have greets : ∀ pid fd, Greets file ledger known (kind pid) pid system.kernel fd →
      Greets file ledger known' (kind pid) pid system.kernel fd := by
    intro pid fd greets conn there
    rw [same _ (inv.openSid pid fd conn there)]
    exact greets conn there
  refine ⟨conversing.stored, fun conn member => ?_, fun pid => ?_⟩
  · rw [same _ (inv.past conn member).1]
    exact conversing.past conn member
  · have own := conversing.procs pid
    cases proc : system.proc pid with
    | loop memory working =>
      rw [proc] at own
      exact fun fd => greets pid fd (own fd)
    | handling fd working code =>
      rw [proc] at own
      obtain ⟨⟨least, session, stored, tends⟩, elsewhere⟩ := own
      refine ⟨⟨least, fun conn there => ?_, stored, tends⟩, fun other different =>
        greets pid other (elsewhere other different)⟩
      rw [same _ (inv.openSid pid fd conn there)]
      exact session conn there
    | exited => trivial

end SPHomework.Booking
